import DocHistory.Store
import DocHistory.Version
import DocHistory.Proofs.NumeralText

/-! Texts of identifiers. Every revision and every document identifier is read back from the text
that is printed for it. -/
namespace DocHistory

namespace Revision

theorem fieldsSome (cs : List Char) : fields cs ≠ [] := by
  cases cs with
  | nil => simp [fields]
  | cons c cs =>
    rw [fields]
    split
    · simp
    · split <;> simp

theorem fieldsLast {cs : List Char} (dashless : ∀ c ∈ cs, c ≠ '-') : fields cs = [cs] := by
  induction cs with
  | nil => rfl
  | cons c cs ih =>
    obtain ⟨own, others⟩ := List.forall_mem_cons.1 dashless
    simp [fields, ih others, own]

theorem fieldsNext {cs : List Char} (dashless : ∀ c ∈ cs, c ≠ '-') (rest : List Char) :
    fields (cs ++ '-' :: rest) = cs :: fields rest := by
  induction cs with
  | nil =>
    rw [List.nil_append, fields]
    cases found : fields rest with
    | nil => exact absurd found (fieldsSome rest)
    | cons f fs => simp
  | cons c cs ih =>
    obtain ⟨own, others⟩ := List.forall_mem_cons.1 dashless
    simp [fields, ih others, own]

theorem hexPlain (width n : Nat) :
    ∀ c ∈ Radix.padded 16 width n, c ≠ '-' ∧ c ≠ '+' :=
  Radix.paddedDigit (by decide) (by decide) width n

theorem fieldPadded {bound n : Nat} (below : n < bound) (width : Nat) :
    field? bound (Radix.padded 16 width n) = some n := by
  have read : Radix.read? 16 (Radix.padded 16 width n) = some n :=
    Radix.readPadded (by decide) (by decide) width n
  have plain := hexPlain width n
  generalize Radix.padded 16 width n = cs at read plain
  unfold field?
  split
  · exact absurd rfl (plain '+' List.mem_cons_self).2
  · simp [read, below]

theorem textRead (r : Revision) : Revision.ofText r.text = .ok r := by
  have split : fields r.chars = [Radix.padded 16 12 r.timestamp.toNat,
      Radix.padded 16 4 r.origin.toNat, Radix.padded 16 8 r.sequence.toNat] := by
    have dashless := fun width n c member => (hexPlain width n c member).1
    rw [chars, List.append_assoc, List.cons_append, fieldsNext (dashless 12 _),
      fieldsNext (dashless 4 _), fieldsLast (dashless 8 _)]
  have read : ofChars? r.chars = some r := by
    rw [ofChars?, split]
    simp only [fieldPadded r.timestamp.toNat_lt_size, fieldPadded r.origin.toNat_lt_size,
      fieldPadded r.sequence.toNat_lt_size]
    simp
  rw [Revision.ofText, text, String.toList_ofList, read]

end Revision

namespace DocumentId

theorem digitRead : ∀ d < 32, digit? (alphabet.getD d '0') = some d := by decide

theorem digitNarrow : ∀ d < 32, (alphabet.getD d '0').utf8Size = 1 := by decide

theorem digitsRead (n number : Nat) : ∃ ds, (digits n number).mapM digit? = some ds ∧
    ds.foldl (fun n d => n * 32 + d) 0 = number % 32 ^ n := by
  induction n generalizing number with
  | zero => exact ⟨[], rfl, (Nat.mod_one number).symm⟩
  | succ n ih =>
    obtain ⟨ds, read, value⟩ := ih (number / 32)
    have last := digitRead (number % 32) (Nat.mod_lt _ (by decide))
    refine ⟨ds ++ [number % 32], ?_, ?_⟩
    · rw [digits, List.mapM_append, read, List.mapM_cons, last]
      rfl
    · rw [List.foldl_append, value, Nat.pow_succ, Nat.mul_comm (32 ^ n) 32, Nat.mod_mul]
      simp only [List.foldl_cons, List.foldl_nil]
      omega

theorem digitsNarrow (n number : Nat) : (String.ofList (digits n number)).utf8ByteSize = n := by
  induction n generalizing number with
  | zero => rfl
  | succ n ih =>
    have last := digitNarrow (number % 32) (Nat.mod_lt _ (by decide))
    rw [digits, String.ofList_append, String.utf8ByteSize_append, ih, ← String.singleton_eq_ofList,
      String.utf8ByteSize_singleton, last]

theorem textRead (id : DocumentId) : DocumentId.ofText id.text = .ok id := by
  obtain ⟨ds, read, value⟩ := digitsRead textLength id.number
  have small : id.number < 32 ^ textLength := Nat.lt_of_lt_of_le id.bounded (by decide)
  rw [Nat.mod_eq_of_lt small] at value
  rw [ofText, text, digitsNarrow, if_neg (by simp), String.toList_ofList, read]
  dsimp only
  rw [value, ofNat]
  cases id
  rename_i number below
  simp [Nat.mod_eq_of_lt below]

end DocumentId
end DocHistory
