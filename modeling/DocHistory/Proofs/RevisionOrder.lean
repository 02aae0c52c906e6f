import Mathlib.Data.List.Basic
import DocHistory.Proofs.IdentifierText

/-! The order of texts of revisions. Among numerals of one length the order of the characters is
that of the numbers, since digits stand before letters. So while timestamps have no more than
twelve digits, texts of revisions are in the order of the revisions. -/
namespace DocHistory

section Lexicographic
variable {α β : Type} [Ord α] [Ord β]

theorem compareAppend {xs ys : List α} (same : xs.length = ys.length) (us vs : List α) :
    compare (xs ++ us) (ys ++ vs) = (compare xs ys).then (compare us vs) := by
  induction xs generalizing ys with
  | nil =>
    obtain rfl := List.length_eq_zero_iff.1 same.symm
    rfl
  | cons x xs ih =>
    obtain ⟨y, ys, rfl⟩ := List.exists_cons_of_length_eq_add_one same.symm
    rw [List.cons_append, List.cons_append, List.compare_cons_cons, List.compare_cons_cons,
      ih (Nat.succ.inj same), Ordering.then_assoc]

theorem compareMap {f : α → β} {xs ys : List α}
    (each : ∀ x ∈ xs, ∀ y ∈ ys, compare (f x) (f y) = compare x y) :
    compare (xs.map f) (ys.map f) = compare xs ys := by
  induction xs generalizing ys with
  | nil => cases ys <;> rfl
  | cons x xs ih =>
    cases ys with
    | nil => rfl
    | cons y ys =>
      have first := each x List.mem_cons_self y List.mem_cons_self
      have rest := ih fun x later y listed =>
        each x (List.mem_cons_of_mem _ later) y (List.mem_cons_of_mem _ listed)
      rw [List.map_cons, List.map_cons, List.compare_cons_cons, List.compare_cons_cons, first, rest]

end Lexicographic

def bytes (s : String) : List UInt8 := s.toUTF8.data.toList

theorem bytesAscii {cs : List Char} (ascii : ∀ c ∈ cs, c.toNat < 128) :
    bytes (String.ofList cs) = cs.map Char.toUInt8 := by
  have listed : bytes (String.ofList cs) = cs.flatMap String.utf8EncodeChar := by
    simp [bytes, List.utf8Encode]
  have single : ∀ c ∈ cs, String.utf8EncodeChar c = [c.toUInt8] := fun c member =>
    String.utf8EncodeChar_eq_singleton
      (Char.utf8Size_eq_one_iff.2 (UInt32.le_iff_toNat_le.2 (Nat.le_of_lt_succ (ascii c member))))
  rw [listed, List.flatMap_congr single, List.map_eq_flatMap]

namespace Radix

theorem compareDigit {base m n d e : Nat} (below : d < base) (below' : e < base) :
    compare (m * base + d) (n * base + e) = (compare m n).then (compare d e) := by
  rcases Nat.lt_trichotomy m n with less | rfl | more
  · have room : (m + 1) * base ≤ n * base := Nat.mul_le_mul_right base less
    rw [Nat.compare_eq_lt.2 less, Nat.compare_eq_lt.2 (by rw [Nat.succ_mul] at room; omega)]
    rfl
  · rw [Nat.compare_eq_eq.2 rfl, Ordering.eq_then, Nat.compare_eq_ite_lt, Nat.compare_eq_ite_lt]
    simp only [Nat.add_lt_add_iff_left]
  · have room : (n + 1) * base ≤ m * base := Nat.mul_le_mul_right base more
    rw [Nat.compare_eq_gt.2 more, Nat.compare_eq_gt.2 (by rw [Nat.succ_mul] at room; omega)]
    rfl

theorem compareValue {base : Nat} {ds es : List Nat} (same : ds.length = es.length)
    (below : ∀ d ∈ ds, d < base) (below' : ∀ e ∈ es, e < base) :
    compare ds es = compare (value base ds) (value base es) := by
  induction ds using List.reverseRecOn generalizing es with
  | nil =>
    obtain rfl := List.length_eq_zero_iff.1 same.symm
    rfl
  | append_singleton ds d ih =>
    cases es using List.reverseRecOn with
    | nil => simp at same
    | append_singleton es e =>
      obtain ⟨early, last⟩ := List.forall_mem_append.1 below
      obtain ⟨early', last'⟩ := List.forall_mem_append.1 below'
      have front : ds.length = es.length := by simpa using same
      have own : d < base := last d (List.mem_singleton_self d)
      have own' : e < base := last' e (List.mem_singleton_self e)
      have single : compare [d] [e] = compare d e := by
        rw [List.compare_cons_cons]
        exact Ordering.then_eq
      rw [compareAppend front, ih front early early', single, valueAppend, valueAppend,
        compareDigit own own']

theorem compareBytes : ∀ d < 16, ∀ e < 16,
    compare ((Char.toUInt8 ∘ digitChar) d) ((Char.toUInt8 ∘ digitChar) e) = compare d e := by decide

section
variable {m n width : Nat} (fits : m < 16 ^ (width + 1)) (fits' : n < 16 ^ (width + 1))
include fits fits'

theorem comparePadded : compare ((padded 16 (width + 1) m).map Char.toUInt8)
    ((padded 16 (width + 1) n).map Char.toUInt8) = compare m n := by
  have length := paddedLength fits
  have length' := paddedLength fits'
  have below := fun k n d => @paddedBelow 16 (by decide) k n d
  rw [paddedDigits, List.length_map] at length length'
  rw [paddedDigits, paddedDigits, List.map_map, List.map_map,
    compareMap fun d listed e listed' =>
      compareBytes d (below _ m d listed) e (below _ n e listed'),
    compareValue (length.trans length'.symm) (below _ m) (below _ n), valueZeros, valueZeros,
    valueDigits, valueDigits]

theorem compareField (us vs : List UInt8) :
    compare ((padded 16 (width + 1) m).map Char.toUInt8 ++ us)
      ((padded 16 (width + 1) n).map Char.toUInt8 ++ vs) = (compare m n).then (compare us vs) := by
  have same : ((padded 16 (width + 1) m).map Char.toUInt8).length =
      ((padded 16 (width + 1) n).map Char.toUInt8).length := by
    rw [List.length_map, List.length_map, paddedLength fits, paddedLength fits']
  rw [compareAppend same, comparePadded fits fits']

end

end Radix

namespace Revision

theorem compareParts (a b : Revision) : compare a b =
    (compare a.timestamp.toNat b.timestamp.toNat).then
      ((compare a.origin.toNat b.origin.toNat).then
        (compare a.sequence.toNat b.sequence.toNat)) := by
  change (compare a.timestamp b.timestamp).then
    ((compare a.origin b.origin).then (compare a.sequence b.sequence)) = _
  simp only [compare, compareOfLessAndEq, UInt64.lt_iff_toNat_lt, UInt16.lt_iff_toNat_lt,
    UInt32.lt_iff_toNat_lt, ← UInt64.toNat_inj, ← UInt16.toNat_inj, ← UInt32.toNat_inj]

theorem charsAscii (r : Revision) : ∀ c ∈ r.chars, c.toNat < 128 := by
  have ascii := fun width n =>
    @Radix.paddedDigit (fun c => c.toNat < 128) 16 (by decide) (by decide) width n
  have dash : '-'.toNat < 128 := by decide
  simp only [chars, List.forall_mem_append, List.forall_mem_cons]
  exact ⟨⟨ascii 12 _, dash, ascii 4 _⟩, dash, ascii 8 _⟩

theorem textOrder {a b : Revision} (early : a.timestamp.toNat < 2 ^ 48)
    (early' : b.timestamp.toNat < 2 ^ 48) :
    compare (bytes a.text) (bytes b.text) = compare a b := by
  have timestamps := @Radix.compareField _ _ 11 early early'
  have origins := @Radix.compareField _ _ 3 a.origin.toNat_lt b.origin.toNat_lt
  have sequences := @Radix.comparePadded _ _ 7 a.sequence.toNat_lt b.sequence.toNat_lt
  have dash : compare '-'.toUInt8 '-'.toUInt8 = .eq := by decide
  rw [text, text, bytesAscii a.charsAscii, bytesAscii b.charsAscii, chars, chars]
  simp only [List.map_append, List.map_cons, List.append_assoc, List.cons_append]
  rw [timestamps, List.compare_cons_cons, dash, Ordering.eq_then, origins, List.compare_cons_cons,
    dash, Ordering.eq_then, sequences, compareParts]

theorem textsOrdered : (∀ a b : Revision, a.timestamp.toNat < 2 ^ 48 → b.timestamp.toNat < 2 ^ 48 →
      compare a b = compare (bytes a.text) (bytes b.text)) ∧
    ∀ rs : List Revision, (∀ r ∈ rs, r.timestamp.toNat < 2 ^ 48) →
      (rs.mergeSort fun a b => (compare a b).isLE).map text =
        (rs.map text).mergeSort fun s t => (compare (bytes s) (bytes t)).isLE := by
  refine ⟨fun a b early early' => (textOrder early early').symm, fun rs early => ?_⟩
  refine List.map_mergeSort fun a member b member' => ?_
  rw [textOrder (early a member) (early b member')]

/-- Past twelve digits a timestamp makes a longer text, and the orders part. -/
example : compare (⟨0xffffffffffff, 0, 0⟩ : Revision) ⟨0x1000000000000, 0, 0⟩ = .lt ∧
    compare (bytes (text ⟨0xffffffffffff, 0, 0⟩)) (bytes (text ⟨0x1000000000000, 0, 0⟩)) = .gt := by
  decide +kernel

def scattered : List Revision := [⟨0xffffffffffff, 0, 0⟩, ⟨10, 0, 10⟩, ⟨10, 0, 9⟩]

theorem scatteredOrdered : (∀ r ∈ scattered, r.timestamp.toNat < 2 ^ 48) ∧
    compare (bytes "00000000000a-0000-0000000a") (bytes "00000000000a-0000-00000009") = .gt ∧
    ((scattered.map text).mergeSort fun s t => (compare (bytes s) (bytes t)).isLE) =
      ["00000000000a-0000-00000009", "00000000000a-0000-0000000a",
        "ffffffffffff-0000-00000000"] := by
  have early : ∀ r ∈ scattered, r.timestamp.toNat < 2 ^ 48 := by decide
  have first : compare (⟨0xffffffffffff, 0, 0⟩ : Revision) ⟨10, 0, 10⟩ = .gt := by decide
  have last : compare (⟨10, 0, 10⟩ : Revision) ⟨10, 0, 9⟩ = .gt := by decide
  have sorted : (scattered.mergeSort fun a b => (compare a b).isLE) =
      [⟨10, 0, 9⟩, ⟨10, 0, 10⟩, ⟨0xffffffffffff, 0, 0⟩] := by
    simp [scattered, List.mergeSort, first, last]
  have nine : text ⟨10, 0, 9⟩ = "00000000000a-0000-00000009" := by decide +kernel
  have ten : text ⟨10, 0, 10⟩ = "00000000000a-0000-0000000a" := by decide +kernel
  have late : text ⟨0xffffffffffff, 0, 0⟩ = "ffffffffffff-0000-00000000" := by decide +kernel
  refine ⟨early, ?_, ?_⟩
  · rw [← nine, ← ten, ← textsOrdered.1 _ _ (by decide) (by decide), last]
  · rw [← textsOrdered.2 scattered early, sorted, List.map_cons, List.map_cons, List.map_cons, nine,
      ten, late, List.map_nil]

end Revision
end DocHistory
