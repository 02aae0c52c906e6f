import DocHistory.Proofs.IdentifierText

/-! Spellings of revisions: three numerals in base sixteen between two dashes, with digits of either
case, any number of zeros in front and perhaps a plus sign. Reading accepts the spellings of numbers
that fit their fields and nothing else, each for the revision of its numbers. -/
namespace DocHistory

namespace Radix

def Hex (c : Char) (d : Nat) : Prop :=
  "0123456789abcdef".toList[d]? = some c ∨ "0123456789ABCDEF".toList[d]? = some c

inductive Hexadecimal : List Char → Nat → Prop where
  | digit {c : Char} {d : Nat} (only : Hex c d) : Hexadecimal [c] d
  | next {cs : List Char} {n : Nat} (front : Hexadecimal cs n) {c : Char} {d : Nat}
      (last : Hex c d) : Hexadecimal (cs ++ [c]) (n * 16 + d)

theorem hexFound {c : Char} {d : Nat} (hex : Hex c d) : digit? 16 c = some d := by
  have lower : ∀ d < 16, ("0123456789abcdef".toList[d]?).bind (digit? 16) = some d := by decide
  have capital : ∀ d < 16, ("0123456789ABCDEF".toList[d]?).bind (digit? 16) = some d := by decide
  rcases hex with listed | listed
  · have found := lower d (List.getElem?_eq_some_iff.1 listed).1
    rwa [listed] at found
  · have found := capital d (List.getElem?_eq_some_iff.1 listed).1
    rwa [listed] at found

theorem foundHex {c : Char} {d : Nat} (found : digit? 16 c = some d) : Hex c d := by
  have figure : ∀ d < 10, "0123456789abcdef".toList[d]? = some (Char.ofNat (48 + d)) := by decide
  have lower : ∀ d < 16, 10 ≤ d →
      "0123456789abcdef".toList[d]? = some (Char.ofNat (87 + d)) := by decide
  have capital : ∀ d < 16, 10 ≤ d →
      "0123456789ABCDEF".toList[d]? = some (Char.ofNat (55 + d)) := by decide
  have back : ∀ k, k ≤ c.toNat → Char.ofNat (k + (c.toNat - k)) = c := fun k low => by
    rw [Nat.add_sub_cancel' low, Char.ofNat_toNat]
  obtain ⟨value, small⟩ := Option.filter_eq_some_iff.1 found
  have below : d < 16 := of_decide_eq_true small
  split at value
  · rename_i range
    obtain rfl := Option.some.inj value
    have low : 48 ≤ c.toNat := range.1
    have high : c.toNat ≤ 57 := range.2
    exact .inl ((figure _ (by omega)).trans (congrArg some (back 48 low)))
  · split at value
    · rename_i range
      obtain rfl := Option.some.inj value
      have low : 97 ≤ c.toNat := range.1
      exact .inl ((lower _ below (by omega)).trans (congrArg some (back 87 (by omega))))
    · split at value
      · rename_i range
        obtain rfl := Option.some.inj value
        have low : 65 ≤ c.toNat := range.1
        exact .inr ((capital _ below (by omega)).trans (congrArg some (back 55 (by omega))))
      · cases value

theorem hexRead {cs : List Char} {n : Nat} (spelled : Hexadecimal cs n) :
    read? 16 cs = some n := by
  have digits : ∃ ds, cs.mapM (digit? 16) = some ds ∧ value 16 ds = n := by
    induction spelled with
    | @digit c d only => exact ⟨[d], by simp [hexFound only], by simp [value]⟩
    | @next cs n front c d last ih =>
      obtain ⟨ds, found, rfl⟩ := ih
      exact ⟨ds ++ [d], by simp [found, hexFound last], valueAppend 16 ds d⟩
  have nonempty : cs ≠ [] := by cases spelled <;> simp
  obtain ⟨ds, found, rfl⟩ := digits
  rw [read?, if_neg (by simpa using nonempty), found]
  rfl

theorem digitsHex {cs : List Char} {ds : List Nat} (found : cs.mapM (digit? 16) = some ds)
    (nonempty : cs ≠ []) : Hexadecimal cs (value 16 ds) := by
  induction cs using List.reverseRecOn generalizing ds with
  | nil => exact absurd rfl nonempty
  | append_singleton cs c ih =>
    rw [List.mapM_append] at found
    obtain ⟨front, early, rest⟩ := Option.bind_eq_some_iff.1 found
    obtain ⟨last, late, joined⟩ := Option.bind_eq_some_iff.1 rest
    obtain ⟨d, digit, ends⟩ := Option.bind_eq_some_iff.1 late
    cases ends
    cases joined
    rw [List.reverse_singleton, valueAppend]
    cases cs with
    | nil =>
      cases early
      simpa [value] using Hexadecimal.digit (foundHex digit)
    | cons b cs => exact .next (ih early (List.cons_ne_nil b cs)) (foundHex digit)

theorem readHex {cs : List Char} {n : Nat} : read? 16 cs = some n ↔ Hexadecimal cs n := by
  refine ⟨fun read => ?_, hexRead⟩
  rw [read?] at read
  split at read
  · cases read
  · rename_i filled
    obtain ⟨ds, found, rfl⟩ := Option.map_eq_some_iff.1 read
    exact digitsHex found (by simpa using filled)

theorem hexUnsigned {cs : List Char} {n : Nat} (spelled : Hexadecimal cs n) :
    ∀ c ∈ cs, c ≠ '-' ∧ c ≠ '+' := by
  have digit : ∀ {c d}, Hex c d → c ≠ '-' ∧ c ≠ '+' := by
    intro c d hex
    have found := hexFound hex
    constructor <;> rintro rfl <;> cases found
  induction spelled with
  | digit only => exact List.forall_mem_singleton.2 (digit only)
  | next front last ih =>
    exact List.forall_mem_append.2 ⟨ih, List.forall_mem_singleton.2 (digit last)⟩

end Radix

namespace Revision
open Radix

inductive Field : List Char → Nat → Prop where
  | plain {cs : List Char} {n : Nat} (digits : Hexadecimal cs n) : Field cs n
  | signed {cs : List Char} {n : Nat} (digits : Hexadecimal cs n) : Field ('+' :: cs) n

structure Spells (s : String) (timestamp origin sequence : Nat) : Prop where
  dashes : s.toList.count '-' = 2
  fields : ∃ t o n, s.toList = t ++ '-' :: (o ++ '-' :: n) ∧
    Field t timestamp ∧ Field o origin ∧ Field n sequence
  fits : timestamp < 2 ^ 64 ∧ origin < 2 ^ 16 ∧ sequence < 2 ^ 32

theorem fieldRead {bound n : Nat} {cs : List Char} :
    field? bound cs = some n ↔ Field cs n ∧ n < bound := by
  have numeral : ∀ digits, (read? 16 digits).filter (· < bound) = some n ↔
      Hexadecimal digits n ∧ n < bound := by
    intro digits
    rw [Option.filter_eq_some_iff, readHex, decide_eq_true_iff]
  unfold field?
  split
  · rename_i rest
    refine (numeral rest).trans (and_congr_left fun _ => ⟨.signed, fun field => ?_⟩)
    cases field with
    | plain digits => exact absurd rfl (hexUnsigned digits '+' List.mem_cons_self).2
    | signed digits => exact digits
  · rename_i unsigned
    refine (numeral cs).trans (and_congr_left fun _ => ⟨.plain, fun field => ?_⟩)
    cases field with
    | plain digits => exact digits
    | signed digits => exact absurd rfl (unsigned _)

theorem Field.dashless {cs : List Char} {n : Nat} (field : Field cs n) : ∀ c ∈ cs, c ≠ '-' := by
  cases field with
  | plain digits => exact fun c member => (hexUnsigned digits c member).1
  | signed digits =>
    exact List.forall_mem_cons.2 ⟨by decide, fun c member => (hexUnsigned digits c member).1⟩

theorem Field.countDash {cs : List Char} {n : Nat} (field : Field cs n) : cs.count '-' = 0 :=
  List.count_eq_zero.2 fun member => field.dashless '-' member rfl

theorem fieldsCons {cs f : List Char} {fs : List (List Char)} (split : fields cs = f :: fs) :
    fs = [] ∧ cs = f ∨ ∃ rest, cs = f ++ '-' :: rest ∧ fields rest = fs := by
  induction cs generalizing f fs with
  | nil =>
    cases split
    exact .inl ⟨rfl, rfl⟩
  | cons c cs ih =>
    obtain ⟨g, gs, rest⟩ := List.exists_cons_of_ne_nil (fieldsSome cs)
    rw [fields, rest] at split
    dsimp only at split
    split at split
    · rename_i dash
      cases split
      exact .inr ⟨cs, by simp [dash], rest⟩
    · cases split
      rcases ih rest with ⟨rfl, rfl⟩ | ⟨later, rfl, same⟩
      · exact .inl ⟨rfl, rfl⟩
      · exact .inr ⟨later, rfl, same⟩

theorem fieldsThree {cs t o n : List Char} (split : fields cs = [t, o, n]) :
    cs = t ++ '-' :: (o ++ '-' :: n) := by
  obtain ⟨later, rfl, second⟩ := (fieldsCons split).resolve_left (by simp)
  obtain ⟨last, rfl, third⟩ := (fieldsCons second).resolve_left (by simp)
  rcases fieldsCons third with ⟨_, rfl⟩ | ⟨more, rfl, absent⟩
  · rfl
  · exact absurd absent (fieldsSome more)

theorem fieldsRead {cs : List Char} {r : Revision} : ofChars? cs = some r ↔
    ∃ t o n, fields cs = [t, o, n] ∧ field? (2 ^ 64) t = some r.timestamp.toNat ∧
      field? (2 ^ 16) o = some r.origin.toNat ∧ field? (2 ^ 32) n = some r.sequence.toNat := by
  constructor
  · intro read
    unfold ofChars? at read
    split at read
    · rename_i t o n split
      obtain ⟨timestamp, first, read⟩ := Option.bind_eq_some_iff.1 read
      obtain ⟨origin, second, read⟩ := Option.bind_eq_some_iff.1 read
      obtain ⟨sequence, third, same⟩ := Option.bind_eq_some_iff.1 read
      cases same
      have timestampFits := UInt64.toNat_ofNat_of_lt' (fieldRead.1 first).2
      have originFits := UInt16.toNat_ofNat_of_lt' (fieldRead.1 second).2
      have sequenceFits := UInt32.toNat_ofNat_of_lt' (fieldRead.1 third).2
      exact ⟨t, o, n, split, first.trans (congrArg some timestampFits.symm),
        second.trans (congrArg some originFits.symm),
        third.trans (congrArg some sequenceFits.symm)⟩
    · cases read
  · rintro ⟨t, o, n, split, first, second, third⟩
    have read : ofChars? cs = (do
        let timestamp ← field? (2 ^ 64) t
        let origin ← field? (2 ^ 16) o
        let sequence ← field? (2 ^ 32) n
        some ⟨timestamp.toUInt64, origin.toUInt16, sequence.toUInt32⟩) := by
      rw [ofChars?, split]
      rfl
    rw [read, first, second, third]
    simp

theorem spellingRead {s : String} {r : Revision} : ofChars? s.toList = some r ↔
    Spells s r.timestamp.toNat r.origin.toNat r.sequence.toNat := by
  rw [fieldsRead]
  constructor
  · rintro ⟨t, o, n, split, first, second, third⟩
    obtain ⟨timestamp, small⟩ := fieldRead.1 first
    obtain ⟨origin, small'⟩ := fieldRead.1 second
    obtain ⟨sequence, small''⟩ := fieldRead.1 third
    have text := fieldsThree split
    have dashes : s.toList.count '-' = 2 := by
      simp [text, timestamp.countDash, origin.countDash, sequence.countDash]
    exact ⟨dashes, ⟨t, o, n, text, timestamp, origin, sequence⟩, small, small', small''⟩
  · rintro ⟨_, ⟨t, o, n, text, timestamp, origin, sequence⟩, small, small', small''⟩
    have split : fields s.toList = [t, o, n] := by
      rw [text, fieldsNext timestamp.dashless, fieldsNext origin.dashless,
        fieldsLast sequence.dashless]
    exact ⟨t, o, n, split, fieldRead.2 ⟨timestamp, small⟩, fieldRead.2 ⟨origin, small'⟩,
      fieldRead.2 ⟨sequence, small''⟩⟩

theorem Spells.named {s : String} {timestamp origin sequence : Nat}
    (spells : Spells s timestamp origin sequence) :
    ∃ r : Revision, Spells s r.timestamp.toNat r.origin.toNat r.sequence.toNat := by
  obtain ⟨small, small', small''⟩ := spells.fits
  refine ⟨⟨.ofNat timestamp, .ofNat origin, .ofNat sequence⟩, ?_⟩
  rwa [UInt64.toNat_ofNat_of_lt' small, UInt16.toNat_ofNat_of_lt' small',
    UInt32.toNat_ofNat_of_lt' small'']

theorem textsRead : (∀ r : Revision, Revision.ofText r.text = .ok r) ∧ ∀ s : String,
    (∀ r : Revision, Revision.ofText s = .ok r ↔
      Spells s r.timestamp.toNat r.origin.toNat r.sequence.toNat) ∧
    (Revision.ofText s = .error (.revisionText s) ↔
      ∀ timestamp origin sequence, ¬ Spells s timestamp origin sequence) := by
  refine ⟨textRead, fun s => ?_⟩
  unfold Revision.ofText
  cases read : ofChars? s.toList with
  | some r =>
    have spells := spellingRead.1 read
    refine ⟨fun q => ?_, ?_⟩
    · rw [Except.ok.injEq, ← spellingRead, read, Option.some.injEq]
    · exact iff_of_false nofun fun absent => absent _ _ _ spells
  | none =>
    have absent : ∀ timestamp origin sequence, ¬ Spells s timestamp origin sequence := by
      intro timestamp origin sequence spells
      obtain ⟨r, named⟩ := spells.named
      rw [← spellingRead, read] at named
      cases named
    exact ⟨fun q => iff_of_false nofun (absent _ _ _), iff_of_true rfl absent⟩

example : Revision.ofText "+1-0000F-fFfFfFfF" = .ok ⟨1, 15, 0xffffffff⟩ := by decide

end Revision
end DocHistory
