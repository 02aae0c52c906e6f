import DocHistory.Proofs.DocumentLeaves
import DocHistory.Proofs.PathForks

/-! Documents that have the same leaves but for nulls before the end of an array. Such a null stands
before a leaf that both documents have, so both have an array there that reaches it, and neither has
anything else in that place: the documents are alike. -/
namespace DocHistory

namespace Json

theorem valueAppend (d : Json) (p q : List Segment) :
    d.valueAt? (p ++ q) = (d.valueAt? p).bind fun a => a.valueAt? q := by
  induction p generalizing d with
  | nil => rfl
  | cons step p ih =>
    rw [List.cons_append, valueAt?, valueAt?, Option.bind_assoc]
    exact congrArg _ (funext fun a => ih a)

theorem followedInside {d a : Json} {p q : List Segment} (there : d.valueAt? p = some a)
    (filled : q ≠ []) : d.Followed (p ++ q) ↔ a.Followed q := by
  induction p generalizing d with
  | nil =>
    cases there
    rfl
  | cons step p ih =>
    obtain ⟨b, found, rest⟩ := Option.bind_eq_some_iff.1 there
    rw [← ih rest]
    constructor
    · generalize same : (step :: p) ++ q = steps
      rintro (_ | ⟨found', below⟩)
      · exact absurd (List.append_eq_nil_iff.1 (List.cons.inj same).2).2 filled
      · cases same
        cases found.symm.trans found'
        exact below
    · exact .inside found

theorem unfollowedStep {d a : Json} {step : Segment} {p : List Segment}
    (found : d.child? step = some a) (below : ¬ a.Followed p)
    (last : ∀ i j, step = .index i → i < j → d.child? (.index j) = none) :
    ¬ d.Followed (step :: p) := by
  rintro (⟨less, later⟩ | ⟨found', rest⟩)
  · rw [last _ _ rfl less] at later
    cases later
  · cases found.symm.trans found'
    exact below rest

theorem lastItem {d : Json} {i : UInt64} (there : (d.child? (.index i)).isSome = true) :
    ∃ k a, i ≤ k ∧ d.child? (.index k) = some a ∧ ∀ j, k < j → d.child? (.index j) = none := by
  by_cases more : ∃ j, i < j ∧ (d.child? (.index j)).isSome = true
  · obtain ⟨j, less, later⟩ := more
    obtain ⟨k, a, after, found⟩ := lastItem later
    exact ⟨k, a, UInt64.le_trans (UInt64.le_of_lt less) after, found⟩
  · obtain ⟨a, found⟩ := Option.isSome_iff_exists.1 there
    refine ⟨i, a, UInt64.le_refl i, found, fun j less => ?_⟩
    exact Option.not_isSome_iff_eq_none.1 fun later => more ⟨j, less, later⟩
termination_by UInt64.size - i.toNat
decreasing_by
  have less := UInt64.lt_iff_toNat_lt.1 less
  have bound := j.toNat_lt
  simp only [UInt64.size]
  omega

theorem lastLeaf {d : Json} {i : UInt64} (there : (d.child? (.index i)).isSome = true)
    (below : ∀ step a, d.child? step = some a →
      ∃ p b, a.valueAt? p = some b ∧ b.Bare ∧ ¬ a.Followed p) :
    ∃ k p b, i ≤ k ∧ d.valueAt? (.index k :: p) = some b ∧ b.Bare ∧
      ¬ d.Followed (.index k :: p) := by
  obtain ⟨k, a, after, found, last⟩ := lastItem there
  obtain ⟨p, b, reached, bare, final⟩ := below _ a found
  refine ⟨k, p, b, after, ?_, bare, unfollowedStep found final ?_⟩
  · rw [valueAt?, found]
    exact reached
  · rintro _ j ⟨⟩ less
    exact last j less

theorem endLeaf (d : Json) : ∃ p a, d.valueAt? p = some a ∧ a.Bare ∧ ¬ d.Followed p := by
  induction d using Json.induct with
  | step d ih =>
    by_cases bare : d.Bare
    · refine ⟨[], d, rfl, bare, ?_⟩
      rintro ⟨⟩
    · cases d with
      | array items =>
        cases items with
        | nil => exact absurd ⟨rfl, rfl⟩ bare
        | cons a as =>
          obtain ⟨k, p, b, _, leaf⟩ := lastLeaf (d := array (a :: as)) (i := 0) rfl ih
          exact ⟨_, b, leaf⟩
      | object members =>
        cases members with
        | nil => exact absurd ⟨rfl, rfl⟩ bare
        | cons m ms =>
          have found : (object (m :: ms)).child? (.key m.1) = some m.2 := by
            simp [child?, Entries.get?, Std.ReflCmp.compare_self]
          obtain ⟨p, b, reached, leaf, last⟩ := ih _ _ found
          refine ⟨.key m.1 :: p, b, ?_, leaf, unfollowedStep found last ?_⟩
          · rw [valueAt?, found]
            exact reached
          · rintro _ _ ⟨⟩
      | _ => exact absurd ⟨rfl, rfl⟩ bare

theorem Followed.last {d : Json} {p : List Segment} (followed : d.Followed p) :
    ∃ r i k q a, p = r ++ [.index i] ∧ i < k ∧ d.valueAt? (r ++ .index k :: q) = some a ∧
      a.Bare ∧ ¬ d.Followed (r ++ .index k :: q) := by
  induction followed with
  | @here d i j less later =>
    obtain ⟨k, q, a, after, leaf⟩ := lastLeaf later fun _ a _ => a.endLeaf
    exact ⟨[], i, k, q, a, rfl, UInt64.lt_of_lt_of_le less after, leaf⟩
  | @inside d b step p found _ ih =>
    obtain ⟨r, i, k, q, a, rfl, less, reached, bare, last⟩ := ih
    have there : d.valueAt? [step] = some b := by
      rw [valueAt?, found]
      rfl
    refine ⟨step :: r, i, k, q, a, rfl, less, ?_, bare, fun followed => last ?_⟩
    · rw [List.cons_append, valueAt?, found]
      exact reached
    · exact (followedInside there (by simp)).1 followed

theorem earlierItem {d : Json} {r q : List Segment} {i k : UInt64} (less : i < k) {a : Json}
    (reached : d.valueAt? (r ++ .index k :: q) = some a) :
    ∃ b, d.valueAt? (r ++ [.index i]) = some b := by
  rw [valueAppend] at reached
  obtain ⟨b, there, rest⟩ := Option.bind_eq_some_iff.1 reached
  obtain ⟨c, found, _⟩ := Option.bind_eq_some_iff.1 rest
  have inside : k.toNat < b.itemsOrNone.length := (List.getElem?_eq_some_iff.1 found).1
  have before : i.toNat < k.toNat := UInt64.lt_iff_toNat_lt.1 less
  have item : b.child? (.index i) = some b.itemsOrNone[i.toNat] := List.getElem?_eq_getElem _
  refine ⟨b.itemsOrNone[i.toNat], ?_⟩
  rw [valueAppend, there, Option.bind_some, valueAt?, item]
  rfl

/-- The document has all leaves of the other one, but for nulls before the end of an array. -/
def Covers (d e : Json) : Prop := ∀ p a, e.valueAt? p = some a → a.Bare →
  (∃ b, d.valueAt? p = some b ∧ (b == a) = true) ∨ a = null ∧ e.Followed p

/-- A null before the end of an array is before a leaf that both documents have, and neither has
anything else there. -/
theorem Covers.agree {d e : Json} (first : e.Covers d) (second : d.Covers e) {p : List Segment}
    {a : Json} (there : d.valueAt? p = some a) (bare : a.Bare) :
    ∃ b, e.valueAt? p = some b ∧ (b == a) = true := by
  rcases first p a there bare with same | ⟨rfl, followed⟩
  · exact same
  · obtain ⟨r, i, k, q, b, rfl, less, reached, leaf, last⟩ := followed.last
    obtain ⟨c, found, _⟩ :=
      (first _ b reached leaf).resolve_right fun hollow => last hollow.2
    obtain ⟨x, item⟩ := earlierItem less found
    refine ⟨x, item, ?_⟩
    obtain ⟨s, y, inside, own, final⟩ := x.endLeaf
    have whole : e.valueAt? (r ++ [.index i] ++ s) = some y := by
      rw [valueAppend, item]
      exact inside
    have outer : d.valueAt? (r ++ [.index i] ++ s) = null.valueAt? s := by
      rw [valueAppend, there]
      rfl
    rcases second _ y whole own with ⟨z, stands, same⟩ | ⟨rfl, followed⟩
    · rw [outer] at stands
      cases s with
      | nil =>
        cases inside
        cases stands
        exact PartialEquivBEq.symm same
      | cons step s =>
        rw [nullValue (List.cons_ne_nil _ _)] at stands
        cases stands
    · cases s with
      | nil =>
        cases inside
        exact BEq.rfl
      | cons step s => exact absurd ((followedInside item (List.cons_ne_nil _ _)).1 followed) final

/-- An item beyond the limit of the other document would be a leaf that it lacks, or before one. -/
theorem Covers.addressed {d e : Json} (covers : e.Covers d) (short : e.Short) : d.Addressed := by
  intro steps a there
  refine Nat.le_of_not_lt fun long => ?_
  have inside : (a.child? (.index (.ofNat (UInt64.size - 1)))).isSome = true := by
    refine Option.isSome_of_eq_some (List.getElem?_eq_getElem (Nat.lt_of_le_of_lt ?_ long))
    decide
  obtain ⟨k, p, b, after, reached, bare, last⟩ := lastLeaf inside fun _ c _ => c.endLeaf
  have whole : d.valueAt? (steps ++ .index k :: p) = some b := by
    rw [valueAppend, there]
    exact reached
  obtain ⟨c, found, _⟩ := (covers _ b whole bare).resolve_right fun hollow =>
    last ((followedInside there (List.cons_ne_nil _ _)).1 hollow.2)
  rw [valueAppend] at found
  obtain ⟨x, stands, rest⟩ := Option.bind_eq_some_iff.1 found
  obtain ⟨y, item, _⟩ := Option.bind_eq_some_iff.1 rest
  have few : x.itemsOrNone.length ≤ maxItems := (itemsShort (short.below stands)).1
  have room : k.toNat < x.itemsOrNone.length := (List.getElem?_eq_some_iff.1 item).1
  have high : UInt64.size - 1 ≤ k.toNat := UInt64.le_iff_toNat_le.1 after
  have limit : maxItems < UInt64.size := by decide
  omega

theorem Covers.unsignedListed {d e : Json} (first : e.Covers d) (second : d.Covers e)
    (orderedD : d.Ordered) (orderedE : e.Ordered) (addressedD : d.Addressed)
    (addressedE : e.Addressed) {x : List Segment × Json} (listed : x ∈ d.unsignedZeros.outline) :
    x ∈ e.unsignedZeros.outline := by
  have leads := outlineLeads _ x listed
  have there := leafValue (unsignedOrdered d orderedD) addressedD.unsigned listed
  rw [valueUnsigned, Option.map_eq_some_iff] at there
  obtain ⟨a, own, same⟩ := there
  have bare : a.Bare := bareUnsigned.1 (same ▸ leads.bare)
  obtain ⟨b, stands, alike⟩ := first.agree second own bare
  refine leafListed (unsignedOrdered e orderedE) addressedE.unsigned leads ?_
  rw [valueUnsigned, stands, Option.map_some, beqIff.1 alike, same]

theorem Covers.alike {d e : Value} (first : e.json.Covers d.json) (second : d.json.Covers e.json)
    (short : e.json.Short) : (d == e) = true := by
  have addressed := first.addressed short
  refine beqIff.2 (outlineEq (unsignedOrdered _ d.ordered) (unsignedOrdered _ e.ordered)
    addressed.unsigned short.addressed.unsigned fun x => ⟨?_, ?_⟩)
  · exact first.unsignedListed second d.ordered e.ordered addressed short.addressed
  · exact second.unsignedListed first e.ordered d.ordered short.addressed addressed

end Json
end DocHistory
