import DocHistory.Proofs.BareNodes
import DocHistory.Proofs.FlatDocument

/-! Documents and properties that differ at most in the sign of zeros. Like documents have like
properties, and like properties assemble to like documents; so documents in good form are alike
exactly if their properties are. -/
namespace DocHistory

namespace Json

theorem unsignedItemsMap (items : List Json) : unsignedItems items = items.map unsignedZeros := by
  induction items with
  | nil => rfl
  | cons a as ih => rw [unsignedItems, ih, List.map_cons]

theorem unsignedMembersMap (members : List (String × Json)) :
    unsignedMembers members = members.map fun m => (m.1, m.2.unsignedZeros) := by
  induction members with
  | nil => rfl
  | cons m ms ih => rw [unsignedMembers, ih, List.map_cons]

theorem itemsUnsigned (d : Json) : d.unsignedZeros.itemsOrNone = d.itemsOrNone.map unsignedZeros := by
  cases d <;> simp [unsignedZeros, itemsOrNone, unsignedItemsMap]

theorem membersUnsigned (d : Json) : d.unsignedZeros.membersOrNone =
    d.membersOrNone.map fun m => (m.1, m.2.unsignedZeros) := by
  cases d <;> simp [unsignedZeros, membersOrNone, unsignedMembersMap]

theorem childUnsigned (d : Json) (step : Segment) :
    d.unsignedZeros.child? step = (d.child? step).map unsignedZeros := by
  cases step with
  | index i => rw [child?, itemsUnsigned, List.getElem?_map, child?]
  | _ name => simp only [child?, membersUnsigned, Entries.getMap]

theorem setChildUnsigned (d a : Json) (step : Segment) :
    d.unsignedZeros.setChild a.unsignedZeros step = (d.setChild a step).unsignedZeros := by
  cases step with
  | index i =>
    simp [setChild, itemsUnsigned, unsignedZeros, unsignedItemsMap, List.map_set]
  | _ name =>
    simp only [setChild, membersUnsigned, unsignedZeros, unsignedMembersMap, Entries.insertMap]

theorem placeUnsigned (a : Json) (steps : List Segment) (d : Json) :
    place a.unsignedZeros steps d.unsignedZeros = (place a steps d).unsignedZeros := by
  induction steps generalizing d with
  | nil => rfl
  | cons step steps ih =>
    have below : d.unsignedZeros.child step = (d.child step).unsignedZeros := by
      rw [child, childUnsigned, child]
      cases d.child? step <;> rfl
    rw [place, place, below, ih, setChildUnsigned]

theorem buildUnsigned (leaves : List (List Segment × Json)) (d : Json) :
    d.unsignedZeros.build (leaves.map fun leaf => (leaf.1, leaf.2.unsignedZeros)) =
      (d.build leaves).unsignedZeros := by
  induction leaves generalizing d with
  | nil => rfl
  | cons leaf leaves ih =>
    rw [build, List.map_cons, List.foldl_cons, placeUnsigned]
    exact ih _

theorem membersAscendUnsigned {members : List (String × Json)} (ascending : Entries.Ascending members) :
    Entries.Ascending (unsignedMembers members) := by
  rw [unsignedMembersMap]
  exact List.pairwise_map.2 ascending

mutual

theorem unsignedOrdered : (d : Json) → d.Ordered → d.unsignedZeros.Ordered
  | array items, ordered => itemsOrderedUnsigned items ordered
  | object members, ordered =>
    ⟨membersAscendUnsigned ordered.1, membersOrderedUnsigned members ordered.2⟩
  | null, _ => trivial
  | bool _, _ => trivial
  | number _, _ => trivial
  | string _, _ => trivial

theorem itemsOrderedUnsigned : (items : List Json) → OrderedItems items →
    OrderedItems (unsignedItems items)
  | [], _ => trivial
  | a :: as, ordered => ⟨unsignedOrdered a ordered.1, itemsOrderedUnsigned as ordered.2⟩

theorem membersOrderedUnsigned : (members : List (String × Json)) → OrderedMembers members →
    OrderedMembers (unsignedMembers members)
  | [], _ => trivial
  | (_, a) :: ms, ordered => ⟨unsignedOrdered a ordered.1, membersOrderedUnsigned ms ordered.2⟩

end

end Json

def Value.unsigned (a : Value) : Value :=
  ⟨a.json.unsignedZeros, Json.unsignedOrdered a.json a.ordered⟩

theorem Value.beqIff {a b : Value} : (a == b) = true ↔ a.unsigned = b.unsigned :=
  Json.beqIff.trans (Value.ext_iff (x := a.unsigned) (y := b.unsigned)).symm

theorem listAlike {α β : Type} [BEq α] {f : α → β} (same : ∀ a b : α, (a == b) = true ↔ f a = f b)
    (as bs : List α) : (as == bs) = true ↔ as.map f = bs.map f := by
  induction as generalizing bs with
  | nil => cases bs <;> simp
  | cons a as ih => cases bs <;> simp [same, ih]

theorem optionAlike {α β : Type} [BEq α] {f : α → β}
    (same : ∀ a b : α, (a == b) = true ↔ f a = f b) {a b : Option α} :
    (a == b) = true ↔ a.map f = b.map f := by
  cases a <;> cases b <;> simp [same]

theorem valueAlike {a b : Option Value} :
    (a == b) = true ↔ a.map Value.unsigned = b.map Value.unsigned :=
  optionAlike fun _ _ => Value.beqIff

instance : EquivBEq (Option Value) where
  rfl := valueAlike.2 rfl
  symm same := valueAlike.2 (valueAlike.1 same).symm
  trans first rest := valueAlike.2 ((valueAlike.1 first).trans (valueAlike.1 rest))

namespace Properties

def unsigned (m : Properties) : Properties := m.filterMap fun _ a => some a.unsigned

theorem unsignedGet (m : Properties) (path : Path) :
    m.unsigned.get? path = (m.get? path).map Value.unsigned := SortedMap.mapGet _ _ _

theorem alikeIff {m n : Properties} : (m == n) = true ↔ m.unsigned = n.unsigned := by
  have entry : ∀ a b : Path × Value, (a == b) = true ↔ (a.1, a.2.unsigned) = (b.1, b.2.unsigned) := by
    intro a b
    rw [Prod.mk.injEq, ← Value.beqIff, ← beq_iff_eq (a := a.1), ← Bool.and_eq_true]
    rfl
  have entries := listAlike entry m.entries n.entries
  rw [← SortedMap.mapEntries, ← SortedMap.mapEntries] at entries
  refine entries.trans ⟨fun same => ?_, congrArg _⟩
  apply SortedMap.extGet
  intro path
  exact congrArg (Entries.get? path) same

instance : EquivBEq Properties where
  rfl := alikeIff.2 rfl
  symm same := alikeIff.2 (alikeIff.1 same).symm
  trans first rest := alikeIff.2 ((alikeIff.1 first).trans (alikeIff.1 rest))

theorem alikeAt {m n : Properties} :
    (m == n) = true ↔ ∀ path, (m.get? path == n.get? path) = true := by
  simp only [alikeIff, valueAlike, ← unsignedGet]
  exact ⟨fun same path => same ▸ rfl, SortedMap.extGet⟩

theorem builtUnsigned (m : Properties) : m.unsigned.built = m.built.unsigned := by
  refine Value.ext ?_
  change _ = m.built.json.unsignedZeros
  rw [builtJson, builtJson, ← Json.buildUnsigned, unsigned, SortedMap.mapEntries,
    List.map_map, List.map_map]
  rfl

theorem assembleUnsigned {m : Properties} {d : Value} :
    m.unsigned.assemble = .ok d ↔ ∃ d', m.assemble = .ok d' ∧ d'.unsigned = d := by
  have sized : (∀ e ∈ m.unsigned.entries, e.1.oversized? = none) ↔
      ∀ e ∈ m.entries, e.1.oversized? = none := by
    rw [unsigned, SortedMap.mapEntries]
    exact List.forall_mem_map
  simp only [assembleOk, builtUnsigned, sized, and_assoc, exists_and_left, exists_eq_left']

theorem assembleAlike {m n : Properties} (same : (m == n) = true) {d : Value}
    (read : n.assemble = .ok d) : ∃ d', m.assemble = .ok d' ∧ (d' == d) = true := by
  have both := assembleUnsigned.2 ⟨d, read, rfl⟩
  rw [← alikeIff.1 same] at both
  obtain ⟨d', done, alike⟩ := assembleUnsigned.1 both
  exact ⟨d', done, Value.beqIff.2 alike⟩

end Properties

namespace Json

mutual

theorem leavesUnsigned : (d : Json) →
    d.unsignedZeros.leaves = d.leaves.map fun leaf => (leaf.1, leaf.2.unsigned)
  | array (a :: as) => itemLeavesUnsigned 0 (a :: as)
  | object (m :: ms) => memberLeavesUnsigned (m :: ms)
  | array [] => rfl
  | object [] => rfl
  | null => rfl
  | bool _ => rfl
  | number _ => rfl
  | string _ => rfl

theorem itemLeavesUnsigned (position : Nat) : (items : List Json) →
    leavesOfItems position (unsignedItems items) =
      (leavesOfItems position items).map fun leaf => (leaf.1, leaf.2.unsigned)
  | [] => rfl
  | a :: as => by
    rw [unsignedItems, leavesOfItems, leavesOfItems, leavesUnsigned, itemLeavesUnsigned,
      List.map_append, List.map_map, List.map_map]
    rfl

theorem memberLeavesUnsigned : (members : List (String × Json)) →
    leavesOfMembers (unsignedMembers members) =
      (leavesOfMembers members).map fun leaf => (leaf.1, leaf.2.unsigned)
  | [] => rfl
  | (name, a) :: ms => by
    rw [unsignedMembers, leavesOfMembers, leavesOfMembers, leavesUnsigned, memberLeavesUnsigned,
      List.map_append, List.map_map, List.map_map]
    rfl

end

end Json

namespace Value

theorem flattenUnsigned (d : Value) : d.unsigned.flatten = d.flatten.unsigned := by
  have null : d.unsigned.isNull = d.isNull := by
    obtain ⟨d, _⟩ := d
    cases d <;> rfl
  rw [flatten, flatten, null]
  split
  · rfl
  · apply SortedMap.extGet
    intro path
    rw [Properties.unsignedGet, unsigned, Json.leavesUnsigned, List.map_map]
    have mapped := Entries.ofListMap unsigned
      (d.json.leaves.map fun leaf => ((⟨leaf.1⟩ : Path), leaf.2))
    rw [List.map_map] at mapped
    refine (congrArg (Entries.get? path) mapped).trans ?_
    rw [Entries.getMap]
    rfl

theorem flattenAlike {a b : Value} (same : (a == b) = true) :
    (a.flatten == b.flatten) = true := by
  rw [Properties.alikeIff, ← flattenUnsigned, ← flattenUnsigned, beqIff.1 same]

theorem shortAlike {a b : Value} (same : (a.flatten == b.flatten) = true) (short : b.json.Short) :
    a.json.Short := by
  cases null : a.isNull with
  | true =>
    rw [nullOf null]
    trivial
  | false =>
    refine Json.shortOfFits a.json fun e listed => ?_
    have both := Properties.alikeAt.1 same ⟨e.1⟩
    obtain ⟨v, held⟩ := SortedMap.containsIff.1 (flattenHolds null listed)
    rw [held] at both
    cases found : b.flatten.get? ⟨e.1⟩ with
    | none =>
      rw [found] at both
      cases both
    | some w => exact Json.outlineFits b.json short (e.1, w.json) (flattenFound found).2

theorem alikeOfFlatten {a b : Value} (short : b.json.Short)
    (same : (a.flatten == b.flatten) = true) : (a == b) = true := by
  have read := flattenAssembles short
  obtain ⟨d, done, alike⟩ := Properties.assembleAlike same read
  rw [flattenAssembles (shortAlike same short)] at done
  cases done
  exact alike

end Value
end DocHistory
