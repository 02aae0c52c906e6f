import DocHistory.Proofs.DocumentLikeness

/-! What the changes between two documents make of properties. They write each leaf of the next
document that the previous one does not show, and delete each that it alone shows. Properties that
hold what the previous document shows turn into those of the next one. -/
namespace DocHistory

namespace Value

theorem changesGet (previous next : Value) (path : Path) : (previous.changes next).get? path =
    if previous.flatten.get? path == next.flatten.get? path then none
    else some (next.flatten.get? path) := by
  rw [changes, SortedMap.getUnion, SortedMap.getFilterMap, SortedMap.getFilterMap]
  cases written : next.flatten.get? path with
  | some value =>
    cases previous.flatten.get? path with
    | none => simp
    | some before => cases same : before == value <;> simp [SortedMap.contains, written, same]
  | none => cases previous.flatten.get? path <;> simp [SortedMap.contains, written]

theorem changesEmpty {previous next : Value} :
    (previous.changes next).isEmpty = true ↔ (previous.flatten == next.flatten) = true := by
  rw [SortedMap.emptyIff, Properties.alikeAt]
  refine forall_congr' fun path => ?_
  rw [changesGet]
  split <;> simp [*]

theorem changesSame (d : Value) : (d.changes d).isEmpty = true :=
  changesEmpty.2 BEq.rfl

theorem changesNull {d : Value} (quiet : (d.changes .null).isEmpty = true) : d = .null := by
  have same := changesEmpty.1 quiet
  have absent : d.flatten.isEmpty = true := by
    refine SortedMap.emptyIff.2 fun path => ?_
    have found := Properties.alikeAt.1 same path
    cases held : d.flatten.get? path with
    | none => rfl
    | some a =>
      rw [held] at found
      cases found
  rw [flattenEmpty] at absent
  exact nullOf absent

theorem changesNone {previous next : Value} (short : next.json.Short) :
    (previous.changes next).isEmpty = true ↔ (previous == next) = true :=
  changesEmpty.trans ⟨alikeOfFlatten short, flattenAlike⟩

end Value

namespace Properties

theorem applyGet (m : Properties) (changes : Changeset) (path : Path) :
    (m.apply changes).get? path = match changes.get? path with
      | some written => written
      | none => m.get? path := by
  refine (Entries.foldAt (fun m : Properties => m.get? path) (fun written _ => written) path
    (fun change _ m => ?_) changes.ascending m).trans ?_
  · obtain ⟨k, written⟩ := change
    cases written with
    | none => exact m.getErase k path
    | some value => exact m.getInsert k path value
  · change ((changes.get? path).elim _ _) = _
    cases changes.get? path <;> rfl

theorem changesLead {m : Properties} {previous : Value} (shown : (m == previous.flatten) = true)
    (next : Value) : (m.apply (previous.changes next) == next.flatten) = true := by
  refine alikeAt.2 fun path => ?_
  rw [applyGet, Value.changesGet]
  by_cases same : (previous.flatten.get? path == next.flatten.get? path) = true
  · rw [if_pos same]
    exact PartialEquivBEq.trans (alikeAt.1 shown path) same
  · rw [if_neg same]
    exact BEq.rfl

end Properties
end DocHistory
