import DocHistory.Proofs.DocumentChanges
import DocHistory.Proofs.DocumentLeaves

/-! The changes between two documents are the least that lead from the properties of one to those of
the other: they stand at the paths where the two differ and nowhere else, and none of them can be
left out. There are none exactly between documents that are alike. -/
namespace DocHistory

namespace Value
variable {previous next : Value}

theorem changesHold {path : Path} : (previous.changes next).contains path = true ↔
    (previous.flatten.get? path == next.flatten.get? path) = false := by
  rw [SortedMap.contains, changesGet]
  split <;> simp [*]

theorem changesFound {path : Path} {change : Option Value}
    (found : (previous.changes next).get? path = some change) :
    change = next.flatten.get? path := by
  rw [changesGet] at found
  split at found
  · cases found
  · exact (Option.some.inj found).symm

theorem changesNeeded {part : Changeset}
    (within : ∀ path change, part.get? path = some change →
      (previous.changes next).get? path = some change)
    (leads : (Properties.apply previous.flatten part == next.flatten) = true) :
    part = previous.changes next := by
  apply SortedMap.extGet
  intro path
  cases kept : part.get? path with
  | some change => exact (within path change kept).symm
  | none =>
    have same := Properties.alikeAt.1 leads path
    rw [Properties.applyGet, kept] at same
    rw [changesGet, if_pos same]

theorem changesLeast (addressedA : previous.json.Addressed) (addressedB : next.json.Addressed) :
    (Properties.apply previous.flatten (previous.changes next) == next.flatten) = true ∧
    (∀ path, (previous.changes next).contains path = true ↔
      (previous.flatten.get? path == next.flatten.get? path) = false) ∧
    (∀ path change, (previous.changes next).get? path = some change →
      change = next.flatten.get? path) ∧
    (∀ part : Changeset, (∀ path change, part.get? path = some change →
        (previous.changes next).get? path = some change) →
      (Properties.apply previous.flatten part == next.flatten) = true →
      part = previous.changes next) ∧
    ((previous.changes next).isEmpty = true ↔ (previous == next) = true) := by
  refine ⟨Properties.changesLead BEq.rfl next, fun _ => changesHold, fun _ _ => changesFound,
    fun _ => changesNeeded, ?_⟩
  rw [changesEmpty, flattenAlikeIff addressedA addressedB]

def reshaped : Value × Value :=
  (.object [("x", .array [.bool true]), ("y", .object [("z", .null)])],
    .object [("x", .object []), ("y", .null)])

theorem reshapedLeast : reshaped.1.json.Addressed ∧ reshaped.2.json.Addressed ∧
    (reshaped.1.changes reshaped.2).size = 4 ∧
    (reshaped.1.changes reshaped.2).get? ⟨[.property "x", .index 0]⟩ = some none ∧
    (Properties.apply reshaped.1.flatten (reshaped.1.changes reshaped.2) ==
      reshaped.2.flatten) = true ∧
    (Properties.apply reshaped.1.flatten ((reshaped.1.changes reshaped.2).erase (.ofName "y")) ==
      reshaped.2.flatten) = false := by
  have before : reshaped.1.json.Short := by decide
  have after : reshaped.2.json.Short := by decide
  obtain ⟨leads, _, _, least, _⟩ := changesLeast before.addressed after.addressed
  refine ⟨before.addressed, after.addressed, rfl, rfl, leads, ?_⟩
  refine Bool.eq_false_iff.2 fun enough => ?_
  have all := least _ (fun path change kept => ?_) enough
  · exact absurd (congrArg SortedMap.size all) (by decide)
  · rw [SortedMap.getErase] at kept
    split at kept
    · cases kept
    · exact kept

end Value
end DocHistory
