import DocHistory.Proofs.LastWriter

/-! A version without changes that joins some nodes, and what merges make of it in place of the
nodes that it joins. It keeps their winner and the losers that differ from it. What it leaves out
for repeating the winner's value can matter again once another head has overwritten the winner. -/
namespace DocHistory
open Node

namespace Node

section InHistory
variable {nodes ts : List Node} {n : Node} (history : History nodes) (here : n ∈ nodes)
  (sub : ts ⊆ nodes) (quiet : n.changeset = ∅)
include history here sub quiet

variable {path : Path} (ascend : WritesAscend (Past (n.parents ++ ts)) path)
include ascend

end InHistory
end Node

namespace Graph

theorem commitOne {g : Graph} {v : Version} (normal : v.isRoot = false)
    (new : g.contains v.revision = false) (known : ∀ r ∈ v.parents.toList, g.contains r = true)
    (fresh : Nat) :
    ∃ h n, g.commit [v] fresh = .ok h ∧ h.nodes = g.nodes ++ [n] ∧ n.version = v ∧
      n.parents = g.chosen v.parents.toList := by
  let start : Staging := { base := g, headIndex := g.headIndex, fresh }
  let n := start.place v (g.chosen v.parents.toList)
  have added : start.add v = .ok (start.push n) := by
    refine Staging.addSucceeds (fun root => ?_) ?_ known
    · rw [normal] at root
      cases root
    · exact Option.not_isSome_iff_eq_none.1 (Bool.eq_false_iff.1 new)
  refine ⟨(start.push n).finish, n, commitOk.2 ⟨start.push n, ?_, rfl⟩, ?_, rfl, rfl⟩
  · rw [List.foldlM_cons, added]
    rfl
  · rw [Staging.finishNodes, Staging.nodesPush]
    simp [Staging.nodes, start]

end Graph
end DocHistory
