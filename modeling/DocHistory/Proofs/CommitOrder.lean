import DocHistory.Proofs.Likeness

/-! Graphs that took in the same versions in different orders. A version names its parents by their
revisions, so what a node and its past come to without places is settled by the versions alone, and
two such graphs have the same nodes up to places. -/
namespace DocHistory
open Node

section Versions
variable {ns ms : List Node} (first : Placed ns) (second : Placed ms)
  (taken : ns.map version ⊆ ms.map version)
include second taken

theorem versionsAgree : ∀ a ∈ ns, ∀ b ∈ ms, a.revision = b.revision → a.version = b.version := by
  intro a ha b hb same
  obtain ⟨c, hc, version⟩ := List.mem_map.1 (taken (List.mem_map_of_mem ha))
  have equal : c.revision = b.revision := (congrArg Version.revision version).trans same
  rw [← version, second.history.single c hc b hb equal]

include first

theorem unplacedSubset : ns.map unplaced ⊆ ms.map unplaced := by
  intro k member
  obtain ⟨a, ha, rfl⟩ := List.mem_map.1 member
  obtain ⟨b, hb, version⟩ := List.mem_map.1 (taken (List.mem_map_of_mem ha))
  have same : a.revision = b.revision := congrArg Version.revision version.symm
  rw [unplacedEq first second (versionsAgree second taken) ha hb same]
  exact List.mem_map_of_mem hb

end Versions

namespace Graph

theorem Grown.alike {c d : Config} {g h : Graph} {log other : List Version}
    (first : Grown c g log) (second : Grown d h other) (reordered : log.Perm other) :
    Alike Marks.unplaced g h := by
  have one := first.reachable.tracked
  have two := second.reachable.tracked
  have versions : (g.nodes.map Node.version).Perm (h.nodes.map Node.version) := by
    rw [first.log, second.log]
    exact reordered
  refine Graph.alike one two fun k => ⟨fun member => ?_, fun member => ?_⟩
  · exact unplacedSubset one.ordered.placed two.ordered.placed versions.subset member
  · exact unplacedSubset two.ordered.placed one.ordered.placed versions.symm.subset member

theorem commitOrderFree {c d : Config} {i j k l : Nat} {versions others : List Version}
    (reordered : versions.Perm others) {g h : Graph}
    (done : (Graph.empty c i).commit versions j = .ok g)
    (redone : (Graph.empty d k).commit others l = .ok h) : Alike Marks.unplaced g h :=
  Grown.alike (.commit (.empty i) done) (.commit (.empty k) redone) reordered

def deletion : List Version := [.ofChanges 1 [] [(.ofName "x", none)], .ofChanges 2 [1] []]

def rival : List Version := [.ofChanges 3 [] [(.ofName "x", some .null)]]

theorem rivalsSwap : ∃ g h, (Graph.empty {} 0).commit (deletion ++ rival) 0 = .ok g ∧
    (Graph.empty ⟨0, 0⟩ 0).commit (rival ++ deletion) 0 = .ok h ∧ Alike Marks.unplaced g h ∧
    g.tip.map Node.revision = some (.ofTime 3) ∧ h.tip.map Node.revision = some (.ofTime 2) := by
  have commits : ∃ g h, (Graph.empty {} 0).commit (deletion ++ rival) 0 = .ok g ∧
      (Graph.empty ⟨0, 0⟩ 0).commit (rival ++ deletion) 0 = .ok h ∧
      g.tip.map Node.revision = some (.ofTime 3) ∧ h.tip.map Node.revision = some (.ofTime 2) :=
    ⟨_, _, rfl, rfl, rfl, rfl⟩
  obtain ⟨g, h, done, redone, last⟩ := commits
  exact ⟨g, h, done, redone, commitOrderFree List.perm_append_comm done redone, last⟩

end Graph
end DocHistory
