import DocHistory.Proofs.GraphMerge
import DocHistory.Proofs.TrackedHeads

/-! All branches together stand for the whole graph. The heads of the branches are the leaves, and
these are the nodes that no other node has in its past; so a merge of all branches starts from them,
as does a merge of all nodes, and every node is in the past of one. -/
namespace DocHistory
open Node

theorem leafSurvives {nodes : List Node} (history : History nodes) {n : Node} :
    n ∈ survivors nodes ↔ Leaf nodes n := by
  rw [memSurvivors history (List.Subset.refl _)]
  constructor
  · rintro ⟨member, top⟩
    refine ⟨member, fun m inside parent => ?_⟩
    obtain rfl := top m inside (reachesThrough parent (reachesSelf n))
    exact Nat.lt_irrefl _ (parentSmaller parent)
  · intro leaf
    refine ⟨leaf.member, fun m inside path => ?_⟩
    rcases Relation.ReflTransGen.cases_tail path with same | ⟨k, before, parent⟩
    · exact same.symm
    · exact absurd parent (leaf.childless k (history.reached inside before))

namespace Graph

section
variable {g : Graph} (tracked : g.Tracked)
include tracked

theorem memAllHeads {n : Node} : n ∈ g.branches.flatMap g.heads ↔ Leaf g.nodes n := by
  rw [List.mem_flatMap]
  constructor
  · rintro ⟨branch, _, head⟩
    exact ((memHeads tracked).1 head).1
  · intro leaf
    refine ⟨n.branch, ?_, (memHeads tracked).2 ⟨leaf, rfl⟩⟩
    rw [branches, SortedMap.memKeys, tracked.lists.branches]
    exact ⟨n, leaf.member, rfl⟩

theorem headsSurvive : survivors (g.branches.flatMap g.heads) = survivors g.nodes := by
  have history := tracked.ordered.placed.history
  have inside : g.branches.flatMap g.heads ⊆ g.nodes :=
    fun n head => ((memAllHeads tracked).1 head).member
  refine survivorsMutual history inside (List.Subset.refl _) (fun n member => ?_)
    fun n head => pastSelf (inside head)
  obtain ⟨h, survivor, path⟩ := survivorsCover history (List.Subset.refl _) member
  exact ⟨h, (memAllHeads tracked).2 ((leafSurvives history).1 survivor), path⟩

theorem namedSurvive {revisions : List Revision}
    (all : ∀ r, r ∈ revisions ↔ r ∈ g.nodes.map Node.revision) :
    survivors (g.chosen revisions) = survivors g.nodes := by
  have history := tracked.ordered.placed.history
  have known := g.chosenSubset revisions
  refine survivorsMutual history known (List.Subset.refl _) (fun n member => ?_)
    fun n named => pastSelf (known named)
  exact pastSelf (memChosen.2 ⟨n.revision, (all _).2 (List.mem_map_of_mem member),
    (findIff history).2 ⟨member, rfl⟩⟩)

end

theorem allBranchesCover {g : Graph} (reachable : g.Reachable) : ∃ m,
    g.mergeBranches g.branches = .ok m ∧
    (∀ revisions, (∀ r, r ∈ revisions ↔ r ∈ g.nodes.map Node.revision) →
      g.mergeRevisions revisions = .ok m) ∧
    (∀ r, m.heads.contains r = true ↔
      ∃ n ∈ g.nodes, n.revision = r ∧ ∀ k ∈ g.nodes, n ∉ k.parents) ∧
    ∀ n ∈ g.nodes, ∃ h ∈ g.nodes, m.heads.contains h.revision = true ∧
      h.descendsFrom n.revision = true := by
  have tracked := reachable.tracked
  have history := tracked.ordered.placed.history
  have heads := headsSurvive tracked
  refine ⟨_, mergeNodesOk _, fun revisions all => ?_, fun r => ?_, fun n member => ?_⟩
  · have named := namedSurvive tracked all
    have known : ∀ r ∈ revisions, g.contains r = true :=
      fun r listed => containsIff.2 (List.mem_map.1 ((all r).1 listed))
    rw [mergeRevisionsOk known, named.trans heads.symm, joinedEq (named.trans heads.symm)]
  · rw [Merge.ofResolutionHeads, heads, List.mem_map]
    simp only [leafSurvives history]
    constructor
    · rintro ⟨n, leaf, same⟩
      exact ⟨n, leaf.member, same, leaf.childless⟩
    · rintro ⟨n, member, same, childless⟩
      exact ⟨n, ⟨member, childless⟩, same⟩
  · obtain ⟨h, survivor, path⟩ := survivorsCover history (List.Subset.refl _) member
    have inside := survivorsSubset g.nodes survivor
    refine ⟨h, inside, Merge.ofResolutionHeads.2 ?_, (history.descendsIff inside member).2 path⟩
    exact heads ▸ List.mem_map_of_mem survivor

def forked : Graph :=
  ofVersions [.ofChanges 1 [] [(.ofName "x", some .null)],
    { Version.ofChanges 2 [1] [] with branch := "draft" },
    { Version.ofChanges 3 [1] [] with branch := "review" }]

theorem forkedCovered : (forked.heads defaultBranch).isEmpty = true ∧
    ∃ m, forked.mergeBranches [defaultBranch, "draft", "review"] = .ok m ∧
      forked.mergeRevisions [.ofTime 3, .ofTime 2, .ofTime 1] = .ok m ∧
      m.heads.contains (.ofTime 2) = true ∧ m.heads.contains (.ofTime 3) = true ∧
      ∀ n ∈ forked.nodes, ∃ h ∈ forked.nodes, m.heads.contains h.revision = true ∧
        h.descendsFrom n.revision = true := by
  have reachable : forked.Reachable := ofVersionsReachable _
  obtain ⟨m, merged, named, headIff, covered⟩ := allBranchesCover reachable
  have top : ∀ r, r ≠ .ofTime 1 → (∃ n ∈ forked.nodes, n.revision = r) →
      m.heads.contains r = true := by
    intro r apart known
    obtain ⟨n, member, same⟩ := known
    have forks : ∀ k ∈ forked.nodes, ∀ p ∈ k.parents, p.revision = .ofTime 1 := by decide
    exact (headIff r).2 ⟨n, member, same, fun k inside parent =>
      apart (same.symm.trans (forks k inside n parent))⟩
  refine ⟨rfl, m, merged, named _ fun r => ?_, ?_, ?_, covered⟩
  · exact (List.reverse_perm (forked.nodes.map Node.revision)).mem_iff
  · exact top _ (by decide) (by decide)
  · exact top _ (by decide) (by decide)

end Graph
end DocHistory
