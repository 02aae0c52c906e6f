import DocHistory.Proofs.Lineage
import DocHistory.Proofs.MaximalNodes

/-! When graphs answer alike. Nodes are compared by what marks leave of them. Apart from the tip and
the order of the nodes, all that a graph answers depends on which nodes it has: layers, index and
the way in which it came about do not matter. -/
namespace DocHistory
open Node

namespace Marks

def unplaced : Marks := ⟨fun _ => 0, fun _ => 0⟩

def unnamed : Marks := ⟨fun sequence => sequence, fun _ => 0⟩

def unpooled : Marks := ⟨fun sequence => sequence, fun id => id⟩

end Marks

namespace Graph

structure Alike (marks : Marks) (g h : Graph) : Prop where
  size : g.size = h.size
  nodes : (g.nodes.map (Node.bare marks)).Perm (h.nodes.map (Node.bare marks))
  contains : ∀ r, g.contains r = h.contains r
  found : ∀ r, (g.find r).map (Node.bare marks) = (h.find r).map (Node.bare marks)
  asked : ∀ r (query : NodeQuery), (g.find r).map query.tell = (h.find r).map query.tell
  heads : ∀ branch,
    (g.heads branch).map (Node.bare marks) = (h.heads branch).map (Node.bare marks)
  branches : g.branches = h.branches
  frontier : ∀ branch,
    (g.frontier branch).map (Node.bare marks) = (h.frontier branch).map (Node.bare marks)
  mergeRevisions : ∀ revisions, g.mergeRevisions revisions = h.mergeRevisions revisions
  mergeBranches : ∀ names, g.mergeBranches names = h.mergeBranches names

structure InStep (marks : Marks) (g h : Graph) : Prop extends Alike marks g h where
  inserted : g.nodes.map (Node.bare marks) = h.nodes.map (Node.bare marks)
  tip : g.tip.map (Node.bare marks) = h.tip.map (Node.bare marks)

section Parts
variable (marks : Marks)

theorem bareHistory {ns : List Node} (history : History ns) : History (ns.map (bare marks)) where
  closed n member p parent := by
    obtain ⟨m, inside, rfl⟩ := List.mem_map.1 member
    rw [bareParents] at parent
    obtain ⟨q, old, rfl⟩ := List.mem_map.1 parent
    exact List.mem_map_of_mem (history.closed m inside q old)
  single a ha b hb same := by
    obtain ⟨n, first, rfl⟩ := List.mem_map.1 ha
    obtain ⟨m, second, rfl⟩ := List.mem_map.1 hb
    rw [bareRevision, bareRevision] at same
    rw [history.single n first m second same]

theorem bareLeaf {ns : List Node} (history : History ns) {k : Node} :
    Leaf (ns.map (bare marks)) k ↔ ∃ n, Leaf ns n ∧ n.bare marks = k := by
  constructor
  · intro leaf
    obtain ⟨n, member, rfl⟩ := List.mem_map.1 leaf.member
    refine ⟨n, ⟨member, fun m inside parent => ?_⟩, rfl⟩
    refine leaf.childless _ (List.mem_map_of_mem inside) ?_
    rw [bareParents]
    exact List.mem_map_of_mem parent
  · rintro ⟨n, leaf, rfl⟩
    refine ⟨List.mem_map_of_mem leaf.member, fun k inside parent => ?_⟩
    obtain ⟨m, old, rfl⟩ := List.mem_map.1 inside
    rw [bareParents] at parent
    obtain ⟨p, before, same⟩ := List.mem_map.1 parent
    have revision := congrArg Node.revision same
    rw [bareRevision, bareRevision] at revision
    obtain rfl := history.single p (history.closed m old p before) n leaf.member revision
    exact leaf.childless m old before

theorem memBareHeads {g : Graph} (tracked : g.Tracked) {branch : String} {k : Node} :
    k ∈ (g.heads branch).map (bare marks) ↔
      Leaf (g.nodes.map (bare marks)) k ∧ k.branch = branch := by
  simp only [List.mem_map, memHeads tracked, bareLeaf marks tracked.ordered.placed.history]
  constructor
  · rintro ⟨n, ⟨leaf, rfl⟩, rfl⟩
    exact ⟨⟨n, leaf, rfl⟩, bareBranch marks n⟩
  · rintro ⟨⟨n, leaf, rfl⟩, rfl⟩
    exact ⟨n, ⟨leaf, (bareBranch marks n).symm⟩, rfl⟩

theorem bareHeadsAscend {g : Graph} (tracked : g.Tracked) (branch : String) :
    ((g.heads branch).map (bare marks)).Pairwise
      fun a b => compare a.revision b.revision = .lt := by
  refine List.pairwise_map.2 ((headsAscend tracked branch).imp fun less => ?_)
  rw [bareRevision, bareRevision]
  exact less

theorem memBranches {g : Graph} (tracked : g.Tracked) {branch : String} :
    branch ∈ g.branches ↔ ∃ k ∈ g.nodes.map (bare marks), k.branch = branch := by
  rw [branches, SortedMap.memKeys, tracked.lists.branches]
  constructor
  · rintro ⟨n, member, rfl⟩
    exact ⟨n.bare marks, List.mem_map_of_mem member, bareBranch marks n⟩
  · rintro ⟨k, member, rfl⟩
    obtain ⟨n, inside, rfl⟩ := List.mem_map.1 member
    exact ⟨n, inside, (bareBranch marks n).symm⟩

theorem findMap {α : Type} (f : Node → α) (g : Graph) (r : Revision) : (g.find r).map f =
    match (g.find? r).map f with
    | some a => .ok a
    | none => .error (.notFound r) := by
  rw [find]
  cases g.find? r <;> rfl

theorem bareFound {g : Graph} {ns : List Node} (history : History ns)
    (same : ∀ k, k ∈ g.nodes.map (bare marks) ↔ k ∈ ns) (r : Revision) :
    (g.find? r).map (bare marks) = ns.find? fun n => n.revision = r := by
  refine history.findUnique ?_ ?_
  · intro k found
    obtain ⟨n, here, rfl⟩ := Option.map_eq_some_iff.1 found
    obtain ⟨member, revision⟩ := findSound here
    exact ⟨(same _).1 (List.mem_map_of_mem member), (bareRevision marks n).trans revision⟩
  · intro absent k member
    obtain ⟨n, inside, rfl⟩ := List.mem_map.1 ((same k).2 member)
    rw [bareRevision]
    exact findNone.1 (Option.map_eq_none_iff.1 absent) n inside

theorem bareNodup {ns : List Node} (placed : Placed ns) : (ns.map (bare marks)).Nodup := by
  have revisions : (ns.map (bare marks)).map Node.revision = ns.map Node.revision := by
    rw [List.map_map]
    exact List.map_congr_left fun n _ => bareRevision marks n
  exact List.Nodup.of_map Node.revision (revisions ▸ placed.distinct)

end Parts

section Likeness
variable {marks : Marks} {g h : Graph} (first : g.Tracked) (second : h.Tracked)
  (same : ∀ k, k ∈ g.nodes.map (bare marks) ↔ k ∈ h.nodes.map (bare marks))
include first second same

theorem headsAlike (branch : String) :
    (g.heads branch).map (bare marks) = (h.heads branch).map (bare marks) := by
  refine ascendingEq Node.revision (bareHeadsAscend marks first branch)
    (bareHeadsAscend marks second branch) fun k => ?_
  rw [memBareHeads marks first, memBareHeads marks second]
  refine and_congr_left fun _ => ⟨fun leaf => ?_, fun leaf => ?_⟩
  · exact ⟨(same k).1 leaf.member, fun m inside => leaf.childless m ((same m).2 inside)⟩
  · exact ⟨(same k).2 leaf.member, fun m inside => leaf.childless m ((same m).1 inside)⟩

theorem branchesAlike : g.branches = h.branches := by
  have ascending : ∀ k : Graph, k.branches.Pairwise fun a b => compare a b = .lt :=
    fun k => List.pairwise_map.2 k.headIndex.ascending
  refine ascendingEq (fun name => name) (ascending g) (ascending h) fun branch => ?_
  rw [memBranches marks first, memBranches marks second]
  simp only [same]

theorem retiredAlike (branch : String) : g.isRetired branch = h.isRetired branch := by
  have heads := congrArg List.isEmpty (headsAlike first second same branch)
  have listed : ∀ k : Graph, k.headIndex.contains branch = decide (branch ∈ k.branches) :=
    fun k => Bool.eq_iff_iff.2 (SortedMap.memKeys.symm.trans decide_eq_true_iff.symm)
  rw [List.isEmpty_map, List.isEmpty_map] at heads
  rw [isRetired, isRetired, heads, listed, listed, branchesAlike first second same]

theorem membersAlike (branch : String) :
    (g.members branch).map (bare marks) = (h.members branch).map (bare marks) := by
  rw [bareMembers, bareMembers]
  refine ascendingEq Node.revision (distinctAscends _ _) (distinctAscends _ _) fun k => ?_
  rw [memDistinct (bareHistory marks first.ordered.placed.history) (List.filter_subset_self _),
    memDistinct (bareHistory marks second.ordered.placed.history) (List.filter_subset_self _),
    List.mem_filter, List.mem_filter, same]

theorem frontierAlike (branch : String) :
    (g.frontier branch).map (bare marks) = (h.frontier branch).map (bare marks) := by
  rw [bareFrontier, bareFrontier, retiredAlike first second same,
    membersAlike first second same, headsAlike first second same]

omit first in
theorem foundAlike (r : Revision) :
    (g.find? r).map (bare marks) = (h.find? r).map (bare marks) := by
  have history := bareHistory marks second.ordered.placed.history
  rw [bareFound marks history same, bareFound marks history fun _ => Iff.rfl]

theorem alike : Alike marks g h := by
  have nodes := (List.perm_ext_iff_of_nodup (bareNodup marks first.ordered.placed)
    (bareNodup marks second.ordered.placed)).2 same
  have sizes := nodes.length_eq
  rw [List.length_map, List.length_map] at sizes
  have found := foundAlike second same
  have finds : ∀ r, (g.find r).map (bare marks) = (h.find r).map (bare marks) := fun r => by
    rw [findMap, findMap, found]
  have heads := headsAlike first second same
  exact {
    size := by rw [first.ordered.counted, second.ordered.counted, sizes]
    nodes := nodes
    contains := fun r => by
      have known := congrArg Option.isSome (found r)
      rwa [Option.isSome_map, Option.isSome_map] at known
    found := finds
    asked := fun r query => by
      have told : query.tell = query.tell ∘ bare marks :=
        funext fun n => (query.tellBare marks n).symm
      rw [findMap, findMap, told, ← Option.map_map, ← Option.map_map, found]
    heads := heads
    branches := branchesAlike first second same
    frontier := frontierAlike first second same
    mergeRevisions := fun revisions => by
      rw [bareMergeRevisions marks, bareMergeRevisions marks h]
      exact congrArg (fun find => (revisions.mapM find).bind mergeNodes) (funext finds)
    mergeBranches := fun names => by
      rw [bareMergeBranches marks, bareMergeBranches marks h]
      exact congrArg (fun heads => mergeNodes (names.flatMap heads)) (funext heads) }

omit same in
theorem inStep (inserted : g.nodes.map (bare marks) = h.nodes.map (bare marks)) :
    InStep marks g h where
  toAlike := alike first second fun _ => inserted ▸ Iff.rfl
  inserted := inserted
  tip := by rw [first.last, second.last, ← List.getLast?_map, inserted, List.getLast?_map]

end Likeness

end Graph
end DocHistory
