import Mathlib.Data.List.Induction
import DocHistory.Proofs.Placement

/-! What a graph keeps beside its layers, the head index and the tip, agrees with its nodes: they
are what the nodes, taken in the order of insertion, make of an empty graph. The index keeps the
leaves of the graph, each under its branch and revision, and a branch even when it has lost all of
its leaves. -/
namespace DocHistory

structure Leaf (nodes : List Node) (n : Node) : Prop where
  member : n ∈ nodes
  childless : ∀ m ∈ nodes, n ∉ m.parents

theorem leafAppend {nodes : List Node} {n m : Node} (history : History nodes) (new : n ∉ nodes)
    (parents : n.parents ⊆ nodes) :
    Leaf (nodes ++ [n]) m ↔ m = n ∨ Leaf nodes m ∧ m ∉ n.parents := by
  constructor
  · intro leaf
    rcases List.mem_append.1 leaf.member with old | last
    · refine .inr ⟨⟨old, fun k inside => ?_⟩, ?_⟩
      · exact leaf.childless k (List.mem_append_left _ inside)
      · exact leaf.childless n (List.mem_append_right _ (List.mem_singleton_self n))
    · exact .inl (List.mem_singleton.1 last)
  · rintro (rfl | ⟨leaf, apart⟩)
    · refine ⟨List.mem_append_right _ (List.mem_singleton_self m), fun k inside parent => ?_⟩
      rcases List.mem_append.1 inside with old | last
      · exact new (history.closed k old m parent)
      · exact new (parents (List.mem_singleton.1 last ▸ parent))
    · refine ⟨List.mem_append_left _ leaf.member, fun k inside => ?_⟩
      rcases List.mem_append.1 inside with old | last
      · exact leaf.childless k old
      · exact List.mem_singleton.1 last ▸ apart

namespace HeadIndex

def retire (index : HeadIndex) (p : Node) : HeadIndex :=
  match index.get? p.branch with
  | some heads => index.insert p.branch (heads.erase p.revision)
  | none => index

theorem updateRetires (index : HeadIndex) (n : Node) : index.update n =
    let retired := n.parents.foldl retire index
    retired.insert n.branch (((retired.get? n.branch).getD ∅).insert n.revision n) := rfl

def at? (index : HeadIndex) (branch : String) (r : Revision) : Option Node :=
  (index.get? branch).bind fun heads => SortedMap.get? heads r

theorem retireAt (index : HeadIndex) (p : Node) (branch : String) (r : Revision) :
    (index.retire p).at? branch r =
      if branch = p.branch ∧ r = p.revision then none else index.at? branch r := by
  unfold retire at?
  split
  · rename_i heads listed
    rw [SortedMap.getInsert]
    by_cases same : branch = p.branch
    · subst same
      simp only [true_and, if_true, Option.bind_some, SortedMap.getErase, listed]
    · simp only [same, false_and, if_false]
  · rename_i absent
    split
    · rename_i same
      rw [same.1, absent, Option.bind_none]
    · rfl

theorem retireContains (index : HeadIndex) (p : Node) (branch : String) :
    (index.retire p).contains branch = index.contains branch := by
  unfold retire
  split
  · rename_i heads listed
    rw [SortedMap.contains, SortedMap.getInsert]
    split
    · rename_i same
      rw [same, SortedMap.contains, listed]
      rfl
    · rfl
  · rfl

theorem retireAllAt (ps : List Node) (index : HeadIndex) (branch : String) (r : Revision)
    (n : Node) : (ps.foldl retire index).at? branch r = some n ↔
      index.at? branch r = some n ∧ ∀ p ∈ ps, ¬ (branch = p.branch ∧ r = p.revision) := by
  induction ps generalizing index with
  | nil => simp
  | cons p ps ih =>
    rw [List.foldl_cons, ih, retireAt, List.forall_mem_cons]
    by_cases same : branch = p.branch ∧ r = p.revision
    · simp [same]
    · simp only [same, if_false, not_false_eq_true, true_and]

theorem retireAllContains (ps : List Node) (index : HeadIndex) (branch : String) :
    (ps.foldl retire index).contains branch = index.contains branch := by
  induction ps generalizing index with
  | nil => rfl
  | cons p ps ih => rw [List.foldl_cons, ih, retireContains]

theorem updateAt (index : HeadIndex) (n : Node) (branch : String) (r : Revision) :
    (index.update n).at? branch r = if branch = n.branch ∧ r = n.revision then some n
      else (n.parents.foldl retire index).at? branch r := by
  rw [updateRetires]
  generalize n.parents.foldl retire index = retired
  dsimp only
  rw [at?, SortedMap.getInsert]
  by_cases same : branch = n.branch
  · subst same
    simp only [if_true, Option.bind_some, SortedMap.getInsert, true_and, at?]
    cases retired.get? n.branch <;> rfl
  · simp only [same, if_false, false_and]
    rfl

theorem updateContains (index : HeadIndex) (n : Node) (branch : String) :
    (index.update n).contains branch = true ↔
      branch = n.branch ∨ index.contains branch = true := by
  rw [updateRetires, ← retireAllContains n.parents index branch]
  dsimp only
  rw [SortedMap.contains, SortedMap.getInsert]
  split
  · rename_i same
    simp only [same, Option.isSome_some, true_or]
  · rename_i apart
    simp only [apart, false_or, SortedMap.contains]

structure Lists (index : HeadIndex) (nodes : List Node) : Prop where
  leaves : ∀ branch r n, index.at? branch r = some n ↔
    Leaf nodes n ∧ n.branch = branch ∧ n.revision = r
  branches : ∀ branch, index.contains branch = true ↔ ∃ n ∈ nodes, n.branch = branch

theorem emptyLists : Lists ∅ [] where
  leaves _ _ _ := ⟨fun found => (nomatch found), fun h => absurd h.1.member List.not_mem_nil⟩
  branches _ := ⟨fun listed => (nomatch listed), fun ⟨_, h, _⟩ => absurd h List.not_mem_nil⟩

theorem Lists.update {index : HeadIndex} {nodes : List Node} {n : Node} (history : History nodes)
    (lists : Lists index nodes) (new : ∀ m ∈ nodes, m.revision ≠ n.revision)
    (parents : n.parents ⊆ nodes) : Lists (index.update n) (nodes ++ [n]) where
  leaves branch r m := by
    rw [leafAppend history (fun old => new n old rfl) parents, updateAt]
    split
    · rename_i own
      obtain ⟨rfl, rfl⟩ := own
      refine ⟨fun same => ?_, fun ⟨leaf, _, same⟩ => ?_⟩
      · exact Option.some.inj same ▸ ⟨.inl rfl, rfl, rfl⟩
      · rcases leaf with rfl | ⟨old, _⟩
        · rfl
        · exact absurd same (new m old.member)
    · rename_i other
      rw [retireAllAt, lists.leaves]
      constructor
      · rintro ⟨⟨leaf, rfl, rfl⟩, kept⟩
        exact ⟨.inr ⟨leaf, fun parent => kept m parent ⟨rfl, rfl⟩⟩, rfl, rfl⟩
      · rintro ⟨rfl | ⟨leaf, apart⟩, rfl, rfl⟩
        · exact absurd ⟨rfl, rfl⟩ other
        · refine ⟨⟨leaf, rfl, rfl⟩, fun p parent same => apart ?_⟩
          exact history.single p (parents parent) m leaf.member same.2.symm ▸ parent
  branches branch := by
    rw [updateContains, lists.branches]
    simp only [List.mem_append, List.mem_singleton, or_and_right, exists_or, exists_eq_left]
    rw [eq_comm (a := branch), or_comm]

theorem foldLists {nodes : List Node} (placed : Placed nodes) :
    Lists (nodes.foldl HeadIndex.update ∅) nodes := by
  induction nodes using List.reverseRecOn with
  | nil => exact emptyLists
  | append_singleton nodes n ih =>
    obtain ⟨before, _, new, parents⟩ := placed.splitLast
    rw [List.foldl_append]
    exact (ih before).update before.history new parents

end HeadIndex

namespace Graph

structure Tracked (g : Graph) : Prop where
  ordered : g.Ordered
  indexed : g.headIndex = g.nodes.foldl HeadIndex.update ∅
  last : g.tip = g.nodes.getLast?

theorem emptyTracked (config : Config) (fresh : Nat) : (Graph.empty config fresh).Tracked :=
  ⟨emptyOrdered config fresh, rfl, rfl⟩

namespace Staging

structure Tracked (s : Staging) : Prop where
  base : s.base.Tracked
  ordered : s.Ordered
  indexed : s.headIndex = s.nodes.foldl HeadIndex.update ∅

theorem startTracked {g : Graph} (tracked : g.Tracked) (fresh : Nat) :
    Tracked { base := g, headIndex := g.headIndex, fresh } := by
  have nodes : ({ base := g, headIndex := g.headIndex, fresh } : Staging).nodes = g.nodes :=
    List.append_nil _
  constructor
  · exact tracked
  · exact ⟨nodes ▸ tracked.ordered.placed, tracked.ordered.counted⟩
  · exact nodes ▸ tracked.indexed

theorem addTracked {s t : Staging} {v : Version} (tracked : s.Tracked) (done : s.add v = .ok t) :
    t.Tracked := by
  have ordered := addOrdered tracked.ordered done
  obtain ⟨_, _, ps, _, rfl⟩ := addOk.1 done
  refine ⟨tracked.base, ordered, ?_⟩
  rw [nodesPush, List.foldl_append, ← tracked.indexed]
  rfl

theorem finishTracked {s : Staging} (tracked : s.Tracked) : s.finish.Tracked := by
  refine ⟨finishOrdered tracked.ordered, ?_, ?_⟩ <;> rw [finishNodes, nodes, finish]
  · split
    · rename_i absent
      rw [absent, List.reverse_nil, List.append_nil]
      exact tracked.base.indexed
    · exact tracked.indexed
  · split
    · rename_i absent
      rw [absent, List.reverse_nil, List.append_nil]
      exact tracked.base.last
    · rename_i tip rest added
      rw [added, List.reverse_cons, ← List.append_assoc, List.getLast?_concat]

end Staging

theorem commitTracked {g h : Graph} {versions : List Version} {fresh : Nat} (tracked : g.Tracked)
    (done : g.commit versions fresh = .ok h) : h.Tracked := by
  obtain ⟨s, run, rfl⟩ := commitOk.1 done
  have start := Staging.startTracked tracked fresh
  exact Staging.finishTracked (Staging.runKeeps Staging.addTracked start run)

theorem viewTracked {g h : Graph} {r : Revision} {fresh : Nat} (tracked : g.Tracked)
    (done : g.view r fresh = .ok h) : h.Tracked := by
  have ordered := viewOrdered tracked.ordered done
  rcases viewCases done with rfl | ⟨k, rfl⟩
  · exact tracked
  · exact ⟨ordered, by rw [ofNodesNodes]; rfl, by rw [ofNodesNodes]; rfl⟩

theorem Tracked.lists {g : Graph} (tracked : g.Tracked) : g.headIndex.Lists g.nodes :=
  tracked.indexed ▸ HeadIndex.foldLists tracked.ordered.placed

theorem memHeads {g : Graph} (tracked : g.Tracked) {branch : String} {n : Node} :
    n ∈ g.heads branch ↔ Leaf g.nodes n ∧ n.branch = branch := by
  have listed : n ∈ g.heads branch ↔ ∃ r, g.headIndex.at? branch r = some n := by
    unfold heads HeadIndex.at?
    cases g.headIndex.get? branch with
    | none => simp
    | some heads => exact SortedMap.memValues
  simp only [listed, tracked.lists.leaves, exists_and_left, exists_eq', and_true]

theorem Tracked.heads {g : Graph} (tracked : g.Tracked) (branch : String) :
    g.heads branch ⊆ g.nodes :=
  fun _ member => ((memHeads tracked).1 member).1.member

theorem headsAscend {g : Graph} (tracked : g.Tracked) (branch : String) :
    (g.heads branch).Pairwise fun a b => compare a.revision b.revision = .lt := by
  unfold heads
  split
  · rename_i heads listed
    refine List.pairwise_map.2 (heads.ascending.imp_of_mem fun {a b} ha hb less => ?_)
    have keyed : ∀ e ∈ heads.entries, e.2.revision = e.1 := by
      intro e member
      refine ((tracked.lists.leaves branch e.1 e.2).1 ?_).2.2
      rw [HeadIndex.at?, listed, Option.bind_some]
      exact SortedMap.getIff.2 member
    rw [keyed a ha, keyed b hb]
    exact less
  · exact List.Pairwise.nil

theorem viewNodes {g h : Graph} {r : Revision} {fresh : Nat} (tracked : g.Tracked)
    (done : g.view r fresh = .ok h) :
    ∃ n, g.find? r = some n ∧ h.nodes = g.nodes.take (n.sequence + 1) := by
  have placed := tracked.ordered.placed
  obtain ⟨n, found, same⟩ := viewOk.1 done
  obtain ⟨member, revision⟩ := findSound found
  refine ⟨n, found, ?_⟩
  split at same
  · rename_i tip
    obtain ⟨t, last, newest⟩ := Option.map_eq_some_iff.1 tip
    rw [tracked.last] at last
    obtain rfl := placed.history.single t (List.mem_of_getLast? last) n member
      (newest.trans revision.symm)
    rw [same, List.take_of_length_le (Nat.le_of_eq (placed.lastSequence last).symm)]
  · rw [same, ofNodesNodes, placed.cut]

theorem Reachable.tracked {g : Graph} (reachable : g.Reachable) : g.Tracked := by
  induction reachable with
  | empty config fresh => exact emptyTracked config fresh
  | commit _ done ih => exact commitTracked ih done
  | view _ done ih => exact viewTracked ih done

theorem Grown.log {config : Config} {g : Graph} {log : List Version} (grown : Grown config g log) :
    g.nodes.map Node.version = log := by
  induction grown with
  | empty fresh => rfl
  | commit _ done ih =>
    obtain ⟨added, nodes, versions, _⟩ := commitAdds done
    rw [nodes, List.map_append, ih, versions]
  | view before done ih =>
    have tracked := before.reachable.tracked
    obtain ⟨n, found, nodes⟩ := viewNodes tracked done
    obtain ⟨member, rfl⟩ := findSound found
    rw [upThrough, ← ih, tracked.ordered.placed.versionIndex member, nodes, List.map_take]

theorem headsAreLeaves {config : Config} {g : Graph} {log : List Version}
    (grown : Grown config g log) :
    (∀ branch,
      (∀ n, n ∈ g.heads branch ↔
        n ∈ g.nodes ∧ n.branch = branch ∧ ∀ m ∈ g.nodes, n ∉ m.parents) ∧
      (g.heads branch).Pairwise fun a b => compare a.revision b.revision = .lt) ∧
    (∀ branch, branch ∈ g.branches ↔ ∃ n ∈ g.nodes, n.branch = branch) ∧
    (g.branches.Pairwise fun a b => compare a b = .lt) ∧
    g.tip = g.nodes.getLast? ∧ g.tip.map Node.version = log.getLast? := by
  have tracked := grown.reachable.tracked
  refine ⟨fun branch => ⟨fun n => ?_, headsAscend tracked branch⟩, fun branch => ?_, ?_, ?_, ?_⟩
  · rw [memHeads tracked]
    constructor
    · rintro ⟨leaf, same⟩
      exact ⟨leaf.member, same, leaf.childless⟩
    · rintro ⟨member, same, childless⟩
      exact ⟨⟨member, childless⟩, same⟩
  · rw [branches, SortedMap.memKeys, tracked.lists.branches]
  · exact List.pairwise_map.2 g.headIndex.ascending
  · exact tracked.last
  · rw [tracked.last, ← grown.log, List.getLast?_map]

def continued : Graph :=
  ofVersions [.ofChanges 1 [] [], { Version.ofChanges 2 [1] [] with branch := "draft" }]

theorem continuedRetires : ∃ log, Grown {} continued log ∧ defaultBranch ∈ continued.branches ∧
    (∀ n, n ∉ continued.heads defaultBranch) ∧
    ∃ h, Grown {} h (upThrough (.ofTime 1) log) ∧ continued.view (.ofTime 1) 2 = .ok h ∧
      ∃ n ∈ h.heads defaultBranch, n.revision = .ofTime 1 := by
  obtain ⟨log, grown⟩ := ofVersionsGrown
    [.ofChanges 1 [] [], { Version.ofChanges 2 [1] [] with branch := "draft" }]
  have history := grown.reachable.history
  obtain ⟨leaves, named, _⟩ := headsAreLeaves grown
  refine ⟨log, grown, (named _).2 (by decide), fun n member => ?_, ?_⟩
  · obtain ⟨inside, branch, childless⟩ := ((leaves defaultBranch).1 n).1 member
    have continues : ∀ a ∈ continued.nodes, a.branch = defaultBranch →
        ∃ b ∈ continued.nodes, ∃ p ∈ b.parents, p.revision = a.revision := by decide
    obtain ⟨b, later, p, parent, same⟩ := continues n inside branch
    have before := history.closed b later p parent
    exact childless b later (history.single p before n inside same ▸ parent)
  · have viewed : ∃ h, continued.view (.ofTime 1) 2 = .ok h ∧
        (∃ n ∈ h.nodes, n.branch = defaultBranch ∧ n.revision = .ofTime 1) ∧
        ∀ m ∈ h.nodes, m.parents.isEmpty = true := ⟨_, rfl, by decide, by decide⟩
    obtain ⟨h, done, ⟨n, inside, branch, first⟩, roots⟩ := viewed
    have early := Grown.view grown done
    refine ⟨h, early, done, n, ?_, first⟩
    refine (((headsAreLeaves early).1 defaultBranch).1 n).2 ⟨inside, branch, fun m later => ?_⟩
    rw [List.isEmpty_iff.1 (roots m later)]
    exact List.not_mem_nil

end Graph
end DocHistory
