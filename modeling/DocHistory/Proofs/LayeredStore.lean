import Mathlib.Data.List.Lattice
import DocHistory.Proofs.TrackedHeads

/-! How a graph stores the versions that it took in. The layers split the nodes: no revision lies
in two of them, none is empty, and there are at most as many as the configuration allows. The
sequences number the nodes in the order in which their versions were given. Parents are earlier
nodes, so no version comes after itself, whatever the versions say of their parents. -/
namespace DocHistory
open Node

theorem oneHolder {α : Type} {ls : List (List α)} (distinct : ls.flatten.Nodup) {a : α} {i j : Nat}
    {first second : List α} (atFirst : ls[i]? = some first) (atSecond : ls[j]? = some second)
    (inFirst : a ∈ first) (inSecond : a ∈ second) : i = j := by
  have apart := List.pairwise_iff_getElem.1 (List.nodup_flatten.1 distinct).2
  obtain ⟨hi, rfl⟩ := List.getElem?_eq_some_iff.1 atFirst
  obtain ⟨hj, rfl⟩ := List.getElem?_eq_some_iff.1 atSecond
  rcases Nat.lt_trichotomy i j with less | same | less
  · exact (apart i j hi hj less inFirst inSecond).elim
  · exact same
  · exact (apart j i hj hi less inSecond inFirst).elim

namespace Graph

structure Stacked (g : Graph) : Prop where
  counted : g.depth = g.layers.length
  filled : ∀ layer ∈ g.layers, layer ≠ []
  bounded : g.depth ≤ max 1 g.config.maxLayers

theorem emptyStacked (config : Config) (fresh : Nat) : (Graph.empty config fresh).Stacked where
  counted := rfl
  filled _ member := absurd member List.not_mem_nil
  bounded := Nat.zero_le _

theorem Staging.finishStacked {s : Staging} (stacked : s.base.Stacked) : s.finish.Stacked := by
  unfold finish
  split
  · exact stacked
  · rename_i tip rest added
    have present : s.added.reverse ≠ [] := by simp [added]
    by_cases joins : s.base.depth + 1 > s.base.config.maxLayers
    · constructor
      · simp only [joins, if_true, List.length_singleton]
      · simp only [joins, if_true, List.forall_mem_singleton]
        exact List.append_ne_nil_of_right_ne_nil _ present
      · simp only [joins, if_true]
        exact Nat.le_max_left _ _
    · constructor
      · simp only [joins, if_false, List.length_cons]
        rw [stacked.counted]
      · simp only [joins, if_false]
        exact List.forall_mem_cons.2 ⟨present, stacked.filled⟩
      · simp only [joins, if_false]
        omega

theorem finishConfig (s : Staging) : s.finish.config = s.base.config := by
  unfold Staging.finish
  split <;> rfl

theorem ofNodesStacked {ns : List Node} (present : ns ≠ []) (config : Config) (pool : Pool)
    (fresh : Nat) : (ofNodes ns config pool fresh).Stacked where
  counted := rfl
  filled := List.forall_mem_singleton.2 present
  bounded := Nat.le_max_left _ _

theorem viewStacked {g h : Graph} {r : Revision} {fresh : Nat} (stacked : g.Stacked)
    (done : g.view r fresh = .ok h) : h.Stacked ∧ h.config = g.config := by
  obtain ⟨n, found, same⟩ := viewOk.1 done
  split at same <;> subst same
  · exact ⟨stacked, rfl⟩
  · have kept : n ∈ g.nodes.filter fun m => m.sequence ≤ n.sequence :=
      List.mem_filter.2 ⟨(findSound found).1, decide_eq_true (Nat.le_refl _)⟩
    exact ⟨ofNodesStacked (List.ne_nil_of_mem kept) _ _ _, rfl⟩

theorem Grown.stacked {config : Config} {g : Graph} {log : List Version}
    (grown : Grown config g log) : g.Stacked ∧ g.config = config := by
  induction grown with
  | empty fresh => exact ⟨emptyStacked config fresh, rfl⟩
  | commit _ done ih =>
    obtain ⟨stacked, same⟩ := ih
    obtain ⟨s, run, rfl⟩ := commitOk.1 done
    have base := (commitRun run).1.base
    exact ⟨Staging.finishStacked (base ▸ stacked), by rw [finishConfig, base, same]⟩
  | view _ done ih =>
    obtain ⟨stacked, same⟩ := viewStacked ih.1 done
    exact ⟨stacked, same.trans ih.2⟩

def Names (g : Graph) (r s : Revision) : Prop :=
  ∃ n ∈ g.nodes, n.revision = r ∧ s ∈ n.version.parents.toList

section
variable {g : Graph} (placed : Placed g.nodes)
include placed

theorem namesEarlier {r s : Revision} (names : g.Names r s) :
    ∃ n ∈ g.nodes, ∃ p ∈ g.nodes, n.revision = r ∧ p.revision = s ∧ p.sequence < n.sequence := by
  obtain ⟨n, member, same, listed⟩ := names
  rw [← placed.named n member] at listed
  obtain ⟨p, parent, named⟩ := List.mem_map.1 listed
  obtain ⟨old, less⟩ := placed.earlier n member p parent
  exact ⟨n, member, p, old, same, named, less⟩

-- Along a chain of parents sequences descend, so a chain does not come back to where it started.
theorem chainEarlier {r s : Revision} (chain : Relation.TransGen g.Names r s) :
    ∃ n ∈ g.nodes, ∃ p ∈ g.nodes, n.revision = r ∧ p.revision = s ∧ p.sequence < n.sequence := by
  induction chain with
  | single names => exact namesEarlier placed names
  | tail _ names ih =>
    obtain ⟨n, first, m, between, start, middle, less⟩ := ih
    obtain ⟨k, again, p, last, same, stop, lower⟩ := namesEarlier placed names
    obtain rfl := placed.history.single k again m between (same.trans middle.symm)
    exact ⟨n, first, p, last, start, stop, Nat.lt_trans lower less⟩

theorem acyclic (r : Revision) : ¬ Relation.TransGen g.Names r r := by
  intro chain
  obtain ⟨n, first, m, last, same, again, less⟩ := chainEarlier placed chain
  rw [placed.history.single m last n first (again.trans same.symm)] at less
  exact Nat.lt_irrefl _ less

theorem rootsFirst {n : Node} (member : n ∈ g.nodes) (root : n.kind = .root) : n.parents = [] := by
  have absent := placed.rooted n member (decide_eq_true root)
  have named := placed.named n member
  have keys : n.version.parents.toList = [] := by
    rw [SortedSet.toList, SortedMap.keys, List.isEmpty_iff.1 absent, List.map_nil]
  rw [keys] at named
  exact List.map_eq_nil_iff.1 named

theorem sortedNodes {ns : List Node} (listed : ns.Perm g.layers.flatten)
    (sorted : ns.Pairwise fun a b => a.sequence ≤ b.sequence) : ns = g.nodes := by
  have same : ns.Perm g.nodes := listed.trans (List.reverse_perm g.layers).flatten.symm
  have numbered : g.nodes.Pairwise fun a b => a.sequence ≤ b.sequence := by
    rw [← List.pairwise_map (R := fun i j : Nat => i ≤ j), placed.numbered]
    exact List.pairwise_le_range
  refine same.eq_of_pairwise ?_ sorted numbered
  intro a b ha hb up down
  have first := placed.atPlace (same.subset ha)
  rw [Nat.le_antisymm up down, placed.atPlace hb] at first
  exact (Option.some.inj first).symm

theorem oneLayer {r : Revision} (known : g.contains r = true) :
    ∃! i : Nat, ∃ layer, g.layers[i]? = some layer ∧ ∃ n ∈ layer, n.revision = r := by
  obtain ⟨n, found⟩ := Option.isSome_iff_exists.1 known
  obtain ⟨member, same⟩ := findSound found
  obtain ⟨layer, inside, here⟩ := memNodes.1 member
  obtain ⟨i, place⟩ := List.mem_iff_getElem?.1 inside
  refine ⟨i, ⟨layer, place, n, here, same⟩, ?_⟩
  rintro j ⟨other, elsewhere, m, there, again⟩
  have listed := memNodes.2 ⟨other, List.mem_of_getElem? elsewhere, there⟩
  obtain rfl := placed.history.single m listed n member (again.trans same.symm)
  have distinct : g.layers.flatten.Nodup :=
    ((List.reverse_perm g.layers).flatten.nodup_iff).1 (List.Nodup.of_map _ placed.distinct)
  exact oneHolder distinct elsewhere place there here

end

structure Stores (config : Config) (log : List Version) (g : Graph) : Prop where
  configured : g.config = config
  layered : ∀ r, g.contains r = true →
    ∃! i : Nat, ∃ layer, g.layers[i]? = some layer ∧ ∃ n ∈ layer, n.revision = r
  distinct : (g.nodes.map Node.revision).Nodup
  counted : g.size = g.nodes.length
  numbered : g.nodes.map Node.sequence = List.range g.size
  sorted : ∀ ns, ns.Perm g.layers.flatten →
    (ns.Pairwise fun a b => a.sequence ≤ b.sequence) → ns = g.nodes
  inserted : g.nodes.map Node.version = log
  named : ∀ n ∈ g.nodes, n.parents.map Node.revision = n.version.parents.toList
  earlier : ∀ n ∈ g.nodes, ∀ p ∈ n.parents, p ∈ g.nodes ∧ p.sequence < n.sequence
  acyclic : ∀ r, ¬ Relation.TransGen g.Names r r
  apart : ∀ n ∈ g.nodes, n.revision ∉ n.version.parents.toList
  rooted : ∀ n ∈ g.nodes, n.kind = .root → n.parents = []
  deep : g.depth = g.layers.length
  filled : ∀ layer ∈ g.layers, layer ≠ []
  bounded : g.depth ≤ max 1 config.maxLayers
  bottomed : g.depth = 0 ↔ g.isEmpty = true

theorem bottom {g : Graph} (ordered : g.Ordered) (stacked : g.Stacked) :
    g.depth = 0 ↔ g.isEmpty = true := by
  rw [isEmpty, decide_eq_true_eq, ordered.counted, stacked.counted, List.length_eq_zero_iff,
    List.length_eq_zero_iff]
  constructor
  · intro absent
    rw [nodes, absent]
    rfl
  · intro absent
    refine List.eq_nil_iff_forall_not_mem.2 fun layer member => ?_
    obtain ⟨n, inside⟩ := List.exists_mem_of_ne_nil layer (stacked.filled layer member)
    have listed := memNodes.2 ⟨layer, member, inside⟩
    rw [absent] at listed
    exact List.not_mem_nil listed

theorem storedInLayers {config : Config} {g : Graph} {log : List Version}
    (grown : Grown config g log) : g.Stores config log := by
  have ordered := grown.reachable.ordered
  have placed := ordered.placed
  obtain ⟨stacked, configured⟩ := grown.stacked
  exact {
    configured := configured
    layered := fun _ => oneLayer placed
    distinct := placed.distinct
    counted := ordered.counted
    numbered := ordered.counted ▸ placed.numbered
    sorted := fun _ => sortedNodes placed
    inserted := grown.log
    named := placed.named
    earlier := placed.earlier
    acyclic := acyclic placed
    apart := fun n member own => acyclic placed n.revision (.single ⟨n, member, rfl, own⟩)
    rooted := fun _ => rootsFirst placed
    deep := stacked.counted
    filled := stacked.filled
    bounded := configured ▸ stacked.bounded
    bottomed := bottom ordered stacked }

/-- The third commit joins the layers of the first two, the view drops what the third one added, and
the last commit goes on from there. -/
theorem regrownStores : ∃ g, Grown ⟨2, 0⟩ g [.ofChanges 1 [] [], .ofChanges 2 [1] [],
    .ofChanges 4 [1, 2] []] ∧ g.Stores ⟨2, 0⟩ [.ofChanges 1 [] [], .ofChanges 2 [1] [],
    .ofChanges 4 [1, 2] []] ∧ g.depth = 2 := by
  have steps : ∃ a b c d g, (Graph.empty ⟨2, 0⟩ 0).commit [.ofChanges 1 [] []] 1 = .ok a ∧
      a.commit [.ofChanges 2 [1] []] 2 = .ok b ∧ b.commit [.ofChanges 3 [2] []] 3 = .ok c ∧
      c.depth = 1 ∧ c.view (.ofTime 2) 4 = .ok d ∧
      d.commit [.ofChanges 4 [1, 2] []] 5 = .ok g ∧ g.depth = 2 :=
    ⟨_, _, _, _, _, rfl, rfl, rfl, rfl, rfl, rfl, rfl⟩
  obtain ⟨a, b, c, d, g, first, second, third, _, back, last, deep⟩ := steps
  have joined : Grown ⟨2, 0⟩ c _ := .commit (.commit (.commit (.empty 0) first) second) third
  have grown : Grown ⟨2, 0⟩ g _ := .commit (.view joined back) last
  exact ⟨g, grown, storedInLayers grown, deep⟩

end Graph
end DocHistory
