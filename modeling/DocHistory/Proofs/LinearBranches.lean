import DocHistory.Proofs.BranchWrites

/-! Graphs whose branches are lines. Of two nodes of a branch one has the other in its past, and one
head has all of them in its past. This is kept when a branch is continued from its newest node. So
a merge of nodes of one branch is what the newest of them shows, and there are no conflicts. -/
namespace DocHistory
open Node

theorem Resolution.applyCalm {r : Resolution} (calm : r.conflicts = ∅) (n : Node) :
    (r.applyChanges n).conflicts = ∅ := by
  apply SortedMap.extGet
  intro path
  rw [applyConflicts, calm]
  split <;> rfl

namespace Graph

structure Linear (g : Graph) : Prop where
  led : ∀ n ∈ g.nodes, ∃ h, g.heads n.branch = [h] ∧ h.Reaches n
  chained : ∀ m ∈ g.nodes, ∀ n ∈ g.nodes, m.branch = n.branch → m.Reaches n ∨ n.Reaches m
  calm : ∀ n ∈ g.nodes, n.resolution.conflicts = ∅

theorem emptyLinear (config : Config) (fresh : Nat) : (Graph.empty config fresh).Linear where
  led _ member := absurd member List.not_mem_nil
  chained _ member := absurd member List.not_mem_nil
  calm _ member := absurd member List.not_mem_nil

namespace Linear
variable {g : Graph} (linear : g.Linear) (tracked : g.Tracked)
include linear

section
include tracked

theorem headsCases (branch : String) : g.heads branch = [] ∨ ∃ n, g.heads branch = [n] := by
  cases listed : g.heads branch with
  | nil => exact .inl rfl
  | cons n ns =>
    have head : n ∈ g.heads branch := listed ▸ List.mem_cons_self
    obtain ⟨leaf, rfl⟩ := (memHeads tracked).1 head
    obtain ⟨h, alone, _⟩ := linear.led n leaf.member
    rw [listed] at alone
    cases alone
    exact .inr ⟨n, rfl⟩

theorem active (branch : String) : g.isRetired branch = false := by
  refine Bool.eq_false_iff.2 fun retired => ?_
  have absent := retiredHeads retired
  rw [isRetired, Bool.and_eq_true, tracked.lists.branches] at retired
  obtain ⟨_, n, member, rfl⟩ := retired
  obtain ⟨h, alone, _⟩ := linear.led n member
  rw [absent] at alone
  cases alone

theorem joinedCalm {ns : List Node} (sub : ns ⊆ g.nodes)
    (one : ∀ m ∈ ns, ∀ n ∈ ns, m.branch = n.branch) : (joined ns).conflicts = ∅ := by
  have history := tracked.ordered.placed.history
  rw [(resolveHeads ns).2]
  split
  · rfl
  · rename_i h alone
    exact linear.calm h (sub (survivorsSubset ns (alone ▸ List.mem_singleton_self h)))
  · -- Of two nodes that are left neither would be in the past of the other.
    rename_i absent several
    cases left : survivors ns with
    | nil => exact absurd left absent
    | cons m rest =>
      cases rest with
      | nil => exact absurd left (several m)
      | cons n rest =>
        have first : m ∈ survivors ns := left ▸ List.mem_cons_self
        have second : n ∈ survivors ns := left ▸ List.mem_cons_of_mem _ List.mem_cons_self
        have ascend := survivorsAscend ns
        rw [left] at ascend
        have less := (List.pairwise_cons.1 ascend).1 n List.mem_cons_self
        obtain ⟨hm, topM⟩ := (memSurvivors history sub).1 first
        obtain ⟨hn, topN⟩ := (memSurvivors history sub).1 second
        have same : m = n := by
          rcases linear.chained m (sub hm) n (sub hn) (one m hm n hn) with later | earlier
          · exact topN m hm later
          · exact (topM n hn earlier).symm
        exact absurd (congrArg Node.revision same) (Entries.neOfLt less)

end

theorem continued {h : Graph} {n : Node} (continues : Continues g h n) (before : g.Tracked)
    (after : h.Tracked) : h.Linear := by
  have newest : ∀ m ∈ g.nodes, m.branch = n.branch → n.Reaches m := by
    intro m member same
    obtain ⟨head, alone, reaches⟩ := linear.led m member
    -- No branch is retired, so the newest node is the only head.
    have parent : head ∈ n.parents := by
      rw [continues.parents, frontierActive (linear.active before _), ← same, alone]
      exact List.mem_singleton_self head
    exact reachesThrough parent reaches
  have memNodes : ∀ m, m ∈ h.nodes ↔ m ∈ g.nodes ∨ m = n := by
    intro m
    rw [continues.nodes, List.mem_append, List.mem_singleton]
  constructor
  · intro m member
    by_cases same : m.branch = n.branch
    · refine ⟨n, same ▸ continues.heads before after, ?_⟩
      rcases (memNodes m).1 member with old | rfl
      · exact newest m old same
      · exact reachesSelf m
    · rcases (memNodes m).1 member with old | rfl
      · rw [continues.otherHeads before after same]
        exact linear.led m old
      · exact absurd rfl same
  · intro k hk m hm same
    rcases (memNodes k).1 hk with oldK | rfl <;> rcases (memNodes m).1 hm with oldM | rfl
    · exact linear.chained k oldK m oldM same
    · exact .inr (newest k oldK same)
    · exact .inl (newest m oldM same.symm)
    · exact .inl (reachesSelf _)
  · intro m member
    rcases (memNodes m).1 member with old | rfl
    · exact linear.calm m old
    · have parents : ∀ p ∈ m.parents, p ∈ g.nodes ∧ p.branch = m.branch := fun p parent =>
        frontierMember before ((continues.parents p).1 parent)
      rw [resolutionUnfold]
      refine Resolution.applyCalm (linear.joinedCalm before (fun p parent => (parents p parent).1)
        fun p hp q hq => ?_) m
      exact (parents p hp).2.trans (parents q hq).2.symm

end Linear
end Graph
end DocHistory
