import DocHistory.Proofs.BranchCover
import DocHistory.Proofs.BranchWrites

/-! Which nodes a branch is continued from. The newest nodes of a branch are those that no other node
of it descends from. The frontier holds the newest nodes, but if some of them are leaves of the
graph it holds these alone. Only a frontier with all newest nodes has the history of the branch
behind it, and the next version of the branch has seen what the frontier has. -/
namespace DocHistory
open Node

namespace Graph

structure Newest (g : Graph) (branch : String) (n : Node) : Prop where
  member : n ∈ g.nodes
  own : n.branch = branch
  top : ∀ m ∈ g.nodes, m.branch = branch → m.Reaches n → m = n

def ofBranch (g : Graph) (branch : String) : List Node := g.nodes.filter fun n => n.branch = branch

theorem memBranch {g : Graph} {branch : String} {n : Node} :
    n ∈ g.ofBranch branch ↔ n ∈ g.nodes ∧ n.branch = branch := by
  rw [ofBranch, List.mem_filter, decide_eq_true_eq]

theorem branchSubset (g : Graph) (branch : String) : g.ofBranch branch ⊆ g.nodes :=
  List.filter_subset_self _

section
variable {g : Graph} {branch : String} {n : Node}

theorem newestSurvives (history : History g.nodes) :
    n ∈ survivors (g.ofBranch branch) ↔ g.Newest branch n := by
  rw [memSurvivors history (g.branchSubset branch)]
  constructor
  · rintro ⟨member, top⟩
    obtain ⟨inside, own⟩ := memBranch.1 member
    exact ⟨inside, own, fun m later named => top m (memBranch.2 ⟨later, named⟩)⟩
  · intro newest
    refine ⟨memBranch.2 ⟨newest.member, newest.own⟩, fun m listed => ?_⟩
    obtain ⟨later, named⟩ := memBranch.1 listed
    exact newest.top m later named

theorem leafNewest (history : History g.nodes) (leaf : Leaf g.nodes n) : g.Newest n.branch n := by
  obtain ⟨_, top⟩ := (memSurvivors history (List.Subset.refl _)).1 ((leafSurvives history).2 leaf)
  exact ⟨leaf.member, rfl, fun m later _ => top m later⟩

theorem newestCovers (history : History g.nodes) (member : n ∈ g.nodes) (own : n.branch = branch) :
    ∃ m, g.Newest branch m ∧ m.Reaches n := by
  obtain ⟨m, survivor, path⟩ :=
    survivorsCover history (g.branchSubset branch) (memBranch.2 ⟨member, own⟩)
  exact ⟨m, (newestSurvives history).1 survivor, path⟩

variable (tracked : g.Tracked)
include tracked

theorem retiredIff : g.isRetired branch = true ↔
    g.heads branch = [] ∧ ∃ n ∈ g.nodes, n.branch = branch := by
  rw [isRetired, Bool.and_eq_true, List.isEmpty_iff, tracked.lists.branches]

theorem memFrontier : n ∈ g.frontier branch ↔
    g.Newest branch n ∧ ((∃ m, Leaf g.nodes m ∧ m.branch = branch) → Leaf g.nodes n) := by
  have history := tracked.ordered.placed.history
  cases retired : g.isRetired branch with
  | true =>
    have headless : ¬ ∃ m, Leaf g.nodes m ∧ m.branch = branch := by
      rintro ⟨m, head⟩
      have listed := (memHeads tracked).2 head
      rw [retiredHeads retired] at listed
      cases listed
    have newest : g.frontier branch = survivors (g.ofBranch branch) := by
      rw [frontier, retired]
      rfl
    rw [newest, newestSurvives history]
    exact (and_iff_left fun filled => absurd filled headless).symm
  | false =>
    rw [frontierActive retired, memHeads tracked]
    constructor
    · rintro ⟨leaf, rfl⟩
      exact ⟨leafNewest history leaf, fun _ => leaf⟩
    · rintro ⟨newest, headed⟩
      refine ⟨headed ?_, newest.own⟩
      by_contra none
      have heads : g.heads branch = [] :=
        List.eq_nil_iff_forall_not_mem.2 fun m listed => none ⟨m, (memHeads tracked).1 listed⟩
      rw [(retiredIff tracked).2 ⟨heads, n, newest.member, newest.own⟩] at retired
      cases retired

theorem frontierAscends :
    (g.frontier branch).Pairwise fun a b => compare a.revision b.revision = .lt := by
  rw [frontier]
  split
  · exact survivorsAscend _
  · exact headsAscend tracked branch

theorem frontierEmpty : g.frontier branch = [] ↔ branch ∉ g.branches := by
  have history := tracked.ordered.placed.history
  rw [branches, SortedMap.memKeys, tracked.lists.branches]
  constructor
  · rintro none ⟨n, member, own⟩
    have empty : ∀ m, ¬ (g.Newest branch m ∧
        ((∃ m, Leaf g.nodes m ∧ m.branch = branch) → Leaf g.nodes m)) := fun m newest => by
      have listed := (memFrontier tracked).2 newest
      rw [none] at listed
      cases listed
    obtain ⟨m, newest, _⟩ := newestCovers history member own
    refine empty m ⟨newest, fun headed => ?_⟩
    obtain ⟨k, leaf, named⟩ := headed
    exact absurd ⟨named ▸ leafNewest history leaf, fun _ => leaf⟩ (empty k)
  · intro unknown
    refine List.eq_nil_iff_forall_not_mem.2 fun n listed => unknown ?_
    obtain ⟨member, own⟩ := frontierMember tracked listed
    exact ⟨n, member, own⟩

theorem frontierApart : ∀ a ∈ g.frontier branch, ∀ b ∈ g.frontier branch,
    a.descendsFrom b.revision = true → a = b := by
  intro a ha b hb seen
  obtain ⟨first, _⟩ := (memFrontier tracked).1 ha
  obtain ⟨second, _⟩ := (memFrontier tracked).1 hb
  exact second.top a first.member first.own
    ((tracked.ordered.placed.history.descendsIff first.member second.member).1 seen)

theorem frontierCovers : (∀ n ∈ g.nodes, n.branch = branch → Past (g.frontier branch) n) ↔
    ∀ n, n ∈ g.frontier branch ↔ g.Newest branch n := by
  constructor
  · intro covered n
    refine ⟨fun listed => ((memFrontier tracked).1 listed).1, fun newest => ?_⟩
    obtain ⟨m, listed, path⟩ := covered n newest.member newest.own
    obtain ⟨member, own⟩ := frontierMember tracked listed
    exact newest.top m member own path ▸ listed
  · intro all n member own
    obtain ⟨m, newest, path⟩ := newestCovers tracked.ordered.placed.history member own
    exact ⟨m, (all m).2 newest, path⟩

end

theorem Continues.seen {g h : Graph} {n m : Node} (continues : Continues g h n)
    (tracked : h.Tracked) (member : m ∈ g.nodes) :
    n.descendsFrom m.revision = true ↔ Past (g.frontier n.branch) m := by
  have history := tracked.ordered.placed.history
  have placed := tracked.ordered.placed
  rw [continues.nodes] at placed
  obtain ⟨_, _, new, _⟩ := placed.splitLast
  have inside : n ∈ h.nodes ∧ m ∈ h.nodes := by
    rw [continues.nodes]
    exact ⟨List.mem_append_right _ (List.mem_singleton_self n), List.mem_append_left _ member⟩
  rw [history.descendsIff inside.1 inside.2]
  constructor
  · intro path
    rcases reachesCases path with rfl | ⟨p, parent, rest⟩
    · exact absurd rfl (new n member)
    · exact ⟨p, (continues.parents p).1 parent, rest⟩
  · rintro ⟨p, newest, rest⟩
    exact reachesThrough ((continues.parents p).2 newest) rest

def WholeFrontier (g : Graph) (branch : String) : Prop :=
  (∀ n, Leaf g.nodes n → n.branch ≠ branch) ∨ ∀ n, g.Newest branch n → Leaf g.nodes n

theorem wholeFrontier {g : Graph} (tracked : g.Tracked) {branch : String} :
    (∀ n, n ∈ g.frontier branch ↔ g.Newest branch n) ↔ g.WholeFrontier branch := by
  simp only [memFrontier tracked, and_iff_left_iff_imp]
  constructor
  · intro all
    by_cases filled : ∃ m, Leaf g.nodes m ∧ m.branch = branch
    · exact .inr fun n newest => all n newest filled
    · exact .inl fun n leaf named => filled ⟨n, leaf, named⟩
  · rintro (absent | all) n newest ⟨m, leaf, named⟩
    · exact absurd named (absent m leaf)
    · exact all n newest

theorem frontierNewest {g : Graph} (reachable : g.Reachable) (branch : String) :
    (∀ n, n ∈ g.frontier branch ↔ g.Newest branch n ∧
      ((∃ m, Leaf g.nodes m ∧ m.branch = branch) → Leaf g.nodes n)) ∧
    ((g.frontier branch).Pairwise fun a b => compare a.revision b.revision = .lt) ∧
    (∀ a ∈ g.frontier branch, ∀ b ∈ g.frontier branch,
      a.descendsFrom b.revision = true → a = b) ∧
    (g.frontier branch = [] ↔ branch ∉ g.branches) ∧
    ((∀ n, n ∈ g.frontier branch ↔ g.Newest branch n) ↔ g.WholeFrontier branch) ∧
    ((∀ n ∈ g.nodes, n.branch = branch →
      ∃ m ∈ g.frontier branch, m.descendsFrom n.revision = true) ↔ g.WholeFrontier branch) ∧
    ∀ outage id next revision fresh s h t,
      Repository.write outage id g branch next revision fresh s = (.ok h, t) → h = g ∨
        ∃ w, h.nodes = g.nodes ++ [w] ∧ w.branch = branch ∧
          ((∀ n ∈ g.nodes, n.branch = branch → w.descendsFrom n.revision = true) ↔
            g.WholeFrontier branch) := by
  have tracked := reachable.tracked
  have history := tracked.ordered.placed.history
  have covered : (∀ n ∈ g.nodes, n.branch = branch → Past (g.frontier branch) n) ↔
      g.WholeFrontier branch := (frontierCovers tracked).trans (wholeFrontier tracked)
  refine ⟨fun n => memFrontier tracked, frontierAscends tracked, frontierApart tracked,
    frontierEmpty tracked, wholeFrontier tracked, ?_, ?_⟩
  · rw [← covered]
    refine forall₂_congr fun n member => imp_congr_right fun own => exists_congr fun m =>
      and_congr_right fun listed => ?_
    exact history.descendsIff (frontierMember tracked listed).1 member
  · intro outage id next revision fresh s h t done
    obtain ⟨previous, _, ⟨_, same, _⟩ | ⟨_, extended⟩⟩ := Repository.writeOk tracked done
    · exact .inl same
    · obtain ⟨w, continues, version⟩ := revisedContinues tracked extended
      have own : w.branch = branch := congrArg Version.branch version
      refine .inr ⟨w, continues.nodes, own, ?_⟩
      rw [← covered, ← own]
      refine forall₂_congr fun n member => imp_congr_right fun _ => ?_
      exact continues.seen (commitTracked tracked extended) member

def halfRetired : Graph :=
  ofVersions [.ofChanges 1 [] [], .ofChanges 2 [] [],
    { Version.ofChanges 3 [1] [] with branch := "draft" }]

theorem frontierForgets : halfRetired.Reachable ∧ ∃ n, halfRetired.Newest defaultBranch n ∧
    n.revision = .ofTime 1 ∧
    (halfRetired.frontier defaultBranch).map Node.revision = [.ofTime 2] ∧
    ∀ m ∈ halfRetired.frontier defaultBranch, m.descendsFrom n.revision = false := by
  have reachable : halfRetired.Reachable := ofVersionsReachable _
  have history := reachable.history
  let n : Node := halfRetired.nodes.get ⟨0, by decide⟩
  have member : n ∈ halfRetired.nodes := List.get_mem _ _
  refine ⟨reachable, n, ⟨member, rfl, fun m inside own path => ?_⟩, rfl, rfl, by decide⟩
  have top : ∀ k ∈ halfRetired.nodes, k.branch = defaultBranch →
      k.descendsFrom n.revision = true → k.revision = n.revision := by decide
  exact history.single m inside n member
    (top m inside own ((history.descendsIff inside member).2 path))

theorem halfRetiredCovered : halfRetired.Reachable ∧
    ¬ halfRetired.WholeFrontier defaultBranch ∧ halfRetired.WholeFrontier "draft" := by
  have reachable : halfRetired.Reachable := ofVersionsReachable _
  obtain ⟨_, _, _, _, _, forgets, _⟩ := frontierNewest reachable defaultBranch
  obtain ⟨_, _, _, _, _, covers, _⟩ := frontierNewest reachable "draft"
  exact ⟨reachable, fun whole => absurd (forgets.2 whole) (by decide), covers.1 (by decide)⟩

end Graph
end DocHistory
