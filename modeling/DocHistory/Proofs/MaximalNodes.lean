import DocHistory.Proofs.BareNodes

/-! Merges of nodes from several graphs that agree on what each revision stands for. The heads of
such a merge are the maximal ones of the given nodes, and they alone decide the merge: order and
repetitions do not matter, nor do nodes that are ancestors of others. -/
namespace DocHistory
open Node

def Consistent (gs : List Graph) : Prop :=
  ∀ g ∈ gs, ∀ h ∈ gs, ∀ a ∈ g.nodes, ∀ b ∈ h.nodes, a.revision = b.revision →
    a.version = b.version

def Covers (ns ms : List Node) : Prop :=
  ∀ m ∈ ms, ∃ n ∈ ns, n.descendsFrom m.revision = true

theorem mapEqOfKeys {α β κ : Type} {f : α → β} {key : α → κ} {as bs : List α}
    (keys : as.map key = bs.map key) (same : ∀ a ∈ as, ∀ b ∈ bs, key a = key b → f a = f b) :
    as.map f = bs.map f := by
  induction as generalizing bs with
  | nil =>
    obtain rfl := List.map_eq_nil_iff.1 keys.symm
    rfl
  | cons a as ih =>
    cases bs with
    | nil => cases keys
    | cons b bs =>
      rw [List.map_cons, List.map_cons, List.cons.injEq] at keys
      rw [List.map_cons, List.map_cons, same a List.mem_cons_self b List.mem_cons_self keys.1,
        ih keys.2 fun c hc d hd => same c (List.mem_cons_of_mem _ hc) d (List.mem_cons_of_mem _ hd)]

namespace Node

def unplaced (n : Node) : Node := n.bare ⟨fun _ => 0, fun _ => 0⟩

theorem unplacedRevision (n : Node) : n.unplaced.revision = n.revision := bareRevision _ n

theorem unplacedDescends (n : Node) (r : Revision) :
    n.unplaced.descendsFrom r = n.descendsFrom r := bareDescends _ n r

theorem unplacedParents (n : Node) : n.unplaced.parents = n.parents.map unplaced := bareParents _ n

theorem bareEq (marks : Marks) {ns ms : List Node} (first : Placed ns) (second : Placed ms)
    (agree : ∀ a ∈ ns, ∀ b ∈ ms, a.revision = b.revision → a.version = b.version ∧
      marks.place a.sequence = marks.place b.sequence ∧ marks.name a.id = marks.name b.id)
    {a b : Node} (ha : a ∈ ns) (hb : b ∈ ms) (same : a.revision = b.revision) :
    a.bare marks = b.bare marks := by
  induction a using Node.induct generalizing b with
  | step a ih =>
    obtain ⟨version, place, name⟩ := agree a ha b hb same
    have keys : a.parents.map revision = b.parents.map revision := by
      rw [first.named a ha, second.named b hb, version]
    -- Both list their parents in the order of the version, so these can be compared in pairs.
    have parents : a.parents.map (bare marks) = b.parents.map (bare marks) := by
      refine mapEqOfKeys keys fun p hp q hq equal => ?_
      exact ih p hp (first.earlier a ha p hp).1 (second.earlier b hb q hq).1 equal
    rw [bareUnfold, bareUnfold marks b, version, parents, place, name]

theorem unplacedEq {ns ms : List Node} (first : Placed ns) (second : Placed ms)
    (agree : ∀ a ∈ ns, ∀ b ∈ ms, a.revision = b.revision → a.version = b.version) {a b : Node}
    (ha : a ∈ ns) (hb : b ∈ ms) (same : a.revision = b.revision) : a.unplaced = b.unplaced :=
  bareEq _ first second (fun a ha b hb same => ⟨agree a ha b hb same, rfl, rfl⟩) ha hb same

section
variable {gs : List Graph} (reachable : ∀ g ∈ gs, g.Reachable) (consistent : Consistent gs)
include reachable consistent

theorem unplacedHistory : History ((gs.flatMap Graph.nodes).map unplaced) where
  closed n member p parent := by
    obtain ⟨a, listed, rfl⟩ := List.mem_map.1 member
    obtain ⟨g, hg, ha⟩ := List.mem_flatMap.1 listed
    rw [unplacedParents] at parent
    obtain ⟨q, old, rfl⟩ := List.mem_map.1 parent
    have inside := (reachable g hg).history.closed a ha q old
    exact List.mem_map_of_mem (List.mem_flatMap.2 ⟨g, hg, inside⟩)
  single n hn m hm same := by
    obtain ⟨a, listed, rfl⟩ := List.mem_map.1 hn
    obtain ⟨b, other, rfl⟩ := List.mem_map.1 hm
    obtain ⟨g, hg, ha⟩ := List.mem_flatMap.1 listed
    obtain ⟨h, hh, hb⟩ := List.mem_flatMap.1 other
    rw [unplacedRevision, unplacedRevision] at same
    exact unplacedEq (reachable g hg).ordered.placed (reachable h hh).ordered.placed
      (consistent g hg h hh) ha hb same

variable {ns : List Node} (taken : ns ⊆ gs.flatMap Graph.nodes)
include taken

theorem unplacedReaches {m n : Node} (hm : m ∈ ns) (hn : n ∈ gs.flatMap Graph.nodes) :
    m.unplaced.Reaches n.unplaced ↔ m.descendsFrom n.revision = true := by
  rw [← (unplacedHistory reachable consistent).descendsIff (List.mem_map_of_mem (taken hm))
    (List.mem_map_of_mem hn), unplacedDescends, unplacedRevision]

theorem unplacedCovers {ms : List Node} (others : ms ⊆ gs.flatMap Graph.nodes)
    (covers : Covers ns ms) : ∀ m ∈ ms.map unplaced, Past (ns.map unplaced) m := by
  intro k member
  obtain ⟨m, listed, rfl⟩ := List.mem_map.1 member
  obtain ⟨n, here, seen⟩ := covers m listed
  exact ⟨n.unplaced, List.mem_map_of_mem here,
    (unplacedReaches reachable consistent taken here (others listed)).2 seen⟩

theorem unplacedSurvivor {r : Revision} :
    r ∈ (survivors (ns.map unplaced)).map revision ↔
      (∃ n ∈ ns, n.revision = r) ∧ ∀ o ∈ ns, o.descendsFrom r = true → o.revision = r := by
  have history := unplacedHistory reachable consistent
  have inside : ns.map unplaced ⊆ (gs.flatMap Graph.nodes).map unplaced := List.map_subset _ taken
  constructor
  · intro member
    obtain ⟨h, survivor, rfl⟩ := List.mem_map.1 member
    obtain ⟨listed, top⟩ := (memSurvivors history inside).1 survivor
    obtain ⟨n, here, rfl⟩ := List.mem_map.1 listed
    rw [unplacedRevision]
    refine ⟨⟨n, here, rfl⟩, fun o other seen => ?_⟩
    have path := (unplacedReaches reachable consistent taken other (taken here)).2 seen
    have same := congrArg revision (top o.unplaced (List.mem_map_of_mem other) path)
    rwa [unplacedRevision, unplacedRevision] at same
  · rintro ⟨⟨n, here, rfl⟩, top⟩
    refine List.mem_map.2 ⟨n.unplaced, (memSurvivors history inside).2 ?_, unplacedRevision n⟩
    refine ⟨List.mem_map_of_mem here, fun k listed path => ?_⟩
    obtain ⟨o, other, rfl⟩ := List.mem_map.1 listed
    have before := (unplacedReaches reachable consistent taken other (taken here)).1 path
    have same := top o other before
    refine history.single _ (inside listed) _ (inside (List.mem_map_of_mem here)) ?_
    rw [unplacedRevision, unplacedRevision, same]

end
end Node

namespace Merge

theorem ofNodesUnplaced {ns : List Node} (nonempty : ns ≠ []) : ofNodes ns =
    .ok (ofResolution ((survivors (ns.map unplaced)).map Node.revision)
      (joined (ns.map unplaced))) := by
  rw [← ofNodesBare ⟨fun _ => 0, fun _ => 0⟩]
  exact ofNodesOk fun empty => nonempty (List.map_eq_nil_iff.1 empty)

theorem maximalNodesDecide {gs : List Graph} (reachable : ∀ g ∈ gs, g.Reachable)
    (consistent : Consistent gs) {ns : List Node} (nonempty : ns ≠ [])
    (taken : ns ⊆ gs.flatMap Graph.nodes) :
    ∃ m, ofNodes ns = .ok m ∧ m.isEmpty = false ∧
      (∀ r, m.heads.contains r = true ↔
        (∃ n ∈ ns, n.revision = r) ∧ ∀ o ∈ ns, o.descendsFrom r = true → o.revision = r) ∧
      (∀ a ∈ ns, ∀ b ∈ ns, m.heads.contains a.revision = true → m.heads.contains b.revision = true →
        a.descendsFrom b.revision = true → a.revision = b.revision) ∧
      (∀ n ∈ ns, ∃ h ∈ ns, m.heads.contains h.revision = true ∧
        h.descendsFrom n.revision = true) ∧
      ∀ ms ⊆ gs.flatMap Graph.nodes, Covers ns ms → Covers ms ns → ofNodes ms = .ok m := by
  have history := unplacedHistory reachable consistent
  have inside : ns.map unplaced ⊆ (gs.flatMap Graph.nodes).map unplaced := List.map_subset _ taken
  have headIff := fun r => ofResolutionHeads (r := joined (ns.map unplaced)) (s := r).trans
    (unplacedSurvivor reachable consistent taken)
  have covered : ∀ n ∈ ns, ∃ h ∈ ns, h.unplaced ∈ survivors (ns.map unplaced) ∧
      h.descendsFrom n.revision = true := by
    intro n member
    obtain ⟨k, survivor, path⟩ :=
      (pastSurvivors history inside).2 (pastSelf (List.mem_map_of_mem member))
    obtain ⟨h, here, rfl⟩ := List.mem_map.1 (survivorsSubset _ survivor)
    exact ⟨h, here, survivor,
      (unplacedReaches reachable consistent taken here (taken member)).1 path⟩
  have headed : ∀ n ∈ ns, ∃ h ∈ ns, (ofResolution ((survivors (ns.map unplaced)).map Node.revision)
      (joined (ns.map unplaced))).heads.contains h.revision = true ∧
        h.descendsFrom n.revision = true := by
    intro n member
    obtain ⟨h, here, survivor, seen⟩ := covered n member
    refine ⟨h, here, ofResolutionHeads.2 ?_, seen⟩
    exact unplacedRevision h ▸ List.mem_map_of_mem survivor
  refine ⟨_, ofNodesUnplaced nonempty, ?_, headIff, ?_, headed, ?_⟩
  · obtain ⟨n, member⟩ := List.exists_mem_of_ne_nil ns nonempty
    obtain ⟨h, _, listed, _⟩ := headed n member
    exact SortedMap.notEmpty listed
  · intro a member b _ _ head seen
    exact ((headIff _).1 head).2 a member seen
  · intro ms others below above
    have filled : ms ≠ [] := by
      rintro rfl
      obtain ⟨n, member⟩ := List.exists_mem_of_ne_nil ns nonempty
      obtain ⟨_, absent, _⟩ := above n member
      exact absurd absent List.not_mem_nil
    have same := survivorsMutual history inside (List.map_subset _ others)
      (unplacedCovers reachable consistent taken others below)
      (unplacedCovers reachable consistent others taken above)
    rw [ofNodesUnplaced filled, same, joinedEq same]

end Merge

theorem consistentOf {gs : List Graph} (versions : List Version)
    (single : (versions.map Version.revision).Nodup)
    (each : ∀ g ∈ gs, g.nodes.map Node.version ⊆ versions) : Consistent gs := by
  intro g hg h hh a ha b hb same
  exact List.inj_on_of_nodup_map single (each g hg (List.mem_map_of_mem ha))
    (each h hh (List.mem_map_of_mem hb)) same

namespace Graph

def early : Graph :=
  ofVersions [.ofChanges 1 [] [(.ofName "x", some .null)], .ofChanges 2 [1] []]

def late : Graph :=
  ofVersions [.ofChanges 3 [] [], .ofChanges 1 [] [(.ofName "x", some .null)]]

theorem lateAncestorDropped : ∃ n ∈ early.nodes, ∃ a ∈ late.nodes, a ∉ early.nodes ∧
    ∃ m, Merge.ofNodes [a, n] = .ok m ∧ m.heads.contains (.ofTime 2) = true ∧
      m.heads.contains (.ofTime 1) = false ∧ Merge.ofNodes [n] = .ok m := by
  have reachable : ∀ g ∈ [early, late], g.Reachable :=
    List.forall_mem_cons.2 ⟨ofVersionsReachable _,
      List.forall_mem_singleton.2 (ofVersionsReachable _)⟩
  have consistent : Consistent [early, late] := by
    refine consistentOf [.ofChanges 3 [] [], .ofChanges 1 [] [(.ofName "x", some .null)],
      .ofChanges 2 [1] []] (by decide) (List.forall_mem_cons.2 ⟨?_, List.forall_mem_singleton.2 ?_⟩)
    · exact List.subset_cons_self _ _
    · exact List.subset_append_left (late.nodes.map Node.version) [.ofChanges 2 [1] []]
  let n : Node := early.nodes.getLast (by decide)
  let a : Node := late.nodes.getLast (by decide)
  have hn : n ∈ early.nodes := List.getLast_mem _
  have ha : a ∈ late.nodes := List.getLast_mem _
  have elsewhere : ∀ k ∈ early.nodes, k.revision = .ofTime 1 → k.sequence ≠ 1 := by decide
  have inside : ∀ k, k = a ∨ k = n → k ∈ [early, late].flatMap Graph.nodes := by
    rintro k (rfl | rfl)
    · exact List.mem_flatMap.2 ⟨late, List.mem_cons_of_mem _ List.mem_cons_self, ha⟩
    · exact List.mem_flatMap.2 ⟨early, List.mem_cons_self, hn⟩
  obtain ⟨m, done, _, headIff, _, _, decided⟩ :=
    Merge.maximalNodesDecide reachable consistent (List.cons_ne_nil a [n])
      fun k member => inside k (by simpa using member)
  refine ⟨n, hn, a, ha, fun both => elsewhere a both rfl rfl, m, done, ?_, ?_, ?_⟩
  · exact (headIff (.ofTime 2)).2 ⟨⟨n, by simp, rfl⟩, by decide⟩
  · refine Bool.eq_false_iff.2 fun listed => ?_
    have same := ((headIff (.ofTime 1)).1 listed).2 n (by simp) rfl
    cases same
  · refine decided [n] (fun k member => inside k (.inr (List.mem_singleton.1 member))) ?_ ?_
    · exact List.forall_mem_singleton.2 ⟨n, by simp, by decide⟩
    · exact List.forall_mem_cons.2 ⟨⟨n, by simp, by decide⟩,
        List.forall_mem_singleton.2 ⟨n, by simp, by decide⟩⟩

end Graph
end DocHistory
