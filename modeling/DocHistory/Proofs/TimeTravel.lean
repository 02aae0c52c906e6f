import DocHistory.Proofs.CommitOrder

/-! Views of the past, against a replay of the versions up to then on an empty graph. What was
accepted once is accepted again, and the nodes that a replay makes differ from those of the view in
identity alone. Views of views, and of what was committed later, show the same nodes. -/
namespace DocHistory
open Node

theorem revisionsOf {ns ms : List Node} (versions : ns.map version = ms.map version) :
    ns.map Node.revision = ms.map Node.revision := by
  have revisions := congrArg (List.map Version.revision) versions
  rw [List.map_map, List.map_map] at revisions
  exact revisions

theorem unnamedEq {ns ms : List Node} (first : Placed ns) (second : Placed ms)
    (versions : ns.map version = ms.map version) :
    ns.map (bare Marks.unnamed) = ms.map (bare Marks.unnamed) := by
  refine mapEqOfKeys (revisionsOf versions) fun a ha b hb same => ?_
  refine bareEq _ first second (fun a ha b hb same => ⟨?_, ?_, rfl⟩) ha hb same
  · exact versionsAgree second (versions ▸ List.Subset.refl _) a ha b hb same
  · have place := first.versionIndex ha
    rw [versions, same, second.versionIndex hb] at place
    exact place.symm

namespace Graph

namespace Staging

theorem addAgain {s : Staging} {ns : List Node} {n : Node} (placed : Placed (ns ++ [n]))
    (versions : s.nodes.map version = ns.map version) : ∃ t, s.add n.version = .ok t := by
  obtain ⟨_, _, new, parents⟩ := placed.splitLast
  have last : n ∈ ns ++ [n] := List.mem_append_right _ (List.mem_singleton_self n)
  -- Nodes are looked up by revision, so those made from the versions do for the given ones.
  have listed : ∀ r, (∃ m ∈ s.nodes, m.revision = r) ↔ ∃ m ∈ ns, m.revision = r := fun r => by
    rw [← List.mem_map, revisionsOf versions, List.mem_map]
  refine ⟨_, addSucceeds (placed.rooted n last) (findNone.2 ?_) fun r named => ?_⟩
  · intro m member same
    obtain ⟨k, old, equal⟩ := (listed n.revision).1 ⟨m, member, same⟩
    exact new k old equal
  · rw [← placed.named n last] at named
    obtain ⟨p, parent, same⟩ := List.mem_map.1 named
    obtain ⟨m, member, equal⟩ := (listed r).2 ⟨p, parents parent, same⟩
    exact Option.isSome_iff_ne_none.2 fun absent => findNone.1 absent m member equal

theorem replayRuns {ns : List Node} (placed : Placed ns) (config : Config) (first second : Nat) :
    ∃ s, (ns.map version).foldlM Staging.add
      { base := Graph.empty config first, headIndex := ∅, fresh := second } = .ok s := by
  induction ns using List.reverseRecOn with
  | nil => exact ⟨_, rfl⟩
  | append_singleton ns n ih =>
    obtain ⟨s, run⟩ := ih placed.splitLast.1
    have versions : s.nodes.map version = ns.map version := by
      obtain ⟨named, taken⟩ := commitRun (g := Graph.empty config first) run
      rw [nodes, named.base]
      exact taken
    obtain ⟨t, added⟩ := addAgain placed versions
    refine ⟨t, ?_⟩
    rw [List.map_append, List.foldlM_append, run]
    change [n.version].foldlM Staging.add s = .ok t
    rw [List.foldlM_cons, added]
    rfl

end Staging

theorem replayed {ns : List Node} (placed : Placed ns) (config : Config) (first second : Nat) :
    ∃ k, (Graph.empty config first).commit (ns.map Node.version) second = .ok k ∧
      k.nodes.map (bare Marks.unnamed) = ns.map (bare Marks.unnamed) := by
  obtain ⟨s, run⟩ := Staging.replayRuns placed config first second
  have done : (Graph.empty config first).commit (ns.map Node.version) second = .ok s.finish :=
    commitOk.2 ⟨s, run, rfl⟩
  obtain ⟨added, nodes, versions, _⟩ := commitAdds done
  have grown := Reachable.commit (.empty config first) done
  refine ⟨s.finish, done, unnamedEq grown.ordered.placed placed ?_⟩
  rw [nodes]
  exact versions

theorem viewFails {g : Graph} {r : Revision} {fresh : Nat} {e : GraphError} :
    g.view r fresh = .error e ↔ g.contains r = false ∧ e = .notFound r := by
  unfold view find contains
  cases g.find? r with
  | none => simp [bind, Except.bind, eq_comm]
  | some n =>
    simp only [bind, Except.bind]
    split <;> simp

section Views
variable {g : Graph} (tracked : g.Tracked)
include tracked

theorem viewAt {n : Node} (member : n ∈ g.nodes) (fresh : Nat) :
    ∃ h, g.view n.revision fresh = .ok h ∧ h.Tracked ∧
      h.nodes = g.nodes.take (n.sequence + 1) := by
  have found : g.find? n.revision = some n :=
    (findIff tracked.ordered.placed.history).2 ⟨member, rfl⟩
  cases done : g.view n.revision fresh with
  | error e =>
    have absent := (viewFails.1 done).1
    rw [contains, found] at absent
    cases absent
  | ok h =>
    obtain ⟨m, same, nodes⟩ := viewNodes tracked done
    obtain rfl := Option.some.inj (found.symm.trans same)
    exact ⟨h, rfl, viewTracked tracked done, nodes⟩

theorem memTake {n : Node} {k : Nat} :
    n ∈ g.nodes.take (k + 1) ↔ n ∈ g.nodes ∧ n.sequence ≤ k := by
  rw [← tracked.ordered.placed.cut, List.mem_filter, decide_eq_true_eq]

theorem viewReplays {n : Node} (member : n ∈ g.nodes) {fresh : Nat} {h : Graph}
    (done : g.view n.revision fresh = .ok h) (config : Config) (first second : Nat) :
    ∃ k, (Graph.empty config first).commit
        ((g.nodes.map Node.version).take (n.sequence + 1)) second = .ok k ∧
      InStep Marks.unnamed h k := by
  obtain ⟨_, same, seen, nodes⟩ := viewAt tracked member fresh
  cases done.symm.trans same
  obtain ⟨k, replay, equal⟩ := replayed seen.ordered.placed config first second
  rw [nodes, List.map_take] at replay
  have grown := Reachable.commit (.empty config first) replay
  exact ⟨k, replay, inStep seen grown.tracked equal.symm⟩

theorem viewAgain {n m : Node} (hn : n ∈ g.nodes) (hm : m ∈ g.nodes)
    (earlier : m.sequence ≤ n.sequence) {fresh : Nat} {h : Graph}
    (done : g.view n.revision fresh = .ok h) (i j : Nat) :
    ∃ a b, h.view m.revision i = .ok a ∧ g.view m.revision j = .ok b ∧ a.nodes = b.nodes ∧
      InStep Marks.unpooled a b := by
  obtain ⟨_, same, seen, nodes⟩ := viewAt tracked hn fresh
  cases done.symm.trans same
  have kept : m ∈ h.nodes := by
    rw [nodes]
    exact (memTake tracked).2 ⟨hm, earlier⟩
  obtain ⟨a, first, trackedA, nodesA⟩ := viewAt seen kept i
  obtain ⟨b, second, trackedB, nodesB⟩ := viewAt tracked hm j
  have equal : a.nodes = b.nodes := by
    rw [nodesA, nodesB, nodes, List.take_take, Nat.min_eq_left (by omega)]
  exact ⟨a, b, first, second, equal, inStep trackedA trackedB (congrArg _ equal)⟩

theorem viewForgets {n : Node} (member : n ∈ g.nodes) {fresh : Nat} {h : Graph}
    (done : g.view n.revision fresh = .ok h) {r : Revision}
    (later : ∀ m ∈ g.nodes, m.revision = r → n.sequence < m.sequence) (i : Nat) :
    h.view r i = .error (.notFound r) := by
  obtain ⟨_, same, _, nodes⟩ := viewAt tracked member fresh
  cases done.symm.trans same
  refine viewFails.2 ⟨?_, rfl⟩
  rw [contains, findNone.2, Option.isSome_none]
  intro m kept revision
  rw [nodes, memTake tracked] at kept
  exact absurd kept.2 (Nat.not_le.2 (later m kept.1 revision))

theorem commitKeeps {versions : List Version} {fresh : Nat} {h : Graph}
    (done : g.commit versions fresh = .ok h) {n : Node} (member : n ∈ g.nodes) :
    h.find n.revision = .ok n := by
  obtain ⟨added, nodes, _⟩ := commitAdds done
  have history := (commitTracked tracked done).ordered.placed.history
  refine (findOk _ _).2 ((findIff history).2 ⟨?_, rfl⟩)
  rw [nodes]
  exact List.mem_append_left _ member

theorem viewBefore {versions : List Version} {fresh : Nat} {h : Graph}
    (done : g.commit versions fresh = .ok h) (inhabited : g.isEmpty = false) :
    ∃ t, g.tip = some t ∧ ∀ i, ∃ k, h.view t.revision i = .ok k ∧ k.nodes = g.nodes ∧
      InStep Marks.unpooled k g := by
  have filled : g.nodes ≠ [] := by
    intro absent
    rw [isEmpty, tracked.ordered.counted, absent] at inhabited
    cases inhabited
  obtain ⟨added, nodes, _⟩ := commitAdds done
  let t := g.nodes.getLast filled
  have last : g.nodes.getLast? = some t := List.getLast?_eq_some_getLast filled
  have member : t ∈ h.nodes := by
    rw [nodes]
    exact List.mem_append_left _ (List.getLast_mem filled)
  refine ⟨t, tracked.last.trans last, fun i => ?_⟩
  obtain ⟨k, viewed, seen, shown⟩ := viewAt (commitTracked tracked done) member i
  have equal : k.nodes = g.nodes := by
    rw [shown, tracked.ordered.placed.lastSequence last, nodes, List.take_left]
  exact ⟨k, viewed, equal, inStep seen tracked (congrArg _ equal)⟩

end Views

theorem viewsAreReplays {g : Graph} (reachable : g.Reachable) :
    (∀ r fresh e, g.view r fresh = .error e ↔ g.contains r = false ∧ e = .notFound r) ∧
    (∀ n ∈ g.nodes, ∀ fresh, ∃ h, g.view n.revision fresh = .ok h ∧
      (∀ config first second, ∃ k, (Graph.empty config first).commit
          ((g.nodes.map Node.version).take (n.sequence + 1)) second = .ok k ∧
        InStep Marks.unnamed h k) ∧
      (∀ m ∈ g.nodes, m.sequence ≤ n.sequence → ∀ i j, ∃ a b, h.view m.revision i = .ok a ∧
        g.view m.revision j = .ok b ∧ a.nodes = b.nodes ∧ InStep Marks.unpooled a b) ∧
      ∀ r, (∀ m ∈ g.nodes, m.revision = r → n.sequence < m.sequence) → ∀ i,
        h.view r i = .error (.notFound r)) ∧
    ∀ versions fresh h, g.commit versions fresh = .ok h → g.isEmpty = false →
      (∀ n ∈ g.nodes, h.find n.revision = .ok n) ∧
      ∃ t, g.tip = some t ∧ ∀ i, ∃ k, h.view t.revision i = .ok k ∧ k.nodes = g.nodes ∧
        InStep Marks.unpooled k g := by
  have tracked := reachable.tracked
  refine ⟨fun _ _ _ => viewFails, fun n member fresh => ?_, fun _ _ h done inhabited => ?_⟩
  · obtain ⟨h, done, _⟩ := viewAt tracked member fresh
    refine ⟨h, done, viewReplays tracked member done, fun m other earlier => ?_, fun r later => ?_⟩
    · exact viewAgain tracked member other earlier done
    · exact viewForgets tracked member done later
  · exact ⟨fun n member => commitKeeps tracked done member, viewBefore tracked done inhabited⟩

/-- Seen from its first version, the graph is a replay of it and lacks the second; once more
versions follow, its last version still shows it. -/
theorem continuedTravels : ∃ h k l, continued.view (.ofTime 1) 2 = .ok h ∧
    (Graph.empty {} 0).commit [.ofChanges 1 [] []] 3 = .ok k ∧ InStep Marks.unnamed h k ∧
    h.view (.ofTime 2) 4 = .error (.notFound (.ofTime 2)) ∧
    continued.commit [.ofChanges 3 [1, 2] []] 5 = .ok l ∧
    ∃ m, l.view (.ofTime 2) 6 = .ok m ∧ InStep Marks.unpooled m continued := by
  obtain ⟨_, views, commits⟩ := viewsAreReplays (g := continued) (ofVersionsReachable _)
  let n : Node := continued.nodes.head (by decide)
  obtain ⟨h, viewed, replays, _, forgets⟩ := views n (List.head_mem _) 2
  obtain ⟨k, replay, same⟩ := replays {} 0 3
  have later : ∀ m ∈ continued.nodes, m.revision = .ofTime 2 → n.sequence < m.sequence := by decide
  obtain ⟨l, done⟩ : ∃ l, continued.commit [.ofChanges 3 [1, 2] []] 5 = .ok l := ⟨_, rfl⟩
  obtain ⟨_, t, tip, before⟩ := commits _ _ l done rfl
  have last : t.revision = .ofTime 2 := by
    have newest : continued.tip.map Node.revision = some (.ofTime 2) := rfl
    rw [tip] at newest
    exact Option.some.inj newest
  obtain ⟨m, shown, _, equal⟩ := before 6
  exact ⟨h, k, l, viewed, replay, same, forgets _ later 4, done, m, last ▸ shown, equal⟩

end Graph
end DocHistory
