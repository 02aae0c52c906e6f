import DocHistory.Proofs.CacheTransparency

/-! Descent as reads of ancestries tell it. Whatever a cache has kept, let go of or filled halfway,
the ancestry of a node is read to its end and lists the revisions that parents lead to. So descent
orders the nodes of a graph, and against it runs the order of their insertion. -/
namespace DocHistory
open Node

namespace Cache

/-- What reads, admissions and evictions make of a cache, in any order. A fill is one step of a read
that is under way. -/
inductive Drifts (nodes : List Node) (start : Cache) : Cache → Prop where
  | stay : Drifts nodes start start
  | ancestry {c : Cache} (before : Drifts nodes start c) {n : Node} (member : n ∈ nodes) :
      Drifts nodes start ((Cache.ancestry n).run c).2
  | view {c : Cache} (before : Drifts nodes start c) {n : Node} (member : n ∈ nodes) :
      Drifts nodes start ((Cache.view n).run c).2
  | fillAncestry {c : Cache} (before : Drifts nodes start c) {n : Node} (member : n ∈ nodes) :
      Drifts nodes start (Cache.fillAncestry n c)
  | fillView {c : Cache} (before : Drifts nodes start c) {n : Node} (member : n ∈ nodes)
      {r : Resolution} {after : Cache} (depth : Nat)
      (computed : (computeView (viewWithin depth) n).run c = (r, after)) :
      Drifts nodes start (after.storeView n r)
  | enroll {c : Cache} (before : Drifts nodes start c) (p : Pool) (batch : List Node) :
      Drifts nodes start (c.enroll p batch)
  | evict {c : Cache} (before : Drifts nodes start c) (n : Node) : Drifts nodes start (c.evict n)

theorem Drifts.coherent {nodes : List Node} (identified : Identified nodes) {start c : Cache}
    (coherent : Coherent nodes start) (drifts : Drifts nodes start c) : Coherent nodes c := by
  induction drifts with
  | stay => exact coherent
  | ancestry before member ih => exact (readsAncestry identified member _ ih).2
  | view before member ih => exact (readsView identified member _ ih).2
  | @fillAncestry c before n member ih =>
    unfold Cache.fillAncestry
    rw [computeAncestryFits identified member ih]
    exact ih.storeAncestry identified member
  | @fillView c before n member r after depth computed ih =>
    have parents : ∀ p ∈ n.parents, Reads nodes (viewWithin depth p) p.resolution :=
      fun p parent => readsViewWithin identified depth (identified.closed n member p parent)
    obtain ⟨value, kept⟩ := readsComputeView identified member parents c ih
    rw [computed] at value kept
    obtain rfl : r = n.resolution := value
    exact kept.storeView identified member
  | enroll before p batch ih => exact ih.enroll p batch
  | evict before n ih => exact ih.evict n

def tells (c : Cache) (n m : Node) : Bool := ((descendsFrom n m.revision).run c).1

end Cache

structure DescentOrder (nodes : List Node) (descends : Node → Node → Prop) : Prop where
  reflexive : ∀ n ∈ nodes, descends n n
  transitive : ∀ a ∈ nodes, ∀ b ∈ nodes, ∀ c ∈ nodes, descends a b → descends b c → descends a c
  antisymmetric : ∀ a ∈ nodes, ∀ b ∈ nodes, descends a b → descends b a → a = b
  earlier : ∀ a ∈ nodes, ∀ b ∈ nodes, descends a b → a ≠ b → b.sequence < a.sequence

namespace Placed
variable {nodes : List Node} (placed : Placed nodes)
include placed

theorem reachesEarlier {a b : Node} (member : a ∈ nodes) (path : a.Reaches b) (apart : a ≠ b) :
    b.sequence < a.sequence := by
  obtain ⟨p, parent, rest⟩ := (reachesCases path).resolve_left apart
  refine Cache.pastEarlier (fun m q reached step => ?_) parent rest
  exact (placed.earlier m (placed.history.reached member reached) q step).2

theorem descentOrder {descends : Node → Node → Prop}
    (reached : ∀ a ∈ nodes, ∀ b ∈ nodes, descends a b ↔ a.Reaches b) :
    DescentOrder nodes descends := by
  constructor
  · intro n member
    exact (reached n member n member).2 (reachesSelf n)
  · intro a ha b hb c hc first rest
    have path := reachesTrans ((reached a ha b hb).1 first) ((reached b hb c hc).1 rest)
    exact (reached a ha c hc).2 path
  · intro a ha b hb forth back
    exact reachesAntisymm ((reached a ha b hb).1 forth) ((reached b hb a ha).1 back)
  · intro a ha b hb path apart
    exact placed.reachesEarlier ha ((reached a ha b hb).1 path) apart

end Placed

namespace Lineage

theorem Sound.tells {s : Lineage} (sound : s.Sound) {c : Cache}
    (coherent : Cache.Coherent s.nodes c) {g : Graph} (member : g ∈ s.graphs) {a b : Node}
    (ha : a ∈ g.nodes) (hb : b ∈ g.nodes) : c.tells a b = true ↔ a.Reaches b := by
  have answer := (Cache.readsDescends sound.identified (nodesOf member ha) b.revision c coherent).1
  have history := (sound.tracked g member).ordered.placed.history
  rw [Cache.tells, answer, history.descendsIff ha hb]

/-- Reads of ancestries do not depend on what they fall back on, answer the past of the node, and
order each graph by descent. -/
theorem ancestryIsPast (config : Config) (calls : List Call) {c : Cache}
    (drifts : Cache.Drifts ((start config).after calls).nodes ((start config).after calls).cache c) :
    (∀ n ∈ ((start config).after calls).nodes,
      (∀ last, Cache.ancestryOr last n = Cache.ancestry n) ∧
      ∀ r, ((Cache.ancestry n).run c).1.contains r = true ↔ ∃ m, n.Reaches m ∧ m.revision = r) ∧
    ∀ g ∈ ((start config).after calls).graphs,
      DescentOrder g.nodes (fun n m => c.tells n m = true) := by
  have sound := (startSound config).after calls
  generalize (start config).after calls = s at *
  have coherent := drifts.coherent sound.identified sound.coherent
  constructor
  · intro n member
    refine ⟨sound.readsEnd.ancestry n member, fun r => ?_⟩
    rw [(Cache.readsAncestry sound.identified member c coherent).1]
    exact descendsFromIff
  · intro g member
    exact (sound.tracked g member).ordered.placed.descentOrder fun a ha b hb =>
      sound.tells coherent member ha hb

def diamond : List Call :=
  [.make 0 (.commit [.ofChanges 1 [] [], .ofChanges 2 [1] [], .ofChanges 3 [1] [],
    .ofChanges 4 [2, 3] []]), .ask (.node 1 (.ofTime 4) .ancestry)]

theorem diamondOrdered : ∃ g ∈ ((start ⟨32, 2⟩).after diamond).graphs,
    ∃ a ∈ g.nodes, ∃ b ∈ g.nodes, ∃ c, Cache.Drifts ((start ⟨32, 2⟩).after diamond).nodes
      ((start ⟨32, 2⟩).after diamond).cache c ∧ (c.kept g).map Node.revision = [.ofTime 3] ∧
    b.revision = .ofTime 1 ∧ (∃ m, a.Reaches m ∧ m.revision = .ofTime 1) ∧
    c.tells a b = true ∧ b.sequence < a.sequence := by
  let s := (start ⟨32, 2⟩).after diamond
  let g := s.graphs.get ⟨1, by decide⟩
  let a := g.nodes.getLast (by decide)
  let b := g.nodes.head (by decide)
  have kept : ((s.cache.evict a).kept g).map Node.revision = [.ofTime 3] := by decide +kernel
  have listed : ((Cache.ancestry a).run (s.cache.evict a)).1.contains (.ofTime 1) = true := by
    decide +kernel
  have told : (s.cache.evict a).tells a b = true := by decide +kernel
  have graph : g ∈ s.graphs := List.get_mem _ _
  have last : a ∈ g.nodes := List.getLast_mem _
  have first : b ∈ g.nodes := List.head_mem _
  have drifts : Cache.Drifts s.nodes s.cache (s.cache.evict a) := .evict .stay a
  obtain ⟨past, ordered⟩ := ancestryIsPast ⟨32, 2⟩ diamond drifts
  have apart : a ≠ b := fun same => absurd (congrArg Node.sequence same) (by decide)
  have reached : ∃ m, a.Reaches m ∧ m.revision = .ofTime 1 :=
    ((past a (Sound.nodesOf graph last)).2 _).1 listed
  have earlier : b.sequence < a.sequence := (ordered g graph).earlier a last b first told apart
  exact ⟨g, graph, a, last, b, first, s.cache.evict a, drifts, kept, rfl, reached, told, earlier⟩

end Lineage
end DocHistory
