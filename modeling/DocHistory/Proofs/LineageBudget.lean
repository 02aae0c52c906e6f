import Mathlib.Data.List.Perm.Subperm
import DocHistory.Proofs.CacheBudget

/-! How many nodes of a lineage keep what they derived. All graphs of a lineage share one pool, and
every call leaves it within its budget: of the nodes whose revision no other node of the lineage has,
no more keep anything than the pool may count. Versions that were committed to two graphs are not
held to it. -/
namespace DocHistory
open Node

namespace Graph

structure OfPool (g : Graph) (p : Pool) : Prop where
  own : g.pool = p
  shared : ∀ n ∈ g.nodes, n.pool = p

theorem emptyPool (config : Config) (fresh : Nat) :
    (Graph.empty config fresh).OfPool ⟨fresh, config.capacity⟩ :=
  ⟨rfl, fun _ absent => absurd absent List.not_mem_nil⟩

theorem Staging.addPool {s t : Staging} {v : Version} {p : Pool} (own : s.base.pool = p)
    (shared : ∀ n ∈ s.nodes, n.pool = p) (done : s.add v = .ok t) :
    t.base.pool = p ∧ ∀ n ∈ t.nodes, n.pool = p := by
  obtain ⟨_, _, ps, _, rfl⟩ := Staging.addOk.1 done
  refine ⟨own, fun n member => ?_⟩
  rw [Staging.nodesPush, List.mem_append, List.mem_singleton] at member
  rcases member with old | rfl
  · exact shared n old
  · exact own

variable {g h : Graph} {p : Pool} {fresh : Nat}

theorem commitPool {versions : List Version} (pooled : g.OfPool p)
    (done : g.commit versions fresh = .ok h) : h.OfPool p := by
  obtain ⟨s, run, rfl⟩ := commitOk.1 done
  obtain ⟨own, shared⟩ : s.base.pool = p ∧ ∀ n ∈ s.nodes, n.pool = p := by
    refine Staging.runKeeps (P := fun s => s.base.pool = p ∧ ∀ n ∈ s.nodes, n.pool = p)
      (fun kept added => Staging.addPool kept.1 kept.2 added) ⟨pooled.own, ?_⟩ run
    simpa [Staging.nodes] using pooled.shared
  constructor
  · unfold Staging.finish
    split <;> exact own
  · rwa [Staging.finishNodes]

theorem viewPool {r : Revision} (pooled : g.OfPool p) (done : g.view r fresh = .ok h) :
    h.OfPool p := by
  have sub := viewSubset done
  refine ⟨?_, fun n member => pooled.shared n (sub member)⟩
  rcases viewCases done with rfl | ⟨_, rfl⟩ <;> exact pooled.own

end Graph

theorem Change.poolKept {g h : Graph} {p : Pool} {fresh : Nat} {change : Change}
    (pooled : g.OfPool p) (done : change.apply g fresh = .ok h) : h.OfPool p := by
  cases change with
  | commit versions => exact Graph.commitPool pooled done
  | view r => exact Graph.viewPool pooled done

namespace Lineage

structure Thrifty (s : Lineage) (p : Pool) : Prop where
  sound : s.Sound
  bounded : 0 < p.capacity
  pools : ∀ g ∈ s.graphs, g.OfPool p
  budgeted : Cache.Budgeted s.nodes p (fun _ => False) s.cache

namespace Thrifty
variable {s : Lineage} {p : Pool} (thrifty : s.Thrifty p)
include thrifty

theorem pooled : Cache.Pooled s.nodes p where
  identified := thrifty.sound.identified
  bounded := thrifty.bounded
  shared n member := by
    obtain ⟨g, graph, inside⟩ := List.mem_flatMap.1 member
    exact (thrifty.pools g graph).shared n inside

theorem responds (query : Query) : Cache.Stays s.nodes p (s.respond query) := by
  have pooled := thrifty.pooled
  cases query with
  | graph i query =>
    rw [respond]
    cases found : s.graphs[i]? with
    | none => exact Cache.staysPure _
    | some g =>
      have member := List.mem_of_getElem? found
      exact query.stays pooled (thrifty.sound.tracked g member) (Sound.nodesOf member)
  | node i r query =>
    rw [respond]
    cases found : s.locate (i, r) with
    | error a => exact Cache.staysPure _
    | ok n => exact query.stays pooled (Sound.locatedNode found)
  | sameGraph i j =>
    rw [respond]
    cases s.graphs[i]? <;> cases s.graphs[j]? <;> exact Cache.staysPure _
  | sameNode i j r =>
    rw [respond]
    cases s.locate (i, r) <;> cases s.locate (j, r) <;> exact Cache.staysPure _
  | merge places =>
    rw [respond]
    cases found : places.mapM s.locate with
    | error a => exact Cache.staysPure _
    | ok ns =>
      exact Cache.staysBind (Cache.staysMerge pooled (Sound.locatedNodes found))
        fun _ => Cache.staysPure _
  | evictGraph i =>
    rw [respond]
    cases s.graphs[i]? with
    | none => exact Cache.staysPure _
    | some g => exact fun _ _ budgeted => budgeted.evictAll g.nodes
  | evictNode i r =>
    rw [respond]
    cases s.locate (i, r) with
    | error a => exact Cache.staysPure _
    | ok n => exact fun _ _ budgeted => budgeted.evictAll [n]
  | report i what =>
    rw [respond]
    cases s.graphs[i]? with
    | none => exact Cache.staysPure _
    | some g => exact fun _ _ budgeted => budgeted

theorem step (call : Call) : (s.step call).2.Thrifty p := by
  have sound := thrifty.sound.stepSound call
  cases call with
  | ask query =>
    exact ⟨sound, thrifty.bounded, thrifty.pools, thrifty.responds query _ _ thrifty.budgeted⟩
  | make i change =>
    rw [Lineage.step] at sound ⊢
    cases found : s.graphs[i]? with
    | none => exact thrifty
    | some g =>
      have member := List.mem_of_getElem? found
      rw [found] at sound
      dsimp only at sound ⊢
      cases done : change.apply g s.fresh with
      | error e => exact thrifty
      | ok h =>
        rw [done] at sound
        refine ⟨sound, thrifty.bounded, fun k listed => ?_, thrifty.budgeted.grow ?_ ?_⟩
        · rcases List.mem_append.1 listed with old | last
          · exact thrifty.pools k old
          · exact List.mem_singleton.1 last ▸ Change.poolKept (thrifty.pools g member) done
        · intro n known
          obtain ⟨k, graph, inside⟩ := List.mem_flatMap.1 known
          exact Sound.nodesOf (List.mem_append_left _ graph) inside
        · intro n known
          obtain ⟨k, graph, inside⟩ := List.mem_flatMap.1 known
          rcases List.mem_append.1 graph with old | last
          · exact .inl (Sound.nodesOf old inside)
          · have grows := Change.grows
              (fun m old => thrifty.sound.below m (Sound.nodesOf member old)) done
            rcases grows.added n (List.mem_singleton.1 last ▸ inside) with old | fresh
            · exact .inl (Sound.nodesOf member old)
            · exact .inr fun m old => Nat.ne_of_lt
                (Nat.lt_of_lt_of_le (thrifty.sound.below m old) fresh.1)

theorem after (calls : List Call) : (s.after calls).Thrifty p := by
  induction calls generalizing s with
  | nil => exact thrifty
  | cons call calls ih => exact ih (thrifty.step call)

theorem keptWithin {ns : List Node} (sub : ns ⊆ s.nodes) (nodup : ns.Nodup)
    (own : ∀ n ∈ ns, s.cache.keeps n = true ∧ ¬ Doubled s.nodes n) : ns.length ≤ p.capacity := by
  have counted : ns ⊆ s.cache.residentsOf p := by
    intro n member
    obtain ⟨filled, single⟩ := own n member
    exact (thrifty.budgeted.admitted n (sub member) filled).resolve_right
      fun excused => excused.elim id single
  exact Nat.le_trans (nodup.subperm counted).length_le thrifty.budgeted.room

end Thrifty

theorem startThrifty {config : Config} (bounded : 0 < config.capacity) :
    (start config).Thrifty ⟨0, config.capacity⟩ where
  sound := startSound config
  bounded := bounded
  pools _ member := List.mem_singleton.1 member ▸ Graph.emptyPool config 0
  budgeted := .empty _ _ _

theorem poolBounds (config : Config) (bounded : 0 < config.capacity) (calls : List Call) :
    (∀ ns ⊆ ((start config).after calls).nodes, ns.Nodup →
      (∀ n ∈ ns, ((start config).after calls).cache.keeps n = true ∧
        ¬ Doubled ((start config).after calls).nodes n) → ns.length ≤ config.capacity) ∧
    ∀ (i : Nat) (g : Graph), ((start config).after calls).graphs[i]? = some g →
      (∀ n ∈ g.nodes, ¬ Doubled ((start config).after calls).nodes n) → ∃ count,
        (((start config).after calls).step (.ask (.report i .kept))).1 = .number count ∧
          count ≤ config.capacity := by
  have thrifty := (startThrifty bounded).after calls
  generalize (start config).after calls = s at thrifty
  refine ⟨fun ns sub nodup own => thrifty.keptWithin sub nodup own, fun i g found single => ?_⟩
  have member := List.mem_of_getElem? found
  refine ⟨(s.cache.kept g).length, ?_, thrifty.keptWithin ?_ ?_ ?_⟩
  · rw [Lineage.step, respond, found]
    rfl
  · exact fun n kept => Sound.nodesOf member (List.mem_filter.1 kept).1
  · exact (List.Nodup.of_map _ (thrifty.sound.tracked g member).ordered.placed.distinct).filter _
  · intro n kept
    obtain ⟨inside, filled⟩ := List.mem_filter.1 kept
    exact ⟨filled, single n inside⟩

def sharedVersion : List Call :=
  [.make 0 (.commit [.ofChanges 1 [] [], .ofChanges 2 [] []]),
    .make 0 (.commit [.ofChanges 1 [] []]),
    .ask (.node 1 (.ofTime 1) .ancestry),
    .ask (.node 2 (.ofTime 1) .ancestry),
    .ask (.node 1 (.ofTime 2) .ancestry)]

/-- The second node of the version takes the place of the first, which keeps its ancestry. -/
theorem sharedVersionKept : (((start ⟨32, 1⟩).after sharedVersion).step
    (.ask (.report 1 .kept))).1 = .number 2 := by
  rfl

theorem unsharedVersionBounded : 0 < (⟨32, 1⟩ : Config).capacity ∧ ∃ count,
    (((start ⟨32, 1⟩).after (sharedVersion.eraseIdx 1)).step (.ask (.report 1 .kept))).1 =
      .number count ∧ count ≤ 1 := by
  let s := (start ⟨32, 1⟩).after (sharedVersion.eraseIdx 1)
  have names : ∀ n ∈ s.nodes, ∀ m ∈ s.nodes, m.revision = n.revision → m.id = n.id := by decide
  have single : ∀ n ∈ s.nodes, ¬ Doubled s.nodes n := by
    rintro n member ⟨m, other, same, different⟩
    exact different (((startSound _).after _).single m other n member (names n member m other same))
  let g := s.graphs.get ⟨1, by decide⟩
  have member : g ∈ s.graphs := List.get_mem _ _
  exact ⟨by decide, (poolBounds ⟨32, 1⟩ (by decide) (sharedVersion.eraseIdx 1)).2 1 g rfl
    fun n inside => single n (Sound.nodesOf member inside)⟩

end Lineage
end DocHistory
