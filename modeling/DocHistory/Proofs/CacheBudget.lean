import DocHistory.Proofs.CacheTransparency
import DocHistory.Proofs.PoolAdmission

/-! Which nodes keep what they derived. The nodes that keep something are counted by the pool, but
for nodes with a revision that another node has as well. The invariant speaks of pending nodes too:
a read may run while the fill of an outer read has stored what it has not admitted yet. -/
namespace DocHistory
open Node

namespace Cache

def Stays {α : Type} (nodes : List Node) (p : Pool) (m : StateM Cache α) : Prop :=
  ∀ pending c, Budgeted nodes p pending c → Budgeted nodes p pending (m.run c).2

section Steps
variable {α β : Type} {nodes : List Node} {p : Pool}

theorem staysPure (a : α) : Stays nodes p (pure a : StateM Cache α) := fun _ _ budgeted => budgeted

theorem staysBind {m : StateM Cache α} {f : α → StateM Cache β} (first : Stays nodes p m)
    (next : ∀ a, Stays nodes p (f a)) : Stays nodes p (m >>= f) :=
  fun pending c budgeted => next _ pending _ (first pending c budgeted)

theorem staysThen {m : StateM Cache α} {f : α → StateM Cache β} {a : α} (read : Reads nodes m a)
    (first : Stays nodes p m) (next : Stays nodes p (f a)) : Stays nodes p (m >>= f) := by
  intro pending c budgeted
  have kept := next pending _ (first pending c budgeted)
  rwa [← (read c budgeted.coherent).1] at kept

theorem staysMap {m : StateM Cache α} (f : α → β) (first : Stays nodes p m) :
    Stays nodes p (f <$> m) := by
  rw [map_eq_pure_bind]
  exact staysBind first fun _ => staysPure _

theorem staysAll {f : α → StateM Cache β} {as : List α} (each : ∀ a ∈ as, Stays nodes p (f a)) :
    Stays nodes p (as.mapM f) := by
  induction as with
  | nil => exact staysPure _
  | cons a as ih =>
    rw [List.mapM_cons]
    refine staysBind (each a List.mem_cons_self) fun _ => staysBind ?_ fun _ => staysPure _
    exact ih fun b member => each b (List.mem_cons_of_mem _ member)

theorem staysAny {f : α → StateM Cache Bool} {as : List α}
    (each : ∀ a ∈ as, Stays nodes p (f a)) : Stays nodes p (as.anyM f) := by
  induction as with
  | nil => exact staysPure _
  | cons a as ih =>
    rw [List.anyM]
    refine staysBind (each a List.mem_cons_self) fun found => ?_
    cases found with
    | true => exact staysPure _
    | false => exact ih fun b member => each b (List.mem_cons_of_mem _ member)

theorem staysFilter {f : α → StateM Cache Bool} {as : List α}
    (each : ∀ a ∈ as, Stays nodes p (f a)) : Stays nodes p (as.filterM f) := by
  have kept : ∀ found, Stays nodes p (as.filterAuxM f found) := by
    induction as with
    | nil => exact fun _ => staysPure _
    | cons a as ih =>
      intro found
      rw [List.filterAuxM]
      exact staysBind (each a List.mem_cons_self) fun _ =>
        ih (fun b member => each b (List.mem_cons_of_mem _ member)) _
  exact staysBind (kept []) fun _ => staysPure _

end Steps

structure Pooled (nodes : List Node) (p : Pool) : Prop where
  identified : Identified nodes
  bounded : 0 < p.capacity
  shared : ∀ n ∈ nodes, n.pool = p

section Fills
variable {nodes : List Node} {p : Pool} (pooled : Pooled nodes p) {pending : Node → Prop}
  {c : Cache}
include pooled

theorem sweepStays (isFilled : Cache → Node → Bool) {fill : Node → Cache → Cache} {n : Node}
    (member : n ∈ nodes)
    (fills : ∀ m ∈ nodes, ∀ pending c, Budgeted nodes p pending c →
      Budgeted nodes p (fun k => k = m ∨ pending k) (fill m c))
    (budgeted : Budgeted nodes p pending c) :
    (Sweep.run isFilled fill n.parents c).2 ⊆ nodes ∧
      Budgeted nodes p (fun k => k ∈ (Sweep.run isFilled fill n.parents c).2 ∨ pending k)
        (Sweep.run isFilled fill n.parents c).1 := by
  let run := Sweep.run isFilled fill n.parents c
  have swept : run.2.reverse ⊆ nodes ∧
      Budgeted nodes p (fun k => k ∈ run.2.reverse ∨ pending k) run.1 := by
    refine Sweep.runTraces
      (P := fun d ms => ms ⊆ nodes ∧ Budgeted nodes p (fun k => k ∈ ms ∨ pending k) d)
      (fun m before d ms ⟨sub, kept⟩ => ?_)
      ⟨List.nil_subset _, budgeted.widen fun _ => .inr⟩
    obtain ⟨q, parent, path⟩ := before
    have inside := pooled.identified.reached member (reachesThrough parent path)
    refine ⟨List.cons_subset.2 ⟨inside, sub⟩, (fills m inside _ d kept).widen fun k => ?_⟩
    rw [List.mem_cons, or_assoc]
    exact id
  exact ⟨fun k filled => swept.1 (List.mem_reverse.2 filled),
    swept.2.widen fun k => Or.imp_left List.mem_reverse.1⟩

theorem admitStays {n : Node} {s : Slots} {filled : List Node} (member : n ∈ nodes)
    (sub : filled ⊆ nodes) (fits : s.Fits n)
    (budgeted : Budgeted nodes p (fun k => k ∈ filled ∨ pending k) c) :
    Budgeted nodes p pending
      ({ c with slots := c.slots.insert n.id s }.enroll n.pool (filled ++ [n])) := by
  rw [pooled.shared n member]
  refine .enroll pooled.bounded
    (List.append_subset.2 ⟨sub, List.cons_subset.2 ⟨member, List.nil_subset _⟩⟩) ?_
  refine (budgeted.store pooled.identified member fits).widen fun k => ?_
  rw [List.mem_append, List.mem_singleton, or_assoc]
  exact or_left_comm.1

theorem ancestryFits {n : Node} (member : n ∈ nodes) (coherent : Coherent nodes c) :
    Slots.Fits { c.slotsOf n with ancestry := some (c.computeAncestry n) } n where
  ancestry a same := by
    rw [← Option.some.inj same, computeAncestryFits pooled.identified member coherent]
  view := (coherent.fits pooled.identified member).view

theorem viewFits {n : Node} {r : Resolution} (member : n ∈ nodes) (coherent : Coherent nodes c)
    (answers : r = n.resolution) : Slots.Fits { c.slotsOf n with view := some r } n where
  ancestry := (coherent.fits pooled.identified member).ancestry
  view s same := by rw [← Option.some.inj same, answers]

omit pooled in
theorem ancestryRun (n : Node) (c : Cache) : (ancestry n).run c =
    match (c.slotsOf n).ancestry with
    | some a => (a, c)
    | none =>
      let s := Sweep.run hasAncestry fillAncestry n.parents c
      let a := s.1.computeAncestry n
      (a, (s.1.storeAncestry n a).enroll n.pool (s.2 ++ [n])) :=
  ancestryOrRun Node.ancestry n c

theorem staysAncestry {n : Node} (member : n ∈ nodes) : Stays nodes p (ancestry n) := by
  intro pending c budgeted
  rw [ancestryRun]
  split
  · exact budgeted
  · have fills : ∀ m ∈ nodes, ∀ pending c, Budgeted nodes p pending c →
        Budgeted nodes p (fun k => k = m ∨ pending k) (fillAncestry m c) :=
      fun m inside _ _ kept =>
        kept.store pooled.identified inside (ancestryFits pooled inside kept.coherent)
    obtain ⟨sub, swept⟩ := sweepStays pooled hasAncestry member fills budgeted
    exact admitStays pooled member sub (ancestryFits pooled member swept.coherent) swept

theorem staysDescends {n : Node} (member : n ∈ nodes) (r : Revision) :
    Stays nodes p (descendsFrom n r) :=
  staysBind (staysAncestry pooled member) fun _ => staysPure _

theorem staysPaired {ns : List Node} (sub : ns ⊆ nodes) :
    Stays nodes p (ns.mapM fun n => do return (n, ← ancestry n)) :=
  staysAll fun _ member => staysBind (staysAncestry pooled (sub member)) fun _ => staysPure _

end Fills

section Merges
variable {nodes : List Node} {p : Pool} (pooled : Pooled nodes p)
include pooled

section Contests
variable {k : Contest} (known : ∀ e ∈ k.rivals, e.writer ∈ nodes)
include known

theorem staysOvertaken (r : Revision) : Stays nodes p (overtaken k r) := by
  refine staysAny fun e rival => ?_
  split
  · exact staysPure _
  · exact staysDescends pooled (known e rival) r

theorem staysFresh (e : LastWrite) : Stays nodes p (isFresh k e) := by
  unfold isFresh
  split
  · exact staysPure _
  · refine staysBind (staysOvertaken pooled known e.revision) fun seen => ?_
    split <;> exact staysPure _

theorem staysCarried (w : Write) : Stays nodes p (isCarried k w) := by
  unfold isCarried
  split
  · exact staysPure _
  · split
    · exact staysPure _
    · exact staysBind (staysOvertaken pooled known w.revision) fun _ => staysPure _

theorem staysConflicts : Stays nodes p (conflicts k) :=
  staysBind (staysFilter fun e _ => staysFresh pooled known e) fun _ =>
    staysBind (staysFilter fun w _ => staysCarried pooled known w) fun _ => staysPure _

end Contests

theorem staysOutcomes {heads : List Head} (grounded : Grounded nodes heads) (paths : List Path) :
    Stays nodes p (outcomes heads paths) := by
  induction paths with
  | nil => exact staysPure _
  | cons path paths ih =>
    rw [outcomes]
    split
    · exact ih
    · rename_i k found
      exact staysBind (staysConflicts pooled (grounded.rivals found)) fun _ =>
        staysBind ih fun _ => staysPure _

variable {view : Node → StateM Cache Resolution}

theorem staysResolveBy {requested : List Node} (sub : requested ⊆ nodes)
    (views : ∀ n ∈ requested, Reads nodes (view n) n.resolution)
    (stays : ∀ n ∈ requested, Stays nodes p (view n)) :
    Stays nodes p (resolveBy view requested) := by
  have candidates : distinct Node.revision requested ⊆ nodes :=
    fun _ member => sub (distinctSubset member)
  refine staysThen (readsPaired pooled.identified candidates) (staysPaired pooled candidates) ?_
  rw [maximalPaired, ← survivors]
  have kept : survivors requested ⊆ requested := survivorsSubset requested
  generalize survivors requested = hs at kept
  rcases hs with _ | ⟨h, _ | ⟨k, hs⟩⟩
  · exact staysPure _
  · exact staysBind (stays h (kept List.mem_cons_self)) fun _ => staysPure _
  · have inside : h :: k :: hs ⊆ nodes := fun _ member => sub (kept member)
    refine staysThen (readsAll fun n member => views n (kept member))
      (staysAll fun n member => stays n (kept member)) ?_
    refine staysThen (readsAll fun n member => readsAncestry pooled.identified (inside member))
      (staysAll fun n member => staysAncestry pooled (inside member)) ?_
    rw [zipHeads]
    exact staysBind (staysOutcomes pooled (groundedHeads pooled.identified inside) _)
      fun _ => staysPure _

theorem staysComputeView {n : Node} (member : n ∈ nodes)
    (views : ∀ q ∈ n.parents, Reads nodes (view q) q.resolution)
    (stays : ∀ q ∈ n.parents, Stays nodes p (view q)) : Stays nodes p (computeView view n) := by
  have parents : n.parents ⊆ nodes := pooled.identified.closed n member
  unfold computeView
  generalize n.parents = ps at views stays parents
  rcases ps with _ | ⟨q, _ | ⟨r, ps⟩⟩
  · exact staysBind (staysPure _) fun _ => staysPure _
  · exact staysBind (stays q List.mem_cons_self) fun _ => staysPure _
  · exact staysBind (staysMap (·.2) (staysResolveBy pooled parents views stays))
      fun _ => staysPure _

def fillView (view : Node → StateM Cache Resolution) (n : Node) (c : Cache) : Cache :=
  ((computeView view n).run c).2.storeView n ((computeView view n).run c).1

omit pooled in
theorem viewWithinRun (depth : Nat) (n : Node) (c : Cache) : (viewWithin (depth + 1) n).run c =
    match (c.slotsOf n).view with
    | some r => (r, c)
    | none =>
      let s := Sweep.run hasView (fillView (viewWithin depth)) n.parents ((ancestry n).run c).2
      (((computeView (viewWithin depth) n).run s.1).1,
        (fillView (viewWithin depth) n s.1).enroll n.pool (s.2 ++ [n])) := by
  change (match (c.slotsOf n).view with
    | some r => _
    | none => _ : StateM Cache Resolution) c = _
  cases (c.slotsOf n).view <;> rfl

theorem staysViewWithin (depth : Nat) {n : Node} (member : n ∈ nodes) :
    Stays nodes p (viewWithin depth n) := by
  induction depth generalizing n with
  | zero => exact staysPure _
  | succ depth ih =>
    have views : ∀ m ∈ nodes, ∀ q ∈ m.parents,
        Reads nodes (viewWithin depth q) q.resolution := fun m inside q parent =>
      readsViewWithin pooled.identified depth (pooled.identified.closed m inside q parent)
    -- What is pending for an outer read stays pending while a fill computes its view.
    have computed : ∀ m ∈ nodes, ∀ pending c, Budgeted nodes p pending c →
        Budgeted nodes p pending ((computeView (viewWithin depth) m).run c).2 ∧
        ((computeView (viewWithin depth) m).run c).1 = m.resolution := by
      intro m inside pending c budgeted
      refine ⟨staysComputeView pooled inside (views m inside) ?_ pending c budgeted,
        (readsComputeView pooled.identified inside (views m inside) c budgeted.coherent).1⟩
      exact fun q parent => ih (pooled.identified.closed m inside q parent)
    intro pending c budgeted
    rw [viewWithinRun]
    split
    · exact budgeted
    · have fills : ∀ m ∈ nodes, ∀ pending c, Budgeted nodes p pending c →
          Budgeted nodes p (fun k => k = m ∨ pending k) (fillView (viewWithin depth) m c) := by
        intro m inside pending c kept
        obtain ⟨done, answers⟩ := computed m inside pending c kept
        exact done.store pooled.identified inside (viewFits pooled inside done.coherent answers)
      obtain ⟨sub, swept⟩ := sweepStays pooled hasView member fills
        (staysAncestry pooled member pending c budgeted)
      obtain ⟨done, answers⟩ := computed n member _ _ swept
      exact admitStays pooled member sub (viewFits pooled member done.coherent answers) done

theorem staysView {n : Node} (member : n ∈ nodes) : Stays nodes p (Cache.view n) :=
  staysViewWithin pooled _ member

theorem staysMerge {ns : List Node} (sub : ns ⊆ nodes) : Stays nodes p (merge ns) := by
  unfold merge
  split
  · exact staysPure _
  · exact staysBind (staysResolveBy pooled sub
      (fun n member => readsView pooled.identified (sub member))
      fun n member => staysView pooled (sub member)) fun _ => staysPure _

theorem staysMergeNodes {ns : List Node} (sub : ns ⊆ nodes) : Stays nodes p (mergeNodes ns) := by
  unfold mergeNodes
  split
  · exact staysPure _
  · exact staysMerge pooled sub

section Graphs
variable {g : Graph} (sub : g.nodes ⊆ nodes)
include sub

theorem staysMergeRevisions (revisions : List Revision) :
    Stays nodes p (mergeRevisions g revisions) := by
  unfold mergeRevisions
  cases found : revisions.mapM g.find with
  | error e => exact staysPure _
  | ok ns => exact staysMergeNodes pooled fun n member => sub (Graph.foundSubset found member)

theorem staysMergeBranches (headed : ∀ branch, g.heads branch ⊆ g.nodes)
    (branches : List String) : Stays nodes p (mergeBranches g branches) := by
  refine staysMergeNodes pooled fun n member => sub ?_
  obtain ⟨branch, _, head⟩ := List.mem_flatMap.1 member
  exact headed branch head

theorem staysFrontier (branch : String) : Stays nodes p (frontier g branch) := by
  unfold frontier
  split
  · refine staysBind (staysPaired pooled fun n member => ?_) fun _ => staysPure _
    exact sub (List.mem_filter.1 (distinctSubset member)).1
  · exact staysPure _

end Graphs
end Merges
end Cache

section Answers
variable {nodes : List Node} {p : Pool} (pooled : Cache.Pooled nodes p)
include pooled

theorem GraphQuery.stays {g : Graph} (tracked : g.Tracked) (sub : g.nodes ⊆ nodes)
    (query : GraphQuery) : Cache.Stays nodes p (query.ask g) := by
  cases query
  case frontier branch =>
    exact Cache.staysBind (Cache.staysFrontier pooled sub branch) fun _ => Cache.staysPure _
  case mergeRevisions revisions =>
    exact Cache.staysBind (Cache.staysMergeRevisions pooled sub revisions)
      fun _ => Cache.staysPure _
  case mergeBranches names =>
    exact Cache.staysBind (Cache.staysMergeBranches pooled sub tracked.heads names)
      fun _ => Cache.staysPure _
  all_goals exact Cache.staysPure _

theorem NodeQuery.stays {n : Node} (member : n ∈ nodes) (query : NodeQuery) :
    Cache.Stays nodes p (query.ask n) := by
  cases query
  case ancestry =>
    exact Cache.staysBind (Cache.staysAncestry pooled member) fun _ => Cache.staysPure _
  case descendsFrom r =>
    exact Cache.staysBind (Cache.staysDescends pooled member r) fun _ => Cache.staysPure _
  all_goals exact Cache.staysBind (Cache.staysView pooled member) fun _ => Cache.staysPure _

end Answers
end DocHistory
