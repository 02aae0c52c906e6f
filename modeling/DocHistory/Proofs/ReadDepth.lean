import DocHistory.Proofs.CacheCoherence

/-! Reads end, whatever the cache holds. A computed ancestry finds those of the parents in the
cache, and the view of a node is read over fewer generations than the node has predecessors: how
an ancestry or a view would be read beyond that does not matter. -/
namespace DocHistory.Cache
open Node

section Views

def viewBy (view : Node → StateM Cache Resolution) (n : Node) : StateM Cache Resolution := do
  match ((← get).slotsOf n).view with
  | some r => return r
  | none =>
    let _ ← ancestry n
    let fillView (m : Node) (c : Cache) : Cache :=
      let (r, c) := (computeView view m).run c
      c.storeView m r
    let filled ← modifyGet fun c =>
      let (c, filled) := Sweep.run hasView fillView n.parents c
      (filled, c)
    let r ← computeView view n
    modify fun c => (c.storeView n r).enroll n.pool (filled ++ [n])
    return r

def viewOver (last : Node → StateM Cache Resolution) : Nat → Node → StateM Cache Resolution
  | 0 => last
  | depth + 1 => viewBy (viewOver last depth)

theorem viewWithinOver (depth : Nat) :
    viewWithin depth = viewOver (fun n => pure n.resolution) depth := by
  induction depth with
  | zero =>
    funext n
    rfl
  | succ depth ih =>
    funext n
    rw [viewWithin, ih]
    rfl

theorem pairedNames (ns : List Node) (c : Cache) :
    ((ns.mapM fun n => do return (n, ← ancestry n)).run c).1.map Prod.fst = ns := by
  induction ns generalizing c with
  | nil => rfl
  | cons n ns ih =>
    rw [List.mapM_cons]
    exact congrArg (n :: ·) (ih _)

variable {v w : Node → StateM Cache Resolution}

theorem bindCongr {α β : Type} {m : StateM Cache α} {f g : α → StateM Cache β} {Q : α → Prop}
    (value : ∀ c, Q (m.run c).1) (same : ∀ a, Q a → f a = g a) : m >>= f = m >>= g :=
  funext fun c => congrFun (same _ (value c)) _

theorem mapMCongr {ns : List Node} (agree : ∀ n ∈ ns, v n = w n) : ns.mapM v = ns.mapM w := by
  induction ns with
  | nil => rfl
  | cons n ns ih =>
    rw [List.mapM_cons, List.mapM_cons, agree n List.mem_cons_self,
      ih fun m member => agree m (List.mem_cons_of_mem _ member)]

theorem resolveByCongr {requested : List Node} (agree : ∀ n ∈ requested, v n = w n) :
    resolveBy v requested = resolveBy w requested := by
  refine bindCongr (Q := fun candidates : List (Node × Ancestry) =>
    candidates.map Prod.fst = distinct Node.revision requested) (pairedNames _)
    fun candidates names => ?_
  have heads : ∀ n ∈ (maximal (fun a : Node × Ancestry => a.1.revision) (·.2) candidates).map (·.1),
      v n = w n := by
    intro n member
    obtain ⟨a, kept, rfl⟩ := List.mem_map.1 member
    have listed : a.1 ∈ distinct Node.revision requested :=
      names ▸ List.mem_map_of_mem (memMaximal.1 kept).1
    exact agree a.1 (distinctSubset listed)
  dsimp only
  generalize (maximal (fun a : Node × Ancestry => a.1.revision) (·.2) candidates).map (·.1) = hs
    at heads
  rcases hs with _ | ⟨h, _ | ⟨k, hs⟩⟩
  · rfl
  · dsimp only
    rw [heads h List.mem_cons_self]
  · dsimp only
    rw [mapMCongr heads]

theorem computeViewCongr {n : Node} (agree : ∀ p ∈ n.parents, v p = w p) :
    computeView v n = computeView w n := by
  unfold computeView
  generalize n.parents = ps at agree
  rcases ps with _ | ⟨p, _ | ⟨q, ps⟩⟩
  · rfl
  · exact congrArg (· >>= fun r => pure (r.applyChanges n)) (agree p List.mem_cons_self)
  · exact congrArg (fun m => (·.2) <$> m >>= fun r => pure (r.applyChanges n))
      (resolveByCongr agree)

theorem viewByCongr {n : Node} (agree : ∀ p, Past n.parents p → v p = w p) :
    viewBy v n = viewBy w n := by
  have same : ∀ m, n = m ∨ Past n.parents m → computeView v m = computeView w m := by
    intro m before
    refine computeViewCongr fun p parent => agree p ?_
    rcases before with rfl | ⟨q, first, path⟩
    · exact pastSelf parent
    · exact ⟨q, first, reachesTrans path (reachesThrough parent (reachesSelf p))⟩
  have fills : ∀ c, Sweep.run hasView (fun m c =>
      storeView m ((computeView v m).run c).1 ((computeView v m).run c).2) n.parents c =
      Sweep.run hasView (fun m c =>
        storeView m ((computeView w m).run c).1 ((computeView w m).run c).2) n.parents c :=
    Sweep.runCongr fun m before => by rw [same m (.inr before)]
  refine bindCongr (Q := fun _ => True) (fun _ => trivial) fun c _ => ?_
  cases (c.slotsOf n).view with
  | some r => rfl
  | none =>
    refine bindCongr (Q := fun _ => True) (fun _ => trivial) fun _ _ => ?_
    refine congr (congrArg bind ?_) ?_
    · exact congrArg modifyGet (funext fun c => congrArg Prod.swap (fills c))
    · rw [same n (.inl rfl)]

theorem pastEarlier {n p m : Node}
    (descends : ∀ m p, n.Reaches m → p ∈ m.parents → p.sequence < m.sequence)
    (parent : p ∈ n.parents) (path : p.Reaches m) : m.sequence < n.sequence := by
  induction path with
  | refl => exact descends n p (reachesSelf n) parent
  | tail before step ih =>
    exact Nat.lt_trans (descends _ _ (reachesThrough parent before) step) ih

theorem viewOverAny {last last' : Node → StateM Cache Resolution} {depth depth' : Nat} {n : Node}
    (descends : ∀ m p, n.Reaches m → p ∈ m.parents → p.sequence < m.sequence)
    (deep : n.sequence < depth) (deep' : n.sequence < depth') :
    viewOver last depth n = viewOver last' depth' n := by
  induction depth generalizing n depth' with
  | zero => omega
  | succ depth ih =>
    obtain ⟨depth', rfl⟩ : ∃ d, depth' = d + 1 := ⟨depth' - 1, by omega⟩
    -- The fills of the sweep read over `depth` generations too, from any node of the past.
    refine viewByCongr fun p before => ?_
    obtain ⟨q, parent, path⟩ := before
    have earlier := pastEarlier descends parent path
    exact ih (fun m k rest => descends m k (reachesThrough parent (reachesTrans path rest)))
      (by omega) (by omega)

end Views

section Ancestries

def ancestryOfOr (last : Node → Ancestry) (c : Cache) (p : Node) : Ancestry :=
  match (c.slotsOf p).ancestry with
  | some a => a
  | none => last p

def computeAncestryOr (last : Node → Ancestry) (c : Cache) (n : Node) : Ancestry :=
  let past : Ancestry := n.parents.foldr (fun p a => (c.ancestryOfOr last p).union a) ∅
  past.add n.revision

def fillAncestryOr (last : Node → Ancestry) (n : Node) (c : Cache) : Cache :=
  c.storeAncestry n (c.computeAncestryOr last n)

def ancestryOr (last : Node → Ancestry) (n : Node) : StateM Cache Ancestry := do
  match ((← get).slotsOf n).ancestry with
  | some a => return a
  | none =>
    let filled ← modifyGet fun c =>
      let (c, filled) := Sweep.run hasAncestry (fillAncestryOr last) n.parents c
      (filled, c)
    let a := (← get).computeAncestryOr last n
    modify fun c => (c.storeAncestry n a).enroll n.pool (filled ++ [n])
    return a

variable {last last' : Node → Ancestry}

theorem slotsOfStore (c : Cache) (n m : Node) (a : Ancestry) : (c.storeAncestry n a).slotsOf m =
    if n.id = m.id then { c.slotsOf n with ancestry := some a } else c.slotsOf m := by
  simp only [slotsOf, storeAncestry, Std.TreeMap.getElem?_insert, compare_eq_iff_eq]
  split <;> rfl

theorem fillLasts (last : Node → Ancestry) : Sweep.Lasting hasAncestry (fillAncestryOr last) where
  fills n c := by
    rw [hasAncestry, fillAncestryOr, slotsOfStore, if_pos rfl]
    rfl
  keeps n c m filled := by
    rw [hasAncestry, fillAncestryOr, slotsOfStore]
    split
    · rfl
    · exact filled

theorem computeAncestryAny {c : Cache} {n : Node}
    (ready : ∀ p ∈ n.parents, c.hasAncestry p = true) :
    c.computeAncestryOr last n = c.computeAncestryOr last' n := by
  have known : ∀ p ∈ n.parents, c.ancestryOfOr last p = c.ancestryOfOr last' p := by
    intro p parent
    obtain ⟨a, found⟩ := Option.isSome_iff_exists.1 (ready p parent)
    rw [ancestryOfOr, ancestryOfOr, found]
  exact congrArg (SortedSet.add · n.revision) (List.foldr_ext _ _ _ fun p parent a => by
    rw [known p parent])

theorem ancestryOrRun (last : Node → Ancestry) (n : Node) (c : Cache) : ancestryOr last n c =
    match (c.slotsOf n).ancestry with
    | some a => (a, c)
    | none =>
      let s := Sweep.run hasAncestry (fillAncestryOr last) n.parents c
      let a := s.1.computeAncestryOr last n
      (a, (s.1.storeAncestry n a).enroll n.pool (s.2 ++ [n])) := by
  change (match (c.slotsOf n).ancestry with
    | some a => _
    | none => _ : StateM Cache Ancestry) c = _
  cases (c.slotsOf n).ancestry <;> rfl

theorem ancestryOrAny {nodes : List Node} (history : History nodes) {n : Node}
    (member : n ∈ nodes) : ancestryOr last n = ancestryOr last' n := by
  funext c
  obtain ⟨ready, same⟩ := Sweep.runAgrees (fillLasts last) (fillLasts last') history
    (fun m _ c ready => congrArg (c.storeAncestry m) (computeAncestryAny ready))
    (history.parents member) c
  rw [ancestryOrRun, ancestryOrRun, ← same]
  generalize Sweep.run hasAncestry (fillAncestryOr last) n.parents c = s at ready
  have computed : s.1.computeAncestryOr last n = s.1.computeAncestryOr last' n :=
    computeAncestryAny ready
  dsimp only
  rw [computed]

end Ancestries

theorem ancestryReadEnds {nodes : List Node} (history : History nodes) {n : Node}
    (member : n ∈ nodes) (last : Node → Ancestry) : ancestryOr last n = ancestry n :=
  ancestryOrAny history member

theorem viewReadEnds {nodes : List Node} (placed : Placed nodes) {n : Node} (member : n ∈ nodes)
    (last : Node → StateM Cache Resolution) {depth : Nat} (deep : n.sequence < depth) :
    viewOver last depth n = view n := by
  have descends : ∀ m p, n.Reaches m → p ∈ m.parents → p.sequence < m.sequence :=
    fun m p path parent => (placed.earlier m (placed.history.reached member path) p parent).2
  rw [view, viewWithinOver]
  exact viewOverAny descends deep (Nat.lt_succ_self _)

end DocHistory.Cache
