import Std.Data.TreeMap
import DocHistory.Graph.Cache
import DocHistory.Proofs.GraphMerge
import DocHistory.Proofs.SweepLaws

/-! What cached reads answer. A cache is coherent if each slot belongs to a node that is known and
holds what that node derives from its past. Every read leaves a coherent cache coherent, whatever
it lets go of on the way, and answers what the recursion over the past yields. -/
namespace DocHistory
open Node

/-- Nodes that hold their parents and are told apart by identity. Nodes of several graphs may share
a revision. -/
structure Identified (nodes : List Node) : Prop where
  closed : ∀ n ∈ nodes, ∀ p ∈ n.parents, p ∈ nodes
  single : ∀ a ∈ nodes, ∀ b ∈ nodes, a.id = b.id → a = b

theorem Identified.reached {nodes : List Node} (identified : Identified nodes) {n m : Node}
    (member : n ∈ nodes) (path : n.Reaches m) : m ∈ nodes := by
  induction path with
  | refl => exact member
  | tail _ parent ih => exact identified.closed _ ih _ parent

structure Slots.Fits (s : Slots) (n : Node) : Prop where
  ancestry : ∀ a, s.ancestry = some a → a = n.ancestry
  view : ∀ r, s.view = some r → r = n.resolution

namespace Cache
variable {nodes : List Node} {c : Cache}

def Coherent (nodes : List Node) (c : Cache) : Prop :=
  ∀ k s, c.slots[k]? = some s → ∃ n ∈ nodes, n.id = k ∧ s.Fits n

theorem Coherent.empty (nodes : List Node) : Coherent nodes {} := by
  intro k s found
  simp at found

theorem Coherent.mono {more : List Node} (coherent : Coherent nodes c) (sub : nodes ⊆ more) :
    Coherent more c := by
  intro k s found
  obtain ⟨n, member, rest⟩ := coherent k s found
  exact ⟨n, sub member, rest⟩

theorem Coherent.fits (identified : Identified nodes) (coherent : Coherent nodes c) {n : Node}
    (member : n ∈ nodes) : (c.slotsOf n).Fits n := by
  unfold slotsOf
  cases found : c.slots[n.id]? with
  | none => exact ⟨nofun, nofun⟩
  | some s =>
    obtain ⟨m, other, same, fits⟩ := coherent n.id s found
    exact identified.single m other n member same ▸ fits

theorem Coherent.insert {n : Node} {s : Slots} (coherent : Coherent nodes c) (member : n ∈ nodes)
    (fits : s.Fits n) : Coherent nodes { c with slots := c.slots.insert n.id s } := by
  intro k t found
  rw [Std.TreeMap.getElem?_insert] at found
  split at found
  · rename_i same
    cases found
    exact ⟨n, member, compare_eq_iff_eq.1 same, fits⟩
  · exact coherent k t found

theorem Coherent.storeAncestry (identified : Identified nodes) (coherent : Coherent nodes c)
    {n : Node} (member : n ∈ nodes) : Coherent nodes (c.storeAncestry n n.ancestry) :=
  coherent.insert member
    ⟨fun _ same => (Option.some.inj same).symm, (coherent.fits identified member).view⟩

theorem Coherent.storeView (identified : Identified nodes) (coherent : Coherent nodes c)
    {n : Node} (member : n ∈ nodes) : Coherent nodes (c.storeView n n.resolution) :=
  coherent.insert member
    ⟨(coherent.fits identified member).ancestry, fun _ same => (Option.some.inj same).symm⟩

theorem Coherent.evict (coherent : Coherent nodes c) (n : Node) : Coherent nodes (c.evict n) := by
  intro k s found
  rw [Cache.evict, Std.TreeMap.getElem?_erase] at found
  split at found
  · cases found
  · exact coherent k s found

theorem Coherent.evictAll (coherent : Coherent nodes c) (ns : List Node) :
    Coherent nodes (ns.foldl (fun c n => c.evict n) c) :=
  List.foldlRecOn (motive := Coherent nodes) _ _ coherent fun _ kept n _ => kept.evict n

theorem Coherent.enroll (coherent : Coherent nodes c) (p : Pool) (batch : List Node) :
    Coherent nodes (c.enroll p batch) := by
  unfold Cache.enroll
  split
  · exact coherent
  · exact evictAll (c := { c with residents := c.residents.insert p.id _ }) coherent _

def Yields {α : Type} (nodes : List Node) (m : StateM Cache α) (Q : α → Prop) : Prop :=
  ∀ c, Coherent nodes c → Q (m.run c).1 ∧ Coherent nodes (m.run c).2

def Reads {α : Type} (nodes : List Node) (m : StateM Cache α) (a : α) : Prop :=
  Yields nodes m (· = a)

section Steps
variable {α β : Type}

theorem yieldsBind {m : StateM Cache α} {f : α → StateM Cache β} {Q : α → Prop} {R : β → Prop}
    (first : Yields nodes m Q) (next : ∀ a, Q a → Yields nodes (f a) R) :
    Yields nodes (m >>= f) R := by
  intro c coherent
  obtain ⟨value, kept⟩ := first c coherent
  exact next _ value _ kept

theorem yieldsGet : Yields nodes get (Coherent nodes) := fun _ coherent => ⟨coherent, coherent⟩

theorem yieldsModify {f : Cache → Cache} (keeps : ∀ c, Coherent nodes c → Coherent nodes (f c)) :
    Yields nodes (modify f) fun _ => True :=
  fun c coherent => ⟨trivial, keeps c coherent⟩

theorem yieldsModifyGet {f : Cache → α × Cache}
    (keeps : ∀ c, Coherent nodes c → Coherent nodes (f c).2) :
    Yields nodes (modifyGet f) fun _ => True :=
  fun c coherent => ⟨trivial, keeps c coherent⟩

theorem readsPure (a : α) : Reads nodes (pure a) a := fun _ coherent => ⟨rfl, coherent⟩

theorem readsEqual {a b : α} (same : a = b) : Reads nodes (pure a) b := same ▸ readsPure a

theorem readsBind {m : StateM Cache α} {f : α → StateM Cache β} {a : α} {b : β}
    (first : Reads nodes m a) (next : Reads nodes (f a) b) : Reads nodes (m >>= f) b :=
  yieldsBind first fun _ same => same ▸ next

theorem readsMap {m : StateM Cache α} {a : α} (f : α → β) (read : Reads nodes m a) :
    Reads nodes (f <$> m) (f a) := by
  rw [map_eq_pure_bind]
  exact readsBind read (readsPure _)

theorem readsAll {f : α → StateM Cache β} {g : α → β} {as : List α}
    (each : ∀ a ∈ as, Reads nodes (f a) (g a)) : Reads nodes (as.mapM f) (as.map g) := by
  induction as with
  | nil => exact readsPure _
  | cons a as ih =>
    rw [List.mapM_cons]
    exact readsBind (each a List.mem_cons_self)
      (readsBind (ih fun b member => each b (List.mem_cons_of_mem _ member)) (readsPure _))

theorem readsAny {f : α → StateM Cache Bool} {p : α → Bool} {as : List α}
    (each : ∀ a ∈ as, Reads nodes (f a) (p a)) : Reads nodes (as.anyM f) (as.any p) := by
  induction as with
  | nil => exact readsPure _
  | cons a as ih =>
    rw [List.anyM, List.any_cons]
    refine readsBind (each a List.mem_cons_self) ?_
    cases p a with
    | true => exact readsPure _
    | false => exact ih fun b member => each b (List.mem_cons_of_mem _ member)

theorem readsFilter {f : α → StateM Cache Bool} {p : α → Bool} {as : List α}
    (each : ∀ a ∈ as, Reads nodes (f a) (p a)) : Reads nodes (as.filterM f) (as.filter p) := by
  have kept : ∀ found, Reads nodes (as.filterAuxM f found) ((as.filter p).reverse ++ found) := by
    induction as with
    | nil => exact readsPure
    | cons a as ih =>
      intro found
      rw [List.filterAuxM]
      refine readsBind (each a List.mem_cons_self) ?_
      have rest := ih fun b member => each b (List.mem_cons_of_mem _ member)
      cases keep : p a with
      | true => simpa [List.filter_cons, keep] using rest (a :: found)
      | false => simpa [List.filter_cons, keep] using rest found
  have reversed : Reads nodes (as.filterM f) ((as.filter p).reverse ++ []).reverse :=
    readsBind (kept []) (readsPure _)
  rwa [List.append_nil, List.reverse_reverse] at reversed

end Steps

section Reading
variable (identified : Identified nodes)
include identified

theorem computeAncestryFits {n : Node} (member : n ∈ nodes) (coherent : Coherent nodes c) :
    c.computeAncestry n = n.ancestry := by
  have known : ∀ p ∈ n.parents, c.ancestryOf p = p.ancestry := by
    intro p parent
    unfold ancestryOf
    split
    · rename_i a found
      exact (coherent.fits identified (identified.closed n member p parent)).ancestry a found
    · rfl
  rw [ancestryUnfold, ancestryOfAllFold, computeAncestry]
  exact congrArg (SortedSet.add · n.revision)
    (List.foldr_ext _ _ _ fun p parent a => by rw [known p parent])

theorem readsAncestry {n : Node} (member : n ∈ nodes) : Reads nodes (ancestry n) n.ancestry := by
  unfold ancestry
  refine yieldsBind yieldsGet fun c coherent => ?_
  split
  · rename_i a found
    exact (coherent.fits identified member).ancestry a found ▸ readsPure a
  · refine yieldsBind (yieldsModifyGet fun c kept => ?_) fun filled _ => ?_
    · refine Sweep.runKeeps (fun m before c coherent => ?_) kept
      obtain ⟨p, parent, path⟩ := before
      have inside := identified.reached member (reachesThrough parent path)
      rw [fillAncestry, computeAncestryFits identified inside coherent]
      exact coherent.storeAncestry identified inside
    · refine yieldsBind yieldsGet fun c coherent => ?_
      rw [computeAncestryFits identified member coherent]
      refine yieldsBind (yieldsModify fun c kept => ?_) fun _ _ => readsPure _
      exact (kept.storeAncestry identified member).enroll _ _

theorem readsDescends {n : Node} (member : n ∈ nodes) (r : Revision) :
    Reads nodes (descendsFrom n r) (n.descendsFrom r) :=
  readsBind (readsAncestry identified member) (readsPure _)

variable {k : Contest} (known : ∀ e ∈ k.rivals, e.writer ∈ nodes)
include known

theorem readsOvertaken (r : Revision) : Reads nodes (overtaken k r) (k.overtaken r) := by
  refine readsAny fun e rival => ?_
  by_cases same : e.revision = r
  · simp only [same, if_true, bne_self_eq_false, Bool.false_and]
    exact readsPure false
  · simp only [same, if_false, bne_iff_ne.2 same, Bool.true_and]
    exact readsDescends identified (known e rival) r

theorem readsFresh (e : LastWrite) : Reads nodes (isFresh k e) (k.isFresh e) := by
  unfold isFresh Contest.isFresh
  split
  · rename_i holder
    simpa [holder] using readsPure false
  · rename_i holder
    refine readsBind (readsOvertaken identified known e.revision) ?_
    cases k.overtaken e.revision with
    | true => simpa using readsPure false
    | false => simpa [holder] using readsPure _

theorem readsCarried (w : Write) : Reads nodes (isCarried k w) (k.isCarried w) := by
  unfold isCarried Contest.isCarried
  split
  · rename_i same
    simpa [same] using readsPure false
  · rename_i other
    split
    · rename_i equal
      simpa [equal] using readsPure false
    · rename_i differs
      have answer : (!(w.revision == k.winner.revision || w.value == k.winner.value ||
          k.overtaken w.revision)) = !k.overtaken w.revision := by simp [other, differs]
      rw [answer]
      exact readsBind (readsOvertaken identified known w.revision) (readsPure _)

theorem readsConflicts : Reads nodes (conflicts k) k.conflicts :=
  readsBind (readsFilter fun e _ => readsFresh identified known e)
    (readsBind (readsFilter fun w _ => readsCarried identified known w) (readsPure _))

end Reading

def Grounded (nodes : List Node) (heads : List Head) : Prop :=
  ∀ path e, Held heads path e → e.writer ∈ nodes

theorem Grounded.rivals {heads : List Head} (grounded : Grounded nodes heads) {path : Path}
    {k : Contest} (found : Contest.at? heads path = some k) : ∀ e ∈ k.rivals, e.writer ∈ nodes :=
  fun e rival => grounded path e (Contest.rivalHeld found rival)

theorem readsOutcomes (identified : Identified nodes) {heads : List Head}
    (grounded : Grounded nodes heads) (paths : List Path) : Reads nodes (outcomes heads paths)
      (paths.filterMap fun path =>
        (Contest.at? heads path).map fun k => (path, k.winner, k.conflicts)) := by
  induction paths with
  | nil => exact readsPure _
  | cons path paths ih =>
    rw [outcomes]
    split
    · rename_i absent
      simpa [List.filterMap_cons, absent] using ih
    · rename_i k found
      rw [List.filterMap_cons, found]
      exact readsBind (readsConflicts identified (grounded.rivals found))
        (readsBind ih (readsPure _))

theorem groundedHeads (identified : Identified nodes) {hs : List Node} (sub : hs ⊆ nodes) :
    Grounded nodes (hs.map head) := by
  intro path e held
  obtain ⟨h, member, entry⟩ := heldHeads.1 held
  exact identified.reached (sub member) (entryReached entry)

theorem readsPaired (identified : Identified nodes) {ns : List Node} (sub : ns ⊆ nodes) :
    Reads nodes (ns.mapM fun n => do return (n, ← ancestry n)) (ns.map fun n => (n, n.ancestry)) :=
  readsAll fun _ member => readsBind (readsAncestry identified (sub member)) (readsPure _)

theorem maximalPaired (ns : List Node) :
    (maximal (fun a : Node × Ancestry => a.1.revision) (·.2)
      (ns.map fun n => (n, n.ancestry))).map (·.1) = maximal Node.revision Node.ancestry ns := by
  rw [maximalMap, List.map_map]
  exact List.map_id _

theorem zipHeads (hs : List Node) :
    ((hs.zip ((hs.map Node.ancestry).zip (hs.map Node.resolution))).map
      fun h => (⟨h.1, h.2.1, h.2.2⟩ : Head)) = hs.map head := by
  induction hs with
  | nil => rfl
  | cons h hs ih => exact congrArg (h.head :: ·) ih

theorem readsResolveBy (identified : Identified nodes) {view : Node → StateM Cache Resolution}
    {requested : List Node} (sub : requested ⊆ nodes)
    (views : ∀ n ∈ requested, Reads nodes (view n) n.resolution) :
    Reads nodes (resolveBy view requested) (survivors requested, joined requested) := by
  refine readsBind (readsPaired identified fun _ member => sub (distinctSubset member)) ?_
  rw [maximalPaired, ← survivors, (resolveHeads requested).2]
  have kept : survivors requested ⊆ requested := survivorsSubset requested
  generalize survivors requested = hs at kept
  rcases hs with _ | ⟨h, _ | ⟨k, hs⟩⟩
  · exact readsPure _
  · exact readsBind (views h (kept List.mem_cons_self)) (readsPure _)
  · have inside : h :: k :: hs ⊆ nodes := fun _ member => sub (kept member)
    refine readsBind (readsAll fun n member => views n (kept member)) ?_
    refine readsBind (readsAll fun n member => readsAncestry identified (inside member)) ?_
    rw [zipHeads]
    exact readsBind (readsOutcomes identified (groundedHeads identified inside) _) (readsPure _)

theorem readsComputeView (identified : Identified nodes) {view : Node → StateM Cache Resolution}
    {n : Node} (member : n ∈ nodes)
    (views : ∀ p ∈ n.parents, Reads nodes (view p) p.resolution) :
    Reads nodes (computeView view n) n.resolution := by
  have parents : n.parents ⊆ nodes := fun p parent => identified.closed n member p parent
  rw [resolutionUnfold, computeView]
  generalize n.parents = ps at views parents
  rcases ps with _ | ⟨p, _ | ⟨q, ps⟩⟩
  · exact readsBind (readsPure _) (readsPure _)
  · exact joinedSingle p ▸ readsBind (views p List.mem_cons_self) (readsPure _)
  · exact readsBind (readsMap (·.2) (readsResolveBy identified parents views)) (readsPure _)

theorem readsViewWithin (identified : Identified nodes) (depth : Nat) {n : Node}
    (member : n ∈ nodes) : Reads nodes (viewWithin depth n) n.resolution := by
  induction depth generalizing n with
  | zero => exact readsPure _
  | succ depth ih =>
    have computes : ∀ m ∈ nodes, Reads nodes (computeView (viewWithin depth) m) m.resolution :=
      fun m inside => readsComputeView identified inside fun p parent =>
        ih (identified.closed m inside p parent)
    rw [viewWithin]
    refine yieldsBind yieldsGet fun c coherent => ?_
    split
    · rename_i r found
      exact (coherent.fits identified member).view r found ▸ readsPure r
    · refine readsBind (readsAncestry identified member) ?_
      -- A fill may evict what the sweep has filled before: it reads that again, over `depth`.
      refine yieldsBind (yieldsModifyGet fun c kept => ?_) fun filled _ => ?_
      · refine Sweep.runKeeps (fun m before c coherent => ?_) kept
        obtain ⟨p, parent, path⟩ := before
        have inside := identified.reached member (reachesThrough parent path)
        obtain ⟨value, kept⟩ := computes m inside c coherent
        change Coherent nodes (storeView m (StateT.run (computeView (viewWithin depth) m) c).1 _)
        exact value ▸ kept.storeView identified inside
      · refine readsBind (computes n member) (yieldsBind (yieldsModify fun c kept => ?_)
          fun _ _ => readsPure _)
        exact (kept.storeView identified member).enroll _ _

theorem readsView (identified : Identified nodes) {n : Node} (member : n ∈ nodes) :
    Reads nodes (view n) n.resolution :=
  readsViewWithin identified _ member

theorem readsMerge (identified : Identified nodes) {ns : List Node} (sub : ns ⊆ nodes) :
    Reads nodes (merge ns) (Merge.ofNodes ns) := by
  unfold merge
  split
  · rename_i empty
    simpa [Merge.ofNodes, empty] using readsPure _
  · rename_i nonempty
    rw [Merge.ofNodesOk fun empty => nonempty (List.isEmpty_iff.2 empty)]
    have views : ∀ n ∈ ns, Reads nodes (view n) n.resolution :=
      fun n member => readsView identified (sub member)
    exact readsBind (readsResolveBy identified sub views) (readsPure _)

theorem readsMergeNodes (identified : Identified nodes) {ns : List Node} (sub : ns ⊆ nodes) :
    Reads nodes (mergeNodes ns) (Graph.mergeNodes ns) := by
  unfold mergeNodes Graph.mergeNodes
  split
  · exact readsPure _
  · exact readsMerge identified sub

section Graphs
variable (identified : Identified nodes) {g : Graph} (sub : g.nodes ⊆ nodes)
include identified sub

theorem readsMergeRevisions (revisions : List Revision) :
    Reads nodes (mergeRevisions g revisions) (g.mergeRevisions revisions) := by
  unfold mergeRevisions Graph.mergeRevisions
  cases found : revisions.mapM g.find with
  | error e => exact readsPure _
  | ok ns =>
    exact readsMergeNodes identified fun n member => sub (Graph.foundSubset found member)

theorem readsMergeBranches (headed : ∀ branch, g.heads branch ⊆ g.nodes) (branches : List String) :
    Reads nodes (mergeBranches g branches) (g.mergeBranches branches) := by
  refine readsMergeNodes identified fun n member => sub ?_
  obtain ⟨branch, _, head⟩ := List.mem_flatMap.1 member
  exact headed branch head

theorem readsFrontier (branch : String) : Reads nodes (frontier g branch) (g.frontier branch) := by
  unfold frontier Graph.frontier
  split
  · have members : g.members branch ⊆ nodes := fun n member =>
      sub (List.mem_filter.1 (distinctSubset member)).1
    refine readsBind (readsPaired identified members) ?_
    exact maximalPaired (g.members branch) ▸ readsPure _
  · exact readsPure _

end Graphs

end Cache
end DocHistory
