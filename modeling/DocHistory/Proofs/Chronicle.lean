import DocHistory.Proofs.BareNodes
import DocHistory.Proofs.TrackedHeads

/-! What a graph comes to without layers, head index and pool: its nodes in the order of
insertion. Whatever a graph answers or refuses, and what it becomes by commits and views, is
determined by this list. -/
namespace DocHistory
open Node

theorem mapMMap {ε κ α β : Type} (f : κ → Except ε α) (g : α → β) (ks : List κ) :
    (ks.mapM f).map (List.map g) = ks.mapM fun k => (f k).map g := by
  induction ks with
  | nil => rfl
  | cons k ks ih =>
    rw [List.mapM_cons, List.mapM_cons, ← ih]
    cases f k with
    | error e => rfl
    | ok a => cases ks.mapM f <;> rfl

namespace SortedMap
variable {κ α β : Type} [Ord κ] [Std.TransOrd κ] [Std.LawfulEqOrd κ]

theorem mapInsert [DecidableEq κ] (f : α → β) (m : SortedMap κ α) (k : κ) (a : α) :
    ((m.insert k a).filterMap fun _ a => some (f a)) =
      (m.filterMap fun _ a => some (f a)).insert k (f a) := by
  apply extGet
  intro l
  simp only [mapGet, getInsert]
  split <;> rfl

theorem mapErase [DecidableEq κ] (f : α → β) (m : SortedMap κ α) (k : κ) :
    ((m.erase k).filterMap fun _ a => some (f a)) =
      (m.filterMap fun _ a => some (f a)).erase k := by
  apply extGet
  intro l
  simp only [mapGet, getErase]
  split <;> rfl

end SortedMap

namespace HeadIndex
variable (marks : Marks)

def bare (index : HeadIndex) : HeadIndex :=
  index.filterMap fun _ heads => some (heads.filterMap fun _ n => some (n.bare marks))

theorem bareRetire (index : HeadIndex) (p : Node) :
    (index.retire p).bare marks = (index.bare marks).retire (p.bare marks) := by
  rw [retire, retire, bareBranch, bareRevision, bare, bare, SortedMap.mapGet]
  cases index.get? p.branch with
  | none => rfl
  | some heads => rw [Option.map_some, SortedMap.mapInsert, SortedMap.mapErase]

theorem bareUpdate (index : HeadIndex) (n : Node) :
    (index.update n).bare marks = (index.bare marks).update (n.bare marks) := by
  have retired : (n.parents.foldl retire index).bare marks =
      (n.bare marks).parents.foldl retire (index.bare marks) := by
    rw [bareParents]
    generalize n.parents = ps
    induction ps generalizing index with
    | nil => rfl
    | cons p ps ih => rw [List.foldl_cons, ih, bareRetire, List.map_cons, List.foldl_cons]
  rw [updateRetires, updateRetires, ← retired, bareBranch, bareRevision]
  generalize n.parents.foldl retire index = retired
  dsimp only
  rw [bare, SortedMap.mapInsert, SortedMap.mapInsert, ← bare]
  congr 2
  rw [bare, SortedMap.mapGet]
  cases retired.get? n.branch <;> rfl

theorem bareFold (ns : List Node) (index : HeadIndex) :
    (ns.foldl update index).bare marks =
      (ns.map (Node.bare marks)).foldl update (index.bare marks) := by
  induction ns generalizing index with
  | nil => rfl
  | cons n ns ih => rw [List.foldl_cons, ih, bareUpdate, List.map_cons, List.foldl_cons]

end HeadIndex

def Node.unpooled (n : Node) : Node := n.bare ⟨fun sequence => sequence, fun id => id⟩

structure Chronicle where
  nodes : List Node
  snapshot : Nat

namespace Chronicle

def size (k : Chronicle) : Nat := k.nodes.length

def tip (k : Chronicle) : Option Node := k.nodes.getLast?

def find? (k : Chronicle) (r : Revision) : Option Node := k.nodes.find? fun n => n.revision = r

def contains (k : Chronicle) (r : Revision) : Bool := (k.find? r).isSome

def find (k : Chronicle) (r : Revision) : Except GraphError Node :=
  match k.find? r with
  | some n => .ok n
  | none => .error (.notFound r)

def index (k : Chronicle) : HeadIndex := k.nodes.foldl HeadIndex.update ∅

def heads (k : Chronicle) (branch : String) : List Node :=
  match k.index.get? branch with
  | some heads => heads.values
  | none => []

def branches (k : Chronicle) : List String := k.index.keys

def frontier (k : Chronicle) (branch : String) : List Node :=
  if (k.heads branch).isEmpty && k.index.contains branch then
    maximal Node.revision Node.ancestry
      (distinct Node.revision (k.nodes.filter fun n => n.branch = branch))
  else k.heads branch

def view (k : Chronicle) (r : Revision) (fresh : Nat) : Except GraphError Chronicle := do
  let target ← k.find r
  if k.tip.map Node.revision = some r then .ok k
  else .ok ⟨k.nodes.filter fun n => n.sequence ≤ target.sequence, fresh⟩

def add : List Node × Nat → Version → Except GraphError (List Node × Nat)
  | (nodes, fresh), v =>
    let find? r := nodes.find? fun n => n.revision = r
    if v.isRoot ∧ !v.parents.isEmpty then
      .error (.version (.rootWithParents v.revision v.parents.size))
    else if (find? v.revision).isSome then .error (.duplicateRevision v.revision)
    else do
      let parents ← v.parents.toList.mapM fun parent =>
        match find? parent with
        | some n => .ok n
        | none => .error (.missingParent v.revision parent)
      .ok (nodes ++ [⟨v, parents, nodes.length, fresh, ⟨0, 0⟩⟩], fresh + 1)

def commit (k : Chronicle) (versions : List Version) (fresh : Nat) : Except GraphError Chronicle :=
  if versions.isEmpty then .ok k
  else do
    let (nodes, _) ← versions.foldlM add (k.nodes, fresh)
    .ok ⟨nodes, fresh⟩

def mergeRevisions (k : Chronicle) (revisions : List Revision) : Except GraphError Merge := do
  let nodes ← revisions.mapM k.find
  Graph.mergeNodes nodes

def mergeBranches (k : Chronicle) (branches : List String) : Except GraphError Merge :=
  Graph.mergeNodes (branches.flatMap k.heads)

end Chronicle

namespace Graph

def chronicle (g : Graph) : Chronicle := ⟨g.nodes.map unpooled, g.snapshot⟩

section
variable (marks : Marks)

theorem bareMergeNodes (ns : List Node) : mergeNodes (ns.map (bare marks)) = mergeNodes ns := by
  rw [mergeNodes, mergeNodes, List.isEmpty_map]
  exact congrArg _ (Merge.ofNodesBare _ ns)

theorem bareMergeRevisions (g : Graph) (revisions : List Revision) : g.mergeRevisions revisions =
    (revisions.mapM fun r => (g.find r).map (bare marks)).bind mergeNodes := by
  rw [mergeRevisions, ← mapMMap]
  cases revisions.mapM g.find with
  | error e => rfl
  | ok ns => exact (bareMergeNodes marks ns).symm

theorem bareMergeBranches (g : Graph) (names : List String) : g.mergeBranches names =
    mergeNodes (names.flatMap fun name => (g.heads name).map (bare marks)) := by
  rw [mergeBranches, ← List.map_flatMap, bareMergeNodes]

theorem bareMembers (g : Graph) (branch : String) : (g.members branch).map (bare marks) =
    distinct Node.revision ((g.nodes.map (bare marks)).filter fun n => n.branch = branch) := by
  rw [List.filter_map, Function.comp_def]
  simp only [bareBranch]
  exact (bareDistinct marks _).symm

theorem bareFrontier (g : Graph) (branch : String) : (g.frontier branch).map (bare marks) =
    if g.isRetired branch then
      maximal Node.revision Node.ancestry ((g.members branch).map (bare marks))
    else (g.heads branch).map (bare marks) := by
  rw [frontier, bareMaximal]
  split <;> rfl

end

theorem unpooledFind (ns : List Node) (r : Revision) :
    (ns.map unpooled).find? (fun n => n.revision = r) =
      (ns.find? fun n => n.revision = r).map unpooled := by
  rw [List.find?_map]
  congr 2
  funext n
  exact congrArg (fun s => decide (s = r)) (bareRevision _ n)

section Queries
variable {g : Graph} (tracked : g.Tracked)
include tracked

theorem findListed (r : Revision) : g.find? r = g.nodes.find? fun n => n.revision = r :=
  tracked.ordered.placed.history.findUnique (fun _ => findSound) findNone.1

theorem chronicleFind (r : Revision) : (g.find? r).map unpooled = g.chronicle.find? r := by
  rw [findListed tracked, Chronicle.find?, chronicle, unpooledFind]

theorem chronicleContains (r : Revision) : g.contains r = g.chronicle.contains r := by
  rw [contains, Chronicle.contains, ← chronicleFind tracked, Option.isSome_map]

theorem chronicleFound (r : Revision) : (g.find r).map unpooled = g.chronicle.find r := by
  rw [find, Chronicle.find, ← chronicleFind tracked]
  cases g.find? r <;> rfl

theorem chronicleSize : g.size = g.chronicle.size := by
  rw [Chronicle.size, chronicle, List.length_map, tracked.ordered.counted]

theorem chronicleTip : g.tip.map unpooled = g.chronicle.tip := by
  rw [Chronicle.tip, chronicle, List.getLast?_map, tracked.last]

theorem chronicleIndex :
    g.headIndex.bare ⟨fun sequence => sequence, fun id => id⟩ = g.chronicle.index := by
  rw [tracked.indexed, HeadIndex.bareFold]
  rfl

theorem chronicleBranches : g.branches = g.chronicle.branches := by
  rw [branches, Chronicle.branches, ← chronicleIndex tracked, HeadIndex.bare, SortedMap.mapKeys]

theorem chronicleHeads (branch : String) :
    (g.heads branch).map unpooled = g.chronicle.heads branch := by
  rw [heads, Chronicle.heads, ← chronicleIndex tracked, HeadIndex.bare, SortedMap.mapGet]
  cases g.headIndex.get? branch with
  | none => rfl
  | some heads => exact (SortedMap.mapValues _ heads).symm

theorem chronicleFrontier (branch : String) :
    (g.frontier branch).map unpooled = g.chronicle.frontier branch := by
  have retired : g.isRetired branch =
      ((g.chronicle.heads branch).isEmpty && g.chronicle.index.contains branch) := by
    rw [← chronicleHeads tracked, ← chronicleIndex tracked, List.isEmpty_map, SortedMap.contains,
      HeadIndex.bare, SortedMap.mapGet, Option.isSome_map]
    rfl
  refine (bareFrontier _ g branch).trans ?_
  rw [bareMembers, Chronicle.frontier, ← retired, ← chronicleHeads tracked]
  rfl

theorem chronicleMergeRevisions (revisions : List Revision) :
    g.mergeRevisions revisions = g.chronicle.mergeRevisions revisions := by
  rw [bareMergeRevisions, Chronicle.mergeRevisions]
  exact congrArg (fun find => (revisions.mapM find).bind mergeNodes)
    (funext fun r => chronicleFound tracked r)

theorem chronicleMergeBranches (names : List String) :
    g.mergeBranches names = g.chronicle.mergeBranches names := by
  rw [bareMergeBranches, Chronicle.mergeBranches]
  exact congrArg (fun heads => mergeNodes (names.flatMap heads))
    (funext fun name => chronicleHeads tracked name)

theorem chronicleView (r : Revision) (fresh : Nat) :
    (g.view r fresh).map chronicle = g.chronicle.view r fresh := by
  have tip : g.chronicle.tip.map Node.revision = g.tip.map Node.revision := by
    rw [← chronicleTip tracked, Option.map_map]
    exact congrArg (g.tip.map ·) (funext (bareRevision _))
  rw [view, Chronicle.view, tip, ← chronicleFound tracked]
  cases g.find r with
  | error e => rfl
  | ok target =>
    have sequence : target.unpooled.sequence = target.sequence := by rw [unpooled, bareUnfold]
    have cut : (g.nodes.filter fun n => n.sequence ≤ target.sequence).map unpooled =
        g.chronicle.nodes.filter fun n => n.sequence ≤ target.unpooled.sequence := by
      rw [chronicle, List.filter_map, sequence]
      congr 2
      funext n
      rw [Function.comp_apply, unpooled, bareUnfold]
    by_cases last : g.tip.map Node.revision = some r
    · simp only [bind, Except.bind, Except.map, if_pos last]
    · simp only [bind, Except.bind, Except.map, if_neg last, ← cut]
      simp [chronicle, ofNodes, nodes]

end Queries

namespace Staging

def sketch (s : Staging) : List Node × Nat := (s.nodes.map unpooled, s.fresh + s.added.length)

variable {s : Staging} (ordered : s.Ordered)
include ordered

theorem findListed (r : Revision) : s.find? r = s.nodes.find? fun n => n.revision = r :=
  ordered.placed.history.findUnique (fun _ => findSound) findNone.1

theorem sketchFind (r : Revision) :
    (s.find? r).map unpooled = s.sketch.1.find? fun n => n.revision = r := by
  rw [findListed ordered, sketch, unpooledFind]

theorem sketchParents (v : Version) : (s.parents v).map (List.map unpooled) =
    v.parents.toList.mapM fun parent =>
      match s.sketch.1.find? fun n => n.revision = parent with
      | some n => .ok n
      | none => .error (.missingParent v.revision parent) := by
  rw [parents, mapMMap]
  refine congrArg (v.parents.toList.mapM ·) (funext fun parent => ?_)
  rw [← sketchFind ordered]
  cases s.find? parent <;> rfl

theorem sketchPush (v : Version) (ps : List Node) : (s.push (s.place v ps)).sketch =
    (s.sketch.1 ++ [⟨v, ps.map unpooled, s.sketch.1.length, s.sketch.2, ⟨0, 0⟩⟩],
      s.sketch.2 + 1) := by
  have size : s.sketch.1.length = s.base.size + s.added.length := by
    simp [sketch, nodes, ordered.counted]
  rw [size, sketch, nodesPush, List.map_append, List.map_singleton]
  simp [sketch, unpooled, bareUnfold, place, push, Nat.add_assoc]

theorem sketchAdd (v : Version) : (s.add v).map sketch = Chronicle.add s.sketch v := by
  have known : (s.sketch.1.find? fun n => n.revision = v.revision).isSome =
      (s.find? v.revision).isSome := by
    rw [← sketchFind ordered, Option.isSome_map]
  rw [add, Chronicle.add]
  simp only [known, ← sketchParents ordered]
  by_cases rooted : v.isRoot = true ∧ (!v.parents.isEmpty) = true
  · simp only [if_pos rooted]
    rfl
  · simp only [if_neg rooted]
    cases (s.find? v.revision).isSome with
    | true => rfl
    | false =>
      cases s.parents v with
      | error e => rfl
      | ok ps => exact congrArg Except.ok (sketchPush ordered v ps)

theorem sketchRun (versions : List Version) :
    (versions.foldlM Staging.add s).map sketch = versions.foldlM Chronicle.add s.sketch := by
  induction versions generalizing s with
  | nil => rfl
  | cons v versions ih =>
    rw [List.foldlM_cons, List.foldlM_cons, ← sketchAdd ordered]
    cases added : s.add v with
    | error e => rfl
    | ok t => exact ih (addOrdered ordered added)

omit ordered in
theorem finishChronicle (filled : s.added ≠ []) : s.finish.chronicle = ⟨s.sketch.1, s.fresh⟩ := by
  rw [chronicle, finishNodes, sketch, finish]
  split
  · contradiction
  · rfl

end Staging

theorem chronicleCommit {g : Graph} (tracked : g.Tracked) (versions : List Version) (fresh : Nat) :
    (g.commit versions fresh).map chronicle = g.chronicle.commit versions fresh := by
  let start : Staging := { base := g, headIndex := g.headIndex, fresh }
  have run := Staging.sketchRun (Staging.startTracked tracked fresh).ordered versions
  have nodes : start.sketch = (g.chronicle.nodes, fresh) := by
    simp [start, Staging.sketch, Staging.nodes, chronicle]
  rw [nodes] at run
  rw [commit, Chronicle.commit, ← run]
  cases versions with
  | nil => rfl
  | cons v versions =>
    cases done : (v :: versions).foldlM Staging.add start with
    | error e => rfl
    | ok s =>
      obtain ⟨named, taken⟩ := commitRun done
      have filled : s.added ≠ [] := fun absent => by simp [absent] at taken
      exact congrArg Except.ok (named.start ▸ Staging.finishChronicle filled)

end Graph
end DocHistory
