import DocHistory.Proofs.GraphMerge

/-! Nodes without what a graph adds to a version: pool, place and identity. What a node derives
from its past, and what a merge shows, depends on versions and parents alone: each function on
nodes commutes with leaving the pool out and changing the rest. -/
namespace DocHistory

namespace SortedMap
variable {κ α β : Type} [Ord κ]

theorem mapEntries (f : α → β) (m : SortedMap κ α) :
    (m.filterMap fun _ a => some (f a)).entries = m.entries.map fun e => (e.1, f e.2) := by
  simp only [filterMap, Option.map_some, List.filterMap_eq_map']

theorem mapValues (f : α → β) (m : SortedMap κ α) :
    (m.filterMap fun _ a => some (f a)).values = m.values.map f := by
  simp only [values, mapEntries, List.map_map, Function.comp_def]

theorem mapKeys (f : α → β) (m : SortedMap κ α) :
    (m.filterMap fun _ a => some (f a)).keys = m.keys := by
  simp only [keys, mapEntries, List.map_map, Function.comp_def]

theorem mapLast (f : α → β) (m : SortedMap κ α) :
    (m.filterMap fun _ a => some (f a)).last? = m.last?.map fun e => (e.1, f e.2) := by
  simp only [last?, mapEntries, List.getLast?_map]

end SortedMap

structure Marks where
  place : Nat → Nat
  name : Nat → Nat

namespace Node

mutual

def bare (marks : Marks) : Node → Node
  | ⟨version, parents, sequence, id, _⟩ =>
    ⟨version, bareAll marks parents, marks.place sequence, marks.name id, ⟨0, 0⟩⟩

def bareAll (marks : Marks) : List Node → List Node
  | [] => []
  | p :: ps => p.bare marks :: bareAll marks ps

end

variable (marks : Marks)

theorem bareAllMap (ps : List Node) : bareAll marks ps = ps.map (bare marks) := by
  induction ps with
  | nil => rfl
  | cons p ps ih => rw [bareAll, ih, List.map_cons]

theorem bareUnfold (n : Node) : n.bare marks =
    ⟨n.version, n.parents.map (bare marks), marks.place n.sequence, marks.name n.id, ⟨0, 0⟩⟩ := by
  cases n
  rw [bare, bareAllMap]

theorem bareVersion (n : Node) : (n.bare marks).version = n.version := by rw [bareUnfold]

theorem bareParents (n : Node) : (n.bare marks).parents = n.parents.map (bare marks) := by
  rw [bareUnfold]

theorem bareRevision (n : Node) : (n.bare marks).revision = n.revision :=
  congrArg Version.revision (bareVersion marks n)

theorem bareBranch (n : Node) : (n.bare marks).branch = n.branch :=
  congrArg Version.branch (bareVersion marks n)

theorem bareAncestry (n : Node) : (n.bare marks).ancestry = n.ancestry := by
  induction n using Node.induct with
  | step n ih =>
    have parents : ancestryOfAll (n.parents.map (bare marks)) = ancestryOfAll n.parents := by
      rw [ancestryOfAllFold, ancestryOfAllFold, List.foldr_map]
      exact List.foldr_ext _ _ _ fun p parent a => by rw [ih p parent]
    rw [ancestryUnfold, ancestryUnfold n, bareParents, parents, bareRevision]

theorem bareDescends (n : Node) (r : Revision) :
    (n.bare marks).descendsFrom r = n.descendsFrom r := by
  rw [descendsFrom, bareAncestry]
  rfl

end Node

variable (marks : Marks)

def LastWrite.bare (e : LastWrite) : LastWrite := ⟨e.value, e.writer.bare marks⟩

theorem LastWrite.bareRevision (e : LastWrite) : (e.bare marks).revision = e.revision :=
  Node.bareRevision marks e.writer

def Resolution.bare (r : Resolution) : Resolution where
  entries := r.entries.filterMap fun _ e => some (e.bare marks)
  conflicts := r.conflicts

def Head.bare (h : Head) : Head := ⟨h.node.bare marks, h.ancestry, h.view.bare marks⟩

namespace Contest

def bare (c : Contest) : Contest :=
  { c with winner := c.winner.bare marks, losers := c.losers.map (LastWrite.bare marks) }

theorem bareOvertaken (c : Contest) (r : Revision) :
    (c.bare marks).overtaken r = c.overtaken r := by
  have rivals : (c.bare marks).rivals = c.rivals.map (LastWrite.bare marks) := rfl
  rw [overtaken, overtaken, rivals, List.any_map]
  congr 1
  funext e
  simp only [Function.comp_apply, LastWrite.bareRevision]
  rw [show (e.bare marks).writer = e.writer.bare marks from rfl, Node.bareDescends]

theorem bareFresh (c : Contest) (e : LastWrite) :
    (c.bare marks).isFresh (e.bare marks) = c.isFresh e := by
  simp only [isFresh, bareOvertaken, LastWrite.bareRevision]
  rfl

theorem bareCarried (c : Contest) (w : Write) : (c.bare marks).isCarried w = c.isCarried w := by
  simp only [isCarried, bareOvertaken]
  rw [show (c.bare marks).winner.revision = c.winner.revision from LastWrite.bareRevision marks _]
  rfl

theorem bareConflicts (c : Contest) : (c.bare marks).conflicts = c.conflicts := by
  have fresh : (c.bare marks).losers.filter (c.bare marks).isFresh =
      (c.losers.filter c.isFresh).map (LastWrite.bare marks) := by
    simp only [bare, List.filter_map]
    congr 2
    funext e
    exact bareFresh marks c e
  have carried : (c.bare marks).isCarried = c.isCarried := funext (bareCarried marks c)
  have written : (fun e : LastWrite => (e.revision, e.value)) ∘ LastWrite.bare marks =
      fun e => (e.revision, e.value) :=
    funext fun e => congrArg (·, e.value) (LastWrite.bareRevision marks e)
  rw [conflicts, fresh, carried, conflicts, collect, collect, List.map_map, written]
  rfl

theorem bareLast (path : Path) (h : Head) :
    (h.bare marks).last? path = (h.last? path).map (LastWrite.bare marks) := by
  simp only [Head.last?, Head.bare, Resolution.bare, SortedMap.getFilterMap]
  cases h.view.entries.get? path <;> rfl

theorem bareWritesAt (heads : List Head) (path : Path) :
    writesAt path (heads.map (Head.bare marks)) =
      (writesAt path heads).filterMap fun _ e => some (e.bare marks) := by
  apply SortedMap.extGet
  intro r
  rw [SortedMap.getFilterMap, writesAtGet, writesAtGet, List.filterMap_map]
  have lasts : Head.last? path ∘ Head.bare marks =
      fun h => (h.last? path).map (LastWrite.bare marks) := funext (bareLast marks path)
  rw [lasts, ← List.map_filterMap, List.find?_map]
  simp only [Function.comp_def, LastWrite.bareRevision]
  cases (heads.filterMap (Head.last? path)).find? fun e => e.revision = r <;> rfl

theorem bareHolds (path : Path) (r : Revision) (h : Head) :
    holds path r (h.bare marks) = holds path r h := by
  have last := bareLast marks path h
  unfold Head.last? at last
  unfold holds
  rw [last]
  cases h.view.entries.get? path with
  | none => rfl
  | some e => simp only [Option.map_some, LastWrite.bareRevision]

theorem bareAt (heads : List Head) (path : Path) :
    at? (heads.map (Head.bare marks)) path = (at? heads path).map (bare marks) := by
  have holders : ∀ r, ((heads.map (Head.bare marks)).filter (holds path r)).map Head.ancestry =
      (heads.filter (holds path r)).map Head.ancestry := by
    intro r
    have holds : holds path r ∘ Head.bare marks = holds path r := funext (bareHolds marks path r)
    rw [List.filter_map, List.map_map, holds]
    rfl
  have carried : (heads.map (Head.bare marks)).flatMap (carriedAt path) =
      heads.flatMap (carriedAt path) := by
    rw [List.flatMap_map]
    rfl
  rw [at?, at?, bareWritesAt, SortedMap.mapLast, SortedMap.mapValues, carried]
  cases (writesAt path heads).last? with
  | none => rfl
  | some last =>
    simp only [Option.map_some, holders, bare, List.map_dropLast]

end Contest

namespace Resolution

theorem bareMerge (heads : List Head) :
    merge (heads.map (Head.bare marks)) = (merge heads).bare marks := by
  have entries : (merge (heads.map (Head.bare marks))).entries =
      ((merge heads).bare marks).entries := by
    apply SortedMap.extGet
    intro path
    rw [bare, SortedMap.getFilterMap, mergeEntry, mergeEntry, Contest.bareAt]
    cases Contest.at? heads path <;> rfl
  have conflicts : (merge (heads.map (Head.bare marks))).conflicts = (merge heads).conflicts := by
    apply SortedMap.extGet
    intro path
    rw [mergeConflicts, mergeConflicts, Contest.bareAt]
    cases Contest.at? heads path with
    | none => rfl
    | some c => simp only [Option.map_some, Option.bind_some, Contest.bareConflicts]
  exact congr (congrArg mk entries) conflicts

theorem bareApply (r : Resolution) (n : Node) :
    (r.bare marks).applyChanges (n.bare marks) = (r.applyChanges n).bare marks := by
  have write : ∀ path, (n.bare marks).writeAt? path = n.writeAt? path := fun path =>
    congrArg (fun v => v.changeset.get? path) (Node.bareVersion marks n)
  have entries : ((r.bare marks).applyChanges (n.bare marks)).entries =
      ((r.applyChanges n).bare marks).entries := by
    apply SortedMap.extGet
    intro path
    simp only [bare, applyEntry, SortedMap.getFilterMap, write]
    cases n.writeAt? path <;> rfl
  have conflicts : ((r.bare marks).applyChanges (n.bare marks)).conflicts =
      (r.applyChanges n).conflicts := by
    apply SortedMap.extGet
    intro path
    simp only [applyConflicts, write]
    rfl
  exact congr (congrArg mk entries) conflicts

end Resolution

namespace Node

theorem bareDistinct (ns : List Node) :
    distinct revision (ns.map (bare marks)) = (distinct revision ns).map (bare marks) := by
  have same : (fun n => revision (bare marks n)) = revision := funext (bareRevision marks)
  rw [distinctMap, same]

theorem bareMaximal (ns : List Node) :
    maximal revision ancestry (ns.map (bare marks)) =
      (maximal revision ancestry ns).map (bare marks) := by
  have revisions : (fun n => revision (bare marks n)) = revision := funext (bareRevision marks)
  have ancestries : (fun n => ancestry (bare marks n)) = ancestry := funext (bareAncestry marks)
  rw [maximalMap, revisions, ancestries]

theorem bareSurvivors (ns : List Node) :
    survivors (ns.map (bare marks)) = (survivors ns).map (bare marks) := by
  rw [survivors, bareDistinct, bareMaximal, survivors]

theorem bareJoined {ns : List Node}
    (each : ∀ n ∈ ns, (n.bare marks).resolution = n.resolution.bare marks) :
    joined (ns.map (bare marks)) = (joined ns).bare marks := by
  have heads : ((survivors ns).map (bare marks)).map head =
      ((survivors ns).map head).map (Head.bare marks) := by
    rw [List.map_map, List.map_map]
    refine List.map_congr_left fun n member => ?_
    have same := each n (survivorsSubset ns member)
    simp only [Function.comp_apply, head, Head.bare, bareAncestry, same]
  rw [(resolveHeads (ns.map (bare marks))).2, (resolveHeads ns).2, bareSurvivors]
  cases split : survivors ns with
  | nil => rfl
  | cons h hs =>
    cases hs with
    | nil => exact each h (survivorsSubset ns (by simp [split]))
    | cons k ks =>
      rw [split] at heads
      exact (congrArg Resolution.merge heads).trans (Resolution.bareMerge marks _)

theorem bareResolution (n : Node) : (n.bare marks).resolution = n.resolution.bare marks := by
  induction n using Node.induct with
  | step n ih =>
    rw [resolutionUnfold, bareParents, bareJoined marks ih, Resolution.bareApply,
      ← resolutionUnfold]

end Node

theorem LastWrite.bareWrite (e : LastWrite) : (e.bare marks).toWrite = e.toWrite := by
  rw [toWrite, bareRevision]
  rfl

namespace Resolution

theorem bareLive (r : Resolution) :
    (r.bare marks).live = r.live.filterMap fun _ e => some (e.1.bare marks, e.2) := by
  apply SortedMap.extGet
  intro path
  simp only [live, bare, SortedMap.getFilterMap]
  cases r.entries.get? path with
  | none => rfl
  | some e => cases h : e.value <;> simp [LastWrite.bare, h]

theorem bareShown {α : Type} (f : LastWrite × Value → Option α)
    (same : ∀ e v, f (e.bare marks, v) = f (e, v)) (r : Resolution) :
    ((r.bare marks).live.filterMap fun _ e => f e) = r.live.filterMap fun _ e => f e := by
  apply SortedMap.extGet
  intro path
  simp only [bareLive, SortedMap.getFilterMap]
  cases r.live.get? path with
  | none => rfl
  | some e => exact same e.1 e.2

theorem bareProperties (r : Resolution) : (r.bare marks).properties = r.properties :=
  bareShown marks (fun e => some e.2) (fun _ _ => rfl) r

theorem bareVersioned (r : Resolution) : (r.bare marks).versioned = r.versioned :=
  bareShown marks (fun e => some e.1.toWrite)
    (fun e _ => congrArg some (LastWrite.bareWrite marks e)) r

theorem bareProperty (r : Resolution) (path : Path) :
    (r.bare marks).property? path = r.property? path := by
  rw [property?, property?, bare, SortedMap.getFilterMap]
  cases r.entries.get? path <;> rfl

theorem bareLastWrite (r : Resolution) (path : Path) :
    (r.bare marks).lastWrite? path = r.lastWrite? path := by
  rw [lastWrite?, lastWrite?, bare, SortedMap.getFilterMap]
  cases r.entries.get? path with
  | none => rfl
  | some e => exact congrArg some (LastWrite.bareWrite marks e)

end Resolution

namespace Merge

theorem ofResolutionBare (heads : List Revision) (r : Resolution) :
    ofResolution heads (r.bare marks) = ofResolution heads r := by
  have revisions := Resolution.bareShown marks (fun e => some e.1.revision)
    (fun e _ => congrArg some (LastWrite.bareRevision marks e)) r
  have properties := Resolution.bareShown marks (fun e => some e.2) (fun _ _ => rfl) r
  rw [ofResolution, properties, revisions]
  rfl

theorem ofNodesBare (ns : List Node) : ofNodes (ns.map (Node.bare marks)) = ofNodes ns := by
  by_cases empty : ns = []
  · subst empty
    rfl
  · have filled : ns.map (Node.bare marks) ≠ [] := fun h => empty (List.map_eq_nil_iff.1 h)
    rw [ofNodesOk filled, ofNodesOk empty, Node.bareSurvivors,
      Node.bareJoined marks fun n _ => Node.bareResolution marks n, ofResolutionBare, List.map_map]
    exact congrArg (fun rs => Except.ok (ofResolution rs _))
      (List.map_congr_left fun n _ => Node.bareRevision marks n)

end Merge
end DocHistory
