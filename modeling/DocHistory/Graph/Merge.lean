import DocHistory.Graph.Node

/-!
How a document looks at a node, and at several of them: the last write to every path, and the
writes that lost against it without having been seen. A node takes over the view of its parents
and writes its changeset on top; several parents are merged path by path. Of the last writes
that the heads hold the one of the greatest revision wins, whether or not it has seen the
others.
-/
namespace DocHistory

inductive GraphError where
  | missingParent (revision parent : Revision)
  | duplicateRevision (revision : Revision)
  | notFound (revision : Revision)
  | nothingToMerge
  | version (error : VersionError)
  deriving DecidableEq, Repr

def GraphError.message : GraphError → String
  | missingParent revision parent =>
    "Version not found: parent " ++ parent.text ++ " of " ++ revision.text
  | duplicateRevision revision => "Duplicate revision: " ++ revision.text
  | notFound revision => "Version not found: " ++ revision.text
  | nothingToMerge => "Nothing to merge: at least one head is required"
  | version e => e.message

structure Write where
  revision : Revision
  value : Option Value
  deriving BEq

structure LastWrite where
  value : Option Value
  writer : Node

namespace LastWrite

def revision (e : LastWrite) : Revision := e.writer.revision

def toWrite (e : LastWrite) : Write := ⟨e.revision, e.value⟩

end LastWrite

structure Resolution where
  entries : SortedMap Path LastWrite := ∅
  conflicts : SortedMap Path (List Write) := ∅

def distinct {α : Type} (revision : α → Revision) (as : List α) : List α :=
  (SortedMap.ofList (as.map fun a => (revision a, a))).values

def maximal {α : Type} (revision : α → Revision) (ancestry : α → Ancestry) (as : List α) :
    List α :=
  as.filter fun a =>
    !as.any fun b => revision b != revision a && (ancestry b).contains (revision a)

structure Head where
  node : Node
  ancestry : Ancestry
  view : Resolution

/-- What the heads know about one path: the last write of the greatest revision, the other last
writes by ascending revision, the ancestries of the heads that hold the winner, and the
conflicts that the heads carry. -/
structure Contest where
  winner : LastWrite
  losers : List LastWrite
  holders : List Ancestry
  carried : List Write

namespace Contest

def writesAt (path : Path) (heads : List Head) : SortedMap Revision LastWrite :=
  heads.foldl (fun m h =>
    match h.view.entries.get? path with
    | some e => m.insertNew e.revision e
    | none => m) ∅

def holds (path : Path) (r : Revision) (h : Head) : Bool :=
  match h.view.entries.get? path with
  | some e => e.revision = r
  | none => false

def carriedAt (path : Path) (h : Head) : List Write := (h.view.conflicts.get? path).getD []

def at? (heads : List Head) (path : Path) : Option Contest :=
  let writes := writesAt path heads
  writes.last?.map fun last =>
    { winner := last.2
      losers := writes.values.dropLast
      holders := (heads.filter (holds path last.1)).map Head.ancestry
      carried := heads.flatMap (carriedAt path) }

def rivals (c : Contest) : List LastWrite := c.winner :: c.losers

def knownToHolder (c : Contest) (r : Revision) : Bool := c.holders.any (·.contains r)

def overtaken (c : Contest) (r : Revision) : Bool :=
  c.rivals.any fun e => e.revision != r && e.writer.descendsFrom r

def isFresh (c : Contest) (e : LastWrite) : Bool :=
  !(c.knownToHolder e.revision || c.overtaken e.revision || e.value == c.winner.value)

def isCarried (c : Contest) (w : Write) : Bool :=
  !(w.revision == c.winner.revision || w.value == c.winner.value || c.overtaken w.revision)

/-- Conflicts by ascending revision. A fresh loser stands before a carried one of its revision,
and that before the same carried by a later head. -/
def collect (fresh : List LastWrite) (carried : List Write) : List Write :=
  let start : SortedMap Revision (Option Value) :=
    SortedMap.ofList (fresh.map fun e => (e.revision, e.value))
  let all := carried.foldl (fun m w => m.insertNew w.revision w.value) start
  all.entries.map fun e => ⟨e.1, e.2⟩

def conflicts (c : Contest) : List Write :=
  collect (c.losers.filter c.isFresh) (c.carried.filter c.isCarried)

end Contest

namespace Resolution

def paths (heads : List Head) : List Path :=
  (heads.foldl (fun (s : SortedSet Path) h =>
    s.union (h.view.entries.filterMap fun _ _ => some ())) ∅).keys

def ofOutcomes (outcomes : List (Path × LastWrite × List Write)) : Resolution where
  entries := SortedMap.ofList (outcomes.map fun o => (o.1, o.2.1))
  conflicts := SortedMap.ofList ((outcomes.filter fun o => !o.2.2.isEmpty).map fun o => (o.1, o.2.2))

def merge (heads : List Head) : Resolution :=
  ofOutcomes ((paths heads).filterMap fun path =>
    (Contest.at? heads path).map fun c => (path, c.winner, c.conflicts))

def resolve (requested : List Head) : List Head × Resolution :=
  let heads := maximal (·.node.revision) Head.ancestry (distinct (·.node.revision) requested)
  match heads with
  | [] => (heads, {})
  | [h] => (heads, h.view)
  | _ => (heads, merge heads)

def inherit : List Head → Resolution
  | [] => {}
  | [h] => h.view
  | hs => (resolve hs).2

def applyChanges (r : Resolution) (n : Node) : Resolution :=
  n.changeset.entries.foldl (fun r change =>
    { entries := r.entries.insert change.1 ⟨change.2, n⟩
      conflicts := r.conflicts.erase change.1 }) r

def live (r : Resolution) : SortedMap Path (LastWrite × Value) :=
  r.entries.filterMap fun _ e => e.value.map fun v => (e, v)

def properties (r : Resolution) : SortedMap Path Value := r.live.filterMap fun _ e => some e.2

def versioned (r : Resolution) : SortedMap Path Write :=
  r.live.filterMap fun _ e => some e.1.toWrite

def property? (r : Resolution) (path : Path) : Option Value :=
  (r.entries.get? path).bind LastWrite.value

def lastWrite? (r : Resolution) (path : Path) : Option Write :=
  (r.entries.get? path).map LastWrite.toWrite

end Resolution

mutual

def Node.resolution : Node → Resolution
  | ⟨version, parents, sequence, id, pool⟩ =>
    (Resolution.inherit (Node.heads parents)).applyChanges ⟨version, parents, sequence, id, pool⟩

def Node.heads : List Node → List Head
  | [] => []
  | p :: ps => ⟨p, p.ancestry, p.resolution⟩ :: Node.heads ps

end

structure Merge where
  heads : SortedSet Revision := ∅
  properties : SortedMap Path Value := ∅
  revisions : SortedMap Path Revision := ∅
  conflicts : SortedMap Path (List Write) := ∅
  deriving BEq

namespace Merge

def empty : Merge := {}

def isEmpty (m : Merge) : Bool := m.heads.isEmpty

def hasConflicts (m : Merge) : Bool := !m.conflicts.isEmpty

def conflictsAt (m : Merge) (path : Path) : List Write := (m.conflicts.get? path).getD []

def ofResolution (heads : List Revision) (r : Resolution) : Merge where
  heads := SortedSet.ofList heads
  properties := r.live.filterMap fun _ e => some e.2
  revisions := r.live.filterMap fun _ e => some e.1.revision
  conflicts := r.conflicts

def ofNodes (nodes : List Node) : Except GraphError Merge :=
  if nodes.isEmpty then .error .nothingToMerge
  else
    let (heads, r) := Resolution.resolve (Node.heads nodes)
    .ok (ofResolution (heads.map fun h => h.node.revision) r)

end Merge
end DocHistory
