import DocHistory.Graph.Cache
import DocHistory.Store

/-!
Repositories: graphs of documents kept in a store. A commit extends the graph first, so that the
store is not touched by versions that the graph refuses; if the store then fails, whatever it has
staged is rolled back. A document is written to a branch as the least changeset that leads to it
from the newest nodes of the branch.
-/
namespace DocHistory.Repository

def load (config : Config) (id : DocumentId) (fresh : Nat) (s : Store) :
    Except StoreError Graph := do
  let versions ← s.load id
  ((Graph.empty config fresh).commit versions (fresh + 1)).mapError .graph

def persist (outage : Outage) (id : DocumentId) (versions : List Version) (s : Store) :
    Except StoreError Unit × Store :=
  match s.tryAppend id versions outage with
  | .error e => (.error e, s)
  | .ok staged =>
    match staged.tryCommit outage with
    | .error e => (.error e, staged)
    | .ok committed => (.ok (), committed)

/-- The graph with the versions, which the store then holds as well. A fault of the rollback
hides the fault that made it necessary. -/
def commit (outage : Outage) (id : DocumentId) (g : Graph) (versions : List Version)
    (fresh : Nat) (s : Store) : Except StoreError Graph × Store :=
  if versions.isEmpty then (.ok g, s)
  else
    match g.commit versions fresh with
    | .error e => (.error (.graph e), s)
    | .ok extended =>
      match persist outage id versions s with
      | (.ok (), stored) => (.ok extended, stored)
      | (.error e, s) =>
        match s.tryRollback outage with
        | .ok clean => (.error e, clean)
        | .error e' => (.error e', s)

def document (merged : Except GraphError Merge) : Except StoreError Value := do
  let m ← merged.mapError .graph
  (Properties.assemble m.properties).mapError .oversizedIndex

def read (g : Graph) (branches : List String) : Except StoreError Value :=
  document (g.mergeBranches branches)

def revise (branch : String) (parents : List Revision) (merged : Except GraphError Merge)
    (next : Value) (fresh : Revision) : Except StoreError (Option Version) := do
  let previous ← document merged
  let changeset := previous.changes next
  if changeset.isEmpty then .ok none
  else
    let draft : Draft := { parents := SortedSet.ofList parents, branch, changeset }
    let v ← (draft.build fresh).mapError fun e => .graph (.version e)
    .ok (some v)

def record (outage : Outage) (id : DocumentId) (g : Graph)
    (revised : Except StoreError (Option Version)) (fresh : Nat) (s : Store) :
    Except StoreError Graph × Store :=
  match revised with
  | .error e => (.error e, s)
  | .ok none => (.ok g, s)
  | .ok (some v) => commit outage id g [v] fresh s

def write (outage : Outage) (id : DocumentId) (g : Graph) (branch : String) (next : Value)
    (revision : Revision) (fresh : Nat) (s : Store) : Except StoreError Graph × Store :=
  let parents := (g.frontier branch).map Node.revision
  record outage id g (revise branch parents (g.mergeRevisions parents) next revision) fresh s

end DocHistory.Repository

namespace DocHistory.Cache

def readDocument (g : Graph) (branches : List String) : StateM Cache (Except StoreError Value) := do
  return Repository.document (← mergeBranches g branches)

def writeDocument (outage : Outage) (id : DocumentId) (g : Graph) (branch : String) (next : Value)
    (revision : Revision) (fresh : Nat) (s : Store) :
    StateM Cache (Except StoreError Graph × Store) := do
  let parents := (← frontier g branch).map Node.revision
  let merged ← mergeRevisions g parents
  return Repository.record outage id g (Repository.revise branch parents merged next revision)
    fresh s

end DocHistory.Cache
