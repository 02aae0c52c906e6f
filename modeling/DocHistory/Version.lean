import DocHistory.Json
import DocHistory.Path
import DocHistory.Revision

/-!
Versions: changesets with the metadata that places them in a history. A draft has a default for
every field; building checks that a root has no parents, that no version is its own parent and
that the branch has a name.
-/
namespace DocHistory

inductive VersionError where
  | rootWithParents (revision : Revision) (parents : Nat)
  | ownParent (revision : Revision)
  | unnamedBranch (revision : Revision)
  | revisionText (text : String)
  | pathText (text : String) (fault : PathFault)
  deriving DecidableEq, Repr

namespace VersionError

def message : VersionError → String
  | rootWithParents revision parents =>
    "Invalid version: root version " ++ revision.text ++ " declares " ++
      toString parents ++ " parent(s)"
  | ownParent revision =>
    "Invalid version: version " ++ revision.text ++ " lists itself as parent"
  | unnamedBranch revision =>
    "Invalid version: version " ++ revision.text ++ " has an empty branch name"
  | revisionText text => "Invalid revision: " ++ text
  | pathText text fault => "Invalid path: " ++ Text.quote text ++ ": " ++ fault.message

end VersionError

def Revision.ofText (s : String) : Except VersionError Revision :=
  match Revision.ofChars? s.toList with
  | some r => .ok r
  | none => .error (.revisionText s)

def Path.ofText (s : String) : Except VersionError Path :=
  (Path.ofChars s.toList).mapError (.pathText s)

inductive VersionKind where
  | normal
  | root
  deriving DecidableEq, Repr

def VersionKind.name : VersionKind → String
  | normal => "Normal"
  | root => "Root"

/-- What is written at each path; no value stands for a deletion. -/
abbrev Changeset := SortedMap Path (Option Value)

structure Version where
  revision : Revision
  parents : SortedSet Revision
  branch : String
  kind : VersionKind
  changeset : Changeset
  deriving BEq

def Version.isRoot (v : Version) : Bool := v.kind = .root

def defaultBranch : String := "default"

structure Draft where
  revision : Option Revision := none
  parents : SortedSet Revision := ∅
  branch : String := defaultBranch
  kind : VersionKind := .normal
  changeset : Changeset := ∅

namespace Draft

def addParent (d : Draft) (parent : Revision) : Draft :=
  { d with parents := d.parents.add parent }

def setParents (d : Draft) (parents : List Revision) : Draft :=
  { d with parents := SortedSet.ofList parents }

def write (d : Draft) (path : Path) (value : Value) : Draft :=
  { d with changeset := d.changeset.insert path (some value) }

def delete (d : Draft) (path : Path) : Draft :=
  { d with changeset := d.changeset.insert path none }

def apply (d : Draft) (changes : List (Path × Option Value)) : Draft :=
  { d with changeset := d.changeset.insertMany changes }

def build (d : Draft) (fresh : Revision) : Except VersionError Version :=
  let revision := d.revision.getD fresh
  if d.kind = .root ∧ !d.parents.isEmpty then
    .error (.rootWithParents revision d.parents.size)
  else if d.parents.contains revision then .error (.ownParent revision)
  else if d.branch.isEmpty then .error (.unnamedBranch revision)
  else .ok ⟨revision, d.parents, d.branch, d.kind, d.changeset⟩

end Draft
end DocHistory
