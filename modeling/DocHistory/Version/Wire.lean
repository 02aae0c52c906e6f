import DocHistory.Wire
import DocHistory.Version

/-!
Serialized forms of revisions, paths and versions. Records are also read from lists of their
fields in order; fields of other names are passed over, and a field given twice is a fault.
Reading reports the first fault in the order of the text.
-/
namespace DocHistory

inductive ReadError where
  | malformed
  | version (error : VersionError)
  deriving DecidableEq, Repr

def ReadError.message : ReadError → String
  | malformed => ""
  | version e => e.message

abbrev Reading (α : Type) := Except ReadError α

namespace Wire

def asText : Wire → Reading String
  | text s => .ok s
  | _ => .error .malformed

def asList {α : Type} (item : Wire → Reading α) : Wire → Reading (List α)
  | list items => items.mapM item
  | _ => .error .malformed

def asEntries {κ α : Type} [Ord κ] [Std.TransOrd κ] (key : String → Reading κ)
    (value : Wire → Reading α) (members : List (String × Wire)) : Reading (SortedMap κ α) :=
  members.foldlM (fun m e => do
    let k ← key e.1
    let a ← value e.2
    .ok (m.insert k a)) ∅

def asMap {κ α : Type} [Ord κ] [Std.TransOrd κ] (key : String → Reading κ)
    (value : Wire → Reading α) : Wire → Reading (SortedMap κ α)
  | record members => asEntries key value members
  | severed members => do
    let _ ← asEntries key value members
    .error .malformed
  | _ => .error .malformed

def asOption {α : Type} (value : Wire → Reading α) : Wire → Reading (Option α)
  | null => .ok none
  | w => (value w).map some

def asValue (w : Wire) : Reading Value :=
  match w.toValue? with
  | some a => .ok a
  | none => .error .malformed

def fields (names : List String) : Wire → Reading (List (String × Wire) × Bool)
  | record members => .ok (members, true)
  | severed members => .ok (members, false)
  | list items => .ok (names.zip items, items.length = names.length)
  | _ => .error .malformed

def fill {α : Type} (slot : Option α) (value : Reading α) : Reading (Option α) :=
  match slot with
  | some _ => .error .malformed
  | none => value.map some

def need {α : Type} : Option α → Reading α
  | some a => .ok a
  | none => .error .malformed

def decode {α : Type} (interpret : Wire → Reading α) (s : String) : Reading α :=
  let (w, whole) := ofText s
  do
    let a ← interpret w
    if whole then .ok a else .error .malformed

end Wire

namespace Revision

def toWire (r : Revision) : Wire := .text r.text

def ofKey (s : String) : Reading Revision := (Revision.ofText s).mapError .version

def ofWire (w : Wire) : Reading Revision := w.asText >>= ofKey

end Revision

namespace Path

def toWire (p : Path) : Wire := .text p.text

def ofKey (s : String) : Reading Path := (Path.ofText s).mapError .version

def ofWire (w : Wire) : Reading Path := w.asText >>= ofKey

end Path

namespace VersionKind

def toWire (k : VersionKind) : Wire := .text k.name

def ofName : String → Reading VersionKind
  | "Normal" => .ok .normal
  | "Root" => .ok .root
  | _ => .error .malformed

def ofWire : Wire → Reading VersionKind
  | .text s => ofName s
  | .record [(s, w)] => do
    let k ← ofName s
    match w with
    | .null => .ok k
    | _ => .error .malformed
  | _ => .error .malformed

end VersionKind

def writeToWire : Option Value → Wire
  | some a => a.toWire
  | none => .null

def writeOfWire (w : Wire) : Reading (Option Value) := w.asOption Wire.asValue

namespace Version

def fieldNames : List String := ["revision", "parents", "branch", "kind", "changeset"]

def changesetToWire (c : Changeset) : Wire :=
  .record (c.entries.map fun e => (e.1.text, writeToWire e.2))

def changesetOfWire (w : Wire) : Reading Changeset := w.asMap Path.ofKey writeOfWire

def toWire (v : Version) : Wire :=
  .record [("revision", v.revision.toWire),
    ("parents", .list (v.parents.toList.map Revision.toWire)),
    ("branch", .text v.branch),
    ("kind", v.kind.toWire),
    ("changeset", changesetToWire v.changeset)]

structure Parts where
  revision : Option Revision := none
  parents : Option (SortedSet Revision) := none
  branch : Option String := none
  kind : Option VersionKind := none
  changeset : Option Changeset := none

def Parts.read (p : Parts) : String × Wire → Reading Parts
  | ("revision", w) => do
    let r ← Wire.fill p.revision (Revision.ofWire w)
    .ok { p with revision := r }
  | ("parents", w) => do
    let rs ← Wire.fill p.parents ((w.asList Revision.ofWire).map SortedSet.ofList)
    .ok { p with parents := rs }
  | ("branch", w) => do
    let b ← Wire.fill p.branch w.asText
    .ok { p with branch := b }
  | ("kind", w) => do
    let k ← Wire.fill p.kind (VersionKind.ofWire w)
    .ok { p with kind := k }
  | ("changeset", w) => do
    let c ← Wire.fill p.changeset (changesetOfWire w)
    .ok { p with changeset := c }
  | _ => .ok p

/-- None of the checks of a draft are made. -/
def ofWire (w : Wire) : Reading Version := do
  let (fields, complete) ← w.fields fieldNames
  let p ← fields.foldlM Parts.read {}
  if !complete then .error .malformed
  else
    let revision ← Wire.need p.revision
    let parents ← Wire.need p.parents
    let branch ← Wire.need p.branch
    let kind ← Wire.need p.kind
    let changeset ← Wire.need p.changeset
    .ok ⟨revision, parents, branch, kind, changeset⟩

end Version
end DocHistory
