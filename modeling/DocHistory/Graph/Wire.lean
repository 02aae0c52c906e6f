import DocHistory.Graph
import DocHistory.Version.Wire

/-!
Serialized forms of graph configurations, writes and merges. A configuration may lack fields, in
a list the last ones, which then have their defaults.
-/
namespace DocHistory

namespace Config

def fieldNames : List String := ["max_layer_depth", "cache_capacity"]

def toWire (c : Config) : Wire :=
  .record [("max_layer_depth", .number (.int c.maxLayers)),
    ("cache_capacity", .number (.int c.capacity))]

def sizeOfWire : Wire → Reading Nat
  | .number (.int z) => if 0 ≤ z ∧ z < UInt64.size then .ok z.toNat else .error .malformed
  | _ => .error .malformed

structure Parts where
  maxLayers : Option Nat := none
  capacity : Option Nat := none

def Parts.read (p : Parts) : String × Wire → Reading Parts
  | ("max_layer_depth", w) => do
    let n ← Wire.fill p.maxLayers (sizeOfWire w)
    .ok { p with maxLayers := n }
  | ("cache_capacity", w) => do
    let n ← Wire.fill p.capacity (sizeOfWire w)
    .ok { p with capacity := n }
  | _ => .ok p

def fieldsOf : Wire → Reading (List (String × Wire) × Bool)
  | .record members => .ok (members, true)
  | .severed members => .ok (members, false)
  | .list items => .ok (fieldNames.zip items, items.length ≤ fieldNames.length)
  | _ => .error .malformed

def ofWire (w : Wire) : Reading Config := do
  let (fields, fits) ← fieldsOf w
  let p ← fields.foldlM Parts.read {}
  let default : Config := {}
  if fits then
    .ok ⟨p.maxLayers.getD default.maxLayers, p.capacity.getD default.capacity⟩
  else .error .malformed

end Config

namespace Write

def fieldNames : List String := ["revision", "value"]

def toWire (w : Write) : Wire :=
  .record [("revision", w.revision.toWire), ("value", writeToWire w.value)]

structure Parts where
  revision : Option Revision := none
  value : Option (Option Value) := none

def Parts.read (p : Parts) : String × Wire → Reading Parts
  | ("revision", w) => do
    let r ← Wire.fill p.revision (Revision.ofWire w)
    .ok { p with revision := r }
  | ("value", w) => do
    let v ← Wire.fill p.value (writeOfWire w)
    .ok { p with value := v }
  | _ => .ok p

def ofWire (w : Wire) : Reading Write := do
  let (fields, complete) ← w.fields fieldNames
  let p ← fields.foldlM Parts.read {}
  if !complete then .error .malformed
  else
    let revision ← Wire.need p.revision
    .ok ⟨revision, p.value.getD none⟩

end Write

namespace Merge

def fieldNames : List String := ["merge_heads", "properties", "revisions", "conflicts"]

def mapToWire {α : Type} (value : α → Wire) (m : SortedMap Path α) : Wire :=
  .record (m.entries.map fun e => (e.1.text, value e.2))

def mapOfWire {α : Type} (value : Wire → Reading α) (w : Wire) : Reading (SortedMap Path α) :=
  w.asMap Path.ofKey value

def toWire (m : Merge) : Wire :=
  .record [("merge_heads", .list (m.heads.toList.map Revision.toWire)),
    ("properties", mapToWire Value.toWire m.properties),
    ("revisions", mapToWire Revision.toWire m.revisions),
    ("conflicts", mapToWire (fun ws => .list (ws.map Write.toWire)) m.conflicts)]

structure Parts where
  heads : Option (SortedSet Revision) := none
  properties : Option (SortedMap Path Value) := none
  revisions : Option (SortedMap Path Revision) := none
  conflicts : Option (SortedMap Path (List Write)) := none

def Parts.read (p : Parts) : String × Wire → Reading Parts
  | ("merge_heads", w) => do
    let rs ← Wire.fill p.heads ((w.asList Revision.ofWire).map SortedSet.ofList)
    .ok { p with heads := rs }
  | ("properties", w) => do
    let m ← Wire.fill p.properties (mapOfWire Wire.asValue w)
    .ok { p with properties := m }
  | ("revisions", w) => do
    let m ← Wire.fill p.revisions (mapOfWire Revision.ofWire w)
    .ok { p with revisions := m }
  | ("conflicts", w) => do
    let m ← Wire.fill p.conflicts (mapOfWire (Wire.asList Write.ofWire) w)
    .ok { p with conflicts := m }
  | _ => .ok p

def ofWire (w : Wire) : Reading Merge := do
  let (fields, complete) ← w.fields fieldNames
  let p ← fields.foldlM Parts.read {}
  if !complete then .error .malformed
  else
    let heads ← Wire.need p.heads
    let properties ← Wire.need p.properties
    let revisions ← Wire.need p.revisions
    let conflicts ← Wire.need p.conflicts
    .ok ⟨heads, properties, revisions, conflicts⟩

end Merge
end DocHistory
