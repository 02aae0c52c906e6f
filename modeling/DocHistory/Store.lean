import DocHistory.Document
import DocHistory.Graph.Merge
import DocHistory.Version.Wire

/-!
Stores: per document a log of versions that only grows. Appended versions are staged; a commit
of the store adds all staged versions to the logs, a rollback forgets them, whatever document
they belong to. Where calls may fail, a failing call leaves the store as it is. In text a store
is its logs without what is staged, and whatever was written as null reads back as a deletion.
-/
namespace DocHistory

def DocumentId.bound : Nat := 0x100000000000000000000000000000000

structure DocumentId where
  number : Nat
  bounded : number < DocumentId.bound
  deriving DecidableEq

inductive DocumentIdFault where
  | length
  | character
  deriving DecidableEq, Repr

def DocumentIdFault.message : DocumentIdFault → String
  | length => "invalid length"
  | character => "invalid character"

namespace DocumentId

instance : Ord DocumentId := ⟨compareOn number⟩

instance : Std.TransOrd DocumentId := inferInstanceAs (Std.TransCmp (compareOn number))

instance : Std.LawfulEqOrd DocumentId where
  eq_of_compare {a b} h := by
    have h : compare a.number b.number = .eq := h
    cases a
    cases b
    simpa using Std.LawfulEqCmp.eq_of_compare h

def ofNat (n : Nat) : DocumentId := ⟨n % bound, Nat.mod_lt _ (by decide)⟩

def entropyBound : Nat := 0x100000000000000000000

def ofClock (milliseconds entropy : Nat) : DocumentId :=
  ofNat (milliseconds * entropyBound + entropy % entropyBound)

def textLength : Nat := 26

def alphabet : List Char := "0123456789ABCDEFGHJKMNPQRSTVWXYZ".toList

def digits : Nat → Nat → List Char
  | 0, _ => []
  | n + 1, number => digits n (number / 32) ++ [alphabet.getD (number % 32) '0']

def text (id : DocumentId) : String := String.ofList (digits textLength id.number)

def digit? (c : Char) : Option Nat := alphabet.findIdx? (· = c.toUpper)

def ofText (s : String) : Except DocumentIdFault DocumentId :=
  if s.utf8ByteSize ≠ textLength then .error .length
  else
    match s.toList.mapM digit? with
    | none => .error .character
    | some ds => .ok (ofNat (ds.foldl (fun n d => n * 32 + d) 0))

end DocumentId

inductive StoreCall where
  | append
  | commit
  | rollback
  deriving DecidableEq, Repr

def StoreCall.name : StoreCall → String
  | append => "append"
  | commit => "commit"
  | rollback => "rollback"

inductive StoreError where
  | documentNotFound (id : DocumentId)
  | graph (error : GraphError)
  | oversizedIndex (error : OversizedIndex)
  | documentId (text : String) (fault : DocumentIdFault)
  | unreadable (error : ReadError)
  | refused (call : StoreCall)
  deriving DecidableEq

def StoreError.message : StoreError → String
  | documentNotFound id => "Document not found: " ++ id.text
  | graph e => e.message
  | oversizedIndex e => "Serialization error: " ++ e.message
  | documentId text fault =>
    "Serialization error: invalid document id " ++ Text.quote text ++ ": " ++ fault.message
  | unreadable e => "Serialization error: " ++ e.message
  | refused call => "Serialization error: injected " ++ call.name ++ " failure"

abbrev VersionLogs := SortedMap DocumentId (List Version)

namespace VersionLogs

def extend (logs : VersionLogs) (id : DocumentId) (versions : List Version) : VersionLogs :=
  if versions.isEmpty then logs
  else logs.insert id ((logs.get? id).getD [] ++ versions)

def extendAll (logs more : VersionLogs) : VersionLogs :=
  more.entries.foldl (fun logs e => VersionLogs.extend logs e.1 e.2) logs

def total (logs : VersionLogs) : Nat := logs.values.foldl (fun n versions => n + versions.length) 0

end VersionLogs

structure Store where
  committed : VersionLogs := ∅
  pending : VersionLogs := ∅

abbrev Outage := List StoreCall

namespace Store

def empty : Store := {}

def append (id : DocumentId) (versions : List Version) (s : Store) : Store :=
  { s with pending := VersionLogs.extend s.pending id versions }

def commit (s : Store) : Store :=
  { committed := VersionLogs.extendAll s.committed s.pending, pending := ∅ }

def rollback (s : Store) : Store := { s with pending := ∅ }

def load (id : DocumentId) (s : Store) : Except StoreError (List Version) :=
  match s.committed.get? id with
  | some versions => .ok versions
  | none => .error (.documentNotFound id)

def documents (s : Store) : List DocumentId := s.committed.keys

def size (s : Store) : Nat := VersionLogs.total s.committed

def pendingSize (s : Store) : Nat := VersionLogs.total s.pending

def isEmpty (s : Store) : Bool := s.size = 0

def describe (s : Store) : String :=
  "MemoryVersionStore \x7b documents: " ++ toString s.committed.size ++
    ", committed: " ++ toString s.size ++
    ", pending: " ++ toString s.pendingSize ++ " \x7d"

/-! Calls that may fail. -/

def attempt (call : StoreCall) (change : Store → Store) (outage : Outage) (s : Store) :
    Except StoreError Store :=
  if outage.contains call then .error (.refused call) else .ok (change s)

def tryAppend (id : DocumentId) (versions : List Version) : Outage → Store →
    Except StoreError Store :=
  attempt .append (append id versions)

def tryCommit : Outage → Store → Except StoreError Store := attempt .commit commit

def tryRollback : Outage → Store → Except StoreError Store := attempt .rollback rollback

end Store

def DocumentId.toWire (id : DocumentId) : Wire := .text id.text

def DocumentId.ofKey (s : String) : Reading DocumentId :=
  (DocumentId.ofText s).mapError fun _ => .malformed

def DocumentId.ofWire (w : Wire) : Reading DocumentId := w.asText >>= ofKey

namespace Store

def toWire (s : Store) : Wire :=
  .record (s.committed.entries.map fun e => (e.1.text, .list (e.2.map Version.toWire)))

def dump (s : Store) : String := s.toWire.render

def ofWire (w : Wire) : Reading Store := do
  let committed ← w.asMap DocumentId.ofKey (Wire.asList Version.ofWire)
  .ok { committed }

def restore (s : String) : Except StoreError Store :=
  (Wire.decode ofWire s).mapError .unreadable

end Store
end DocHistory
