import DocHistory.Text

/-!
Revisions: identifiers of versions in one total order. A revision is a reading of the wall
clock in milliseconds, the origin that drew it and a number within both, compared in this order.
Its text has three hexadecimal fields with a dash between them. A clock draws strictly
increasing revisions for one origin, whatever the wall clock reads.
-/
namespace DocHistory

structure Revision where
  timestamp : UInt64
  origin : UInt16
  sequence : UInt32
  deriving DecidableEq, Repr, Inhabited

namespace Revision

instance : Ord Revision :=
  ⟨compareLex (compareOn timestamp) (compareLex (compareOn origin) (compareOn sequence))⟩

instance : Std.TransOrd Revision :=
  inferInstanceAs (Std.TransCmp
    (compareLex (compareOn timestamp) (compareLex (compareOn origin) (compareOn sequence))))

instance : Std.LawfulEqOrd Revision where
  eq_of_compare {a b} h := by
    have h : (compareOn timestamp a b).then
        ((compareOn origin a b).then (compareOn sequence a b)) = .eq := h
    simp only [Ordering.then_eq_eq, compareOn, Std.LawfulEqCmp.compare_eq_iff_eq] at h
    obtain ⟨h₁, h₂, h₃⟩ := h
    cases a
    cases b
    simp_all

def chars (r : Revision) : List Char :=
  Radix.padded 16 12 r.timestamp.toNat ++ '-' :: Radix.padded 16 4 r.origin.toNat ++
    '-' :: Radix.padded 16 8 r.sequence.toNat

def text (r : Revision) : String := String.ofList r.chars

def short (r : Revision) : String :=
  String.ofList (Radix.padded 16 4 r.origin.toNat ++ ':' :: Radix.text 16 r.sequence.toNat)

def describe (r : Revision) : String := "Revision(" ++ r.text ++ ")"

def fields : List Char → List (List Char)
  | [] => [[]]
  | c :: cs =>
    match fields cs with
    | [] => [[c]]
    | f :: fs => if c = '-' then [] :: f :: fs else (c :: f) :: fs

def field? (bound : Nat) (cs : List Char) : Option Nat :=
  let digits := match cs with
    | '+' :: rest => rest
    | _ => cs
  (Radix.read? 16 digits).filter (· < bound)

def ofChars? (cs : List Char) : Option Revision :=
  match fields cs with
  | [t, o, s] => do
    let timestamp ← field? UInt64.size t
    let origin ← field? UInt16.size o
    let sequence ← field? UInt32.size s
    some ⟨timestamp.toUInt64, origin.toUInt16, sequence.toUInt32⟩
  | _ => none

end Revision

structure RevisionClock where
  origin : UInt16
  last : Option (UInt64 × UInt32) := none
  deriving DecidableEq, Repr

namespace RevisionClock

/-- A count that is used up moves the timestamp instead. -/
def advance (now : UInt64) : Option (UInt64 × UInt32) → UInt64 × UInt32
  | none => (now, 0)
  | some (timestamp, sequence) =>
    if timestamp < now then (now, 0)
    else if sequence = 0xffffffff then (timestamp + 1, 0)
    else (timestamp, sequence + 1)

def next (clock : RevisionClock) (now : UInt64) : Revision × RevisionClock :=
  let (timestamp, sequence) := advance now clock.last
  (⟨timestamp, clock.origin, sequence⟩, { clock with last := some (timestamp, sequence) })

def draw (clock : RevisionClock) : List UInt64 → List Revision × RevisionClock
  | [] => ([], clock)
  | now :: readings =>
    let (revision, clock) := clock.next now
    let (revisions, clock) := clock.draw readings
    (revision :: revisions, clock)

end RevisionClock
end DocHistory
