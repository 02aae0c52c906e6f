import DocHistory.Version

/-!
Documents as flat properties and back. Flattening lists the leaves of a document, which are its
scalars and empty containers, by their paths; assembling places values at their paths in path
order, so that a deeper path replaces a scalar on its way. The difference of two documents is
the least changeset between their properties.
-/
namespace DocHistory

abbrev Properties := SortedMap Path Value

def maxItems : Nat := 0x100000

structure OversizedIndex where
  position : UInt64
  path : Path
  deriving DecidableEq, Repr

def OversizedIndex.message (e : OversizedIndex) : String :=
  "index " ++ toString e.position.toNat ++ " in " ++ e.path.text ++
    " exceeds the array limit of " ++ toString maxItems

def Path.oversized? (p : Path) : Option UInt64 :=
  p.segments.findSome? fun
    | .index i => if maxItems ≤ i.toNat then some i else none
    | _ => none

namespace Json

/-- Members are properties, but an empty name is a key. -/
def memberStep (name : String) : Segment :=
  if name.isEmpty then .key name else .property name

mutual

def leaves : Json → List (List Segment × Value)
  | array (a :: as) => leavesOfItems 0 (a :: as)
  | object (m :: ms) => leavesOfMembers (m :: ms)
  | array [] => [([], .array [])]
  | object [] => [([], .object [])]
  | null => [([], .null)]
  | bool b => [([], .bool b)]
  | number n => [([], .number n)]
  | string s => [([], .string s)]

def leavesOfItems (position : Nat) : List Json → List (List Segment × Value)
  | [] => []
  | a :: as =>
    a.leaves.map (fun leaf => (.index position.toUInt64 :: leaf.1, leaf.2)) ++
      leavesOfItems (position + 1) as

def leavesOfMembers : List (String × Json) → List (List Segment × Value)
  | [] => []
  | (name, a) :: ms =>
    a.leaves.map (fun leaf => (memberStep name :: leaf.1, leaf.2)) ++ leavesOfMembers ms

end

def itemsOrNone : Json → List Json
  | array items => items
  | _ => []

def membersOrNone : Json → List (String × Json)
  | object members => members
  | _ => []

def child? (document : Json) : Segment → Option Json
  | .index i => document.itemsOrNone[i.toNat]?
  | .property name => Entries.get? name document.membersOrNone
  | .key name => Entries.get? name document.membersOrNone

def child (document : Json) (step : Segment) : Json := (document.child? step).getD null

/-- What is in the way gives place to a container, and an array grows by nulls. -/
def setChild (document a : Json) : Segment → Json
  | .index i =>
    let items := document.itemsOrNone
    array ((items ++ List.replicate (i.toNat + 1 - items.length) null).set i.toNat a)
  | .property name => object (Entries.insert name a document.membersOrNone)
  | .key name => object (Entries.insert name a document.membersOrNone)

def place (a : Json) : List Segment → Json → Json
  | [], _ => a
  | step :: steps, document => document.setChild (place a steps (document.child step)) step

theorem itemsOrdered {d : Json} (ordered : d.Ordered) : ∀ a ∈ d.itemsOrNone, a.Ordered := by
  cases d with
  | array items => exact orderedItems.1 ordered
  | _ => exact fun _ listed => absurd listed List.not_mem_nil

theorem membersOrdered {d : Json} (ordered : d.Ordered) :
    Entries.Ascending d.membersOrNone ∧ ∀ m ∈ d.membersOrNone, m.2.Ordered := by
  cases d with
  | object members => exact ⟨ordered.1, orderedMembers.1 ordered.2⟩
  | _ => exact ⟨List.Pairwise.nil, fun _ listed => absurd listed List.not_mem_nil⟩

theorem childOrdered {d : Json} (ordered : d.Ordered) (step : Segment) : (d.child step).Ordered := by
  rw [child]
  cases found : d.child? step with
  | none => trivial
  | some a =>
    cases step with
    | index i => exact itemsOrdered ordered a (List.mem_of_getElem? found)
    | _ name => exact (membersOrdered ordered).2 (name, a) (Entries.memOfGet found)

theorem setChildOrdered {d a : Json} (ordered : d.Ordered) (own : a.Ordered) (step : Segment) :
    (d.setChild a step).Ordered := by
  cases step with
  | index i =>
    refine orderedItems.2 fun b member => ?_
    rcases List.mem_or_eq_of_mem_set member with old | rfl
    · rcases List.mem_append.1 old with item | fill
      · exact itemsOrdered ordered b item
      · obtain rfl := (List.mem_replicate.1 fill).2
        trivial
    · exact own
  | _ name =>
    obtain ⟨ascending, members⟩ := membersOrdered ordered
    refine ⟨ascending.insertWith, orderedMembers.2 fun m member => ?_⟩
    rcases Entries.memInserted member with rfl | old
    · exact own
    · exact members m old

theorem placeOrdered {a : Json} (own : a.Ordered) (steps : List Segment) {d : Json}
    (ordered : d.Ordered) : (place a steps d).Ordered := by
  induction steps generalizing d with
  | nil => exact own
  | cons step steps ih => exact setChildOrdered ordered (ih (childOrdered ordered step)) step

end Json

namespace Value

def flatten (document : Value) : Properties :=
  if document.isNull then ∅
  else SortedMap.ofList (document.json.leaves.map fun leaf => (⟨leaf.1⟩, leaf.2))

def place (a : Value) (steps : List Segment) (document : Value) : Value :=
  ⟨a.json.place steps document.json, Json.placeOrdered a.ordered steps document.ordered⟩

def changes (previous next : Value) : Changeset :=
  let before := previous.flatten
  let after := next.flatten
  let deleted : Changeset := before.filterMap fun path _ =>
    if after.contains path then none else some none
  let written : Changeset := after.filterMap fun path a =>
    if before.get? path == some a then none else some (some a)
  deleted.union written

end Value

namespace Properties

def placeNext (document : Value) (entry : Path × Value) : Except OversizedIndex Value :=
  match entry.1.oversized? with
  | some position => .error ⟨position, entry.1⟩
  | none => .ok (entry.2.place entry.1.segments document)

def assemble (properties : Properties) : Except OversizedIndex Value :=
  properties.entries.foldlM placeNext .null

def applyWrite (properties : Properties) (change : Path × Option Value) : Properties :=
  match change.2 with
  | some value => properties.insert change.1 value
  | none => properties.erase change.1

def apply (properties : Properties) (changes : Changeset) : Properties :=
  changes.entries.foldl applyWrite properties

end Properties
end DocHistory
