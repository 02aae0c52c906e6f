import DocHistory.SortedMap
import DocHistory.Number

/-!
JSON values. The members of an object are kept in ascending order of their names; `Ordered`
says so throughout a value. Values are compared by `alike`, for which the two zeros are one
number while an integer differs from the float of equal size. `alike` is an equivalence.
-/
namespace DocHistory

inductive Json where
  | null
  | bool (value : Bool)
  | number (value : Number)
  | string (value : String)
  | array (items : List Json)
  | object (members : List (String × Json))
  deriving Repr, Inhabited

namespace Json

mutual

def alike : Json → Json → Bool
  | null, null => true
  | bool a, bool b => a == b
  | number a, number b => a.alike b
  | string a, string b => a == b
  | array as, array bs => alikeItems as bs
  | object as, object bs => alikeMembers as bs
  | _, _ => false

def alikeItems : List Json → List Json → Bool
  | [], [] => true
  | a :: as, b :: bs => a.alike b && alikeItems as bs
  | _, _ => false

def alikeMembers : List (String × Json) → List (String × Json) → Bool
  | [], [] => true
  | (k, a) :: as, (l, b) :: bs => k == l && a.alike b && alikeMembers as bs
  | _, _ => false

end

instance : BEq Json := ⟨alike⟩

mutual

def Ordered : Json → Prop
  | array items => OrderedItems items
  | object members => Entries.Ascending members ∧ OrderedMembers members
  | _ => True

def OrderedItems : List Json → Prop
  | [] => True
  | a :: as => a.Ordered ∧ OrderedItems as

def OrderedMembers : List (String × Json) → Prop
  | [] => True
  | (_, a) :: as => a.Ordered ∧ OrderedMembers as

end

mutual

def unsignedZeros : Json → Json
  | number n => number n.unsignedZero
  | array items => array (unsignedItems items)
  | object members => object (unsignedMembers members)
  | null => null
  | bool b => bool b
  | string s => string s

def unsignedItems : List Json → List Json
  | [] => []
  | a :: as => a.unsignedZeros :: unsignedItems as

def unsignedMembers : List (String × Json) → List (String × Json)
  | [] => []
  | (k, a) :: as => (k, a.unsignedZeros) :: unsignedMembers as

end

mutual

theorem alikeIff : (a b : Json) → a.alike b = true ↔ a.unsignedZeros = b.unsignedZeros
  | array as, b => by cases b <;> simp [alike, unsignedZeros, alikeItemsIff as]
  | object as, b => by cases b <;> simp [alike, unsignedZeros, alikeMembersIff as]
  | number a, b => by cases b <;> simp [alike, unsignedZeros, Number.alike]
  | null, b => by cases b <;> simp [alike, unsignedZeros]
  | bool a, b => by cases b <;> simp [alike, unsignedZeros]
  | string a, b => by cases b <;> simp [alike, unsignedZeros]

theorem alikeItemsIff : (as bs : List Json) →
    alikeItems as bs = true ↔ unsignedItems as = unsignedItems bs
  | [], bs => by cases bs <;> simp [alikeItems, unsignedItems]
  | a :: as, bs => by
    cases bs <;> simp [alikeItems, unsignedItems, alikeIff a, alikeItemsIff as]

theorem alikeMembersIff : (as bs : List (String × Json)) →
    alikeMembers as bs = true ↔ unsignedMembers as = unsignedMembers bs
  | [], bs => by cases bs <;> simp [alikeMembers, unsignedMembers]
  | (k, a) :: as, bs => by
    cases bs <;>
      simp [alikeMembers, unsignedMembers, alikeIff a, alikeMembersIff as, and_assoc]

end

theorem beqIff {a b : Json} : (a == b) = true ↔ a.unsignedZeros = b.unsignedZeros :=
  alikeIff a b

instance : EquivBEq Json where
  rfl := beqIff.2 rfl
  symm h := beqIff.2 (beqIff.1 h).symm
  trans h h' := beqIff.2 ((beqIff.1 h).trans (beqIff.1 h'))

theorem orderedItems {items : List Json} : OrderedItems items ↔ ∀ a ∈ items, a.Ordered := by
  induction items with
  | nil => simp [OrderedItems]
  | cons a as ih => rw [OrderedItems, ih, List.forall_mem_cons]

theorem orderedMembers {members : List (String × Json)} :
    OrderedMembers members ↔ ∀ m ∈ members, m.2.Ordered := by
  induction members with
  | nil => simp [OrderedMembers]
  | cons m ms ih => rw [OrderedMembers, ih, List.forall_mem_cons]

def ofMembers (members : List (String × Json)) : Json := object (Entries.ofList members)

theorem ofMembersOrdered {members : List (String × Json)} (each : ∀ m ∈ members, m.2.Ordered) :
    (ofMembers members).Ordered :=
  ⟨Entries.ascendingOfList members, orderedMembers.2 fun m listed =>
    each m (Entries.memOfList listed)⟩

def isNull : Json → Bool
  | null => true
  | _ => false

end Json

@[ext] structure Value where
  json : Json
  ordered : json.Ordered

namespace Value

instance : BEq Value := ⟨fun a b => a.json == b.json⟩

instance : EquivBEq Value where
  rfl := Json.beqIff.2 rfl
  symm h := Json.beqIff.2 (Json.beqIff.1 h).symm
  trans h h' := Json.beqIff.2 ((Json.beqIff.1 h).trans (Json.beqIff.1 h'))

def null : Value := ⟨.null, trivial⟩

instance : Inhabited Value := ⟨null⟩

def bool (value : Bool) : Value := ⟨.bool value, trivial⟩

def number (value : Number) : Value := ⟨.number value, trivial⟩

def string (value : String) : Value := ⟨.string value, trivial⟩

def array (items : List Value) : Value :=
  ⟨.array (items.map json), Json.orderedItems.2 (List.forall_mem_map.2 fun a _ => a.ordered)⟩

def object (members : List (String × Value)) : Value :=
  ⟨.ofMembers (members.map fun m => (m.1, m.2.json)),
    Json.ofMembersOrdered (List.forall_mem_map.2 fun m _ => m.2.ordered)⟩

def isNull (a : Value) : Bool := a.json.isNull

end Value
end DocHistory
