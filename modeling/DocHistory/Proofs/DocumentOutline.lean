import DocHistory.Document

/-! A document is what its leaves assemble to. The leaves that share their first step are placed
within one child, so the document is built child by child; its outline lists them as they are
placed. Arrays have to be short enough for their indexes. -/
namespace DocHistory

namespace Entries
variable {κ α : Type} [Ord κ]

theorem getInserted [Std.LawfulEqOrd κ] (k : κ) (a : α) (es : List (κ × α)) :
    get? k (insert k a es) = some a := by
  induction es with
  | nil => simp [get?, Std.ReflCmp.compare_self]
  | cons e es ih =>
    rw [insertCons]
    split
    · simp [get?, Std.ReflCmp.compare_self]
    · simp [get?, Std.ReflCmp.compare_self]
    · rename_i order
      simp only [get?, order]
      exact ih

theorem insertTwice [Std.LawfulEqOrd κ] (k : κ) (a b : α) (es : List (κ × α)) :
    insert k b (insert k a es) = insert k b es := by
  induction es with
  | nil => simp [insertCons, Std.ReflCmp.compare_self]
  | cons e es ih =>
    simp only [insertCons]
    split
    · simp [insertCons, Std.ReflCmp.compare_self]
    · simp [insertCons, Std.ReflCmp.compare_self]
    · rename_i order
      simp [insertCons, order, ih]

theorem insertLast [Std.TransOrd κ] {k : κ} {a : α} {es : List (κ × α)}
    (last : ∀ e ∈ es, compare e.1 k = .lt) : insert k a es = es ++ [(k, a)] := by
  induction es with
  | nil => rfl
  | cons e es ih =>
    obtain ⟨first, rest⟩ := List.forall_mem_cons.1 last
    have order := gtIffLt.2 first
    simp [insertCons, order, ih rest]

theorem insertFirst {k : κ} {a : α} {es : List (κ × α)} (first : ∀ e ∈ es, compare k e.1 = .lt) :
    insert k a es = (k, a) :: es := by
  cases es with
  | nil => rfl
  | cons e es => simp [insertCons, (List.forall_mem_cons.1 first).1]

end Entries

namespace Json

mutual

def Short : Json → Prop
  | array items => items.length ≤ maxItems ∧ ShortItems items
  | object members => ShortMembers members
  | _ => True

def ShortItems : List Json → Prop
  | [] => True
  | a :: as => a.Short ∧ ShortItems as

def ShortMembers : List (String × Json) → Prop
  | [] => True
  | (_, a) :: as => a.Short ∧ ShortMembers as

end

mutual

def decideShort : (d : Json) → Decidable d.Short
  | array items =>
    have := decideShortItems items
    inferInstanceAs (Decidable (items.length ≤ maxItems ∧ ShortItems items))
  | object members => decideShortMembers members
  | null => isTrue trivial
  | bool _ => isTrue trivial
  | number _ => isTrue trivial
  | string _ => isTrue trivial

def decideShortItems : (items : List Json) → Decidable (ShortItems items)
  | [] => isTrue trivial
  | a :: as =>
    have := decideShort a
    have := decideShortItems as
    inferInstanceAs (Decidable (a.Short ∧ ShortItems as))

def decideShortMembers : (members : List (String × Json)) → Decidable (ShortMembers members)
  | [] => isTrue trivial
  | (_, a) :: ms =>
    have := decideShort a
    have := decideShortMembers ms
    inferInstanceAs (Decidable (a.Short ∧ ShortMembers ms))

end

instance : DecidablePred Short := decideShort

def build (document : Json) (leaves : List (List Segment × Json)) : Json :=
  leaves.foldl (fun document leaf => place leaf.2 leaf.1 document) document

def under (step : Segment) (leaves : List (List Segment × Json)) : List (List Segment × Json) :=
  leaves.map fun leaf => (step :: leaf.1, leaf.2)

@[simp] theorem itemsArray (items : List Json) : (array items).itemsOrNone = items := rfl

@[simp] theorem membersObject (members : List (String × Json)) :
    (object members).membersOrNone = members := rfl

theorem childSet (d a : Json) (step : Segment) : (d.setChild a step).child? step = some a := by
  cases step with
  | index i => exact List.getElem?_set_self (by simp; omega)
  | _ name => simp [setChild, child?, Entries.getInserted]

theorem setSet (d a b : Json) (step : Segment) :
    (d.setChild a step).setChild b step = d.setChild b step := by
  cases step with
  | index i =>
    have full : i.toNat + 1 - (d.itemsOrNone.length + (i.toNat + 1 - d.itemsOrNone.length)) = 0 :=
      by omega
    simp [setChild, full]
  | _ name => simp [setChild, Entries.insertTwice]

theorem buildUnder (step : Segment) {leaves : List (List Segment × Json)} (filled : leaves ≠ [])
    (d : Json) : d.build (under step leaves) = d.setChild ((d.child step).build leaves) step := by
  induction leaves generalizing d with
  | nil => exact absurd rfl filled
  | cons leaf leaves ih =>
    have first : d.build (under step (leaf :: leaves)) =
        (d.setChild (place leaf.2 leaf.1 (d.child step)) step).build (under step leaves) := by
      rw [← place]
      rfl
    rw [first]
    cases leaves with
    | nil => rfl
    | cons next leaves =>
      rw [ih (List.cons_ne_nil _ _), setSet, child.eq_def (setChild ..), childSet]
      rfl

mutual

/-- The leaves in the order of their paths: the member without a name goes by a key and so comes
last. -/
def outline : Json → List (List Segment × Json)
  | array (a :: as) => outlineItems 0 (a :: as)
  | object ((name, a) :: ms) =>
    if name.isEmpty then outlineMembers ms ++ under (memberStep name) a.outline
    else under (memberStep name) a.outline ++ outlineMembers ms
  | leaf => [([], leaf)]

def outlineItems (position : Nat) : List Json → List (List Segment × Json)
  | [] => []
  | a :: as => under (.index position.toUInt64) a.outline ++ outlineItems (position + 1) as

def outlineMembers : List (String × Json) → List (List Segment × Json)
  | [] => []
  | (name, a) :: ms => under (memberStep name) a.outline ++ outlineMembers ms

end

theorem memOutlineObject {e : List Segment × Json} {m : String × Json} {ms : List (String × Json)} :
    e ∈ (object (m :: ms)).outline ↔ e ∈ outlineMembers (m :: ms) := by
  obtain ⟨name, a⟩ := m
  rw [outline, outlineMembers, List.mem_append]
  split
  · rw [List.mem_append, or_comm]
  · rw [List.mem_append]

theorem memUnderLeaves {a : Json}
    (own : ∀ x, x ∈ a.outline ↔ x ∈ a.leaves.map fun leaf => (leaf.1, leaf.2.json))
    (step : Segment) (e : List Segment × Json) : e ∈ under step a.outline ↔
      e ∈ (a.leaves.map fun leaf => (step :: leaf.1, leaf.2)).map fun leaf =>
        (leaf.1, leaf.2.json) := by
  have mapped : ((a.leaves.map fun leaf => (step :: leaf.1, leaf.2)).map fun leaf =>
      (leaf.1, leaf.2.json)) = under step (a.leaves.map fun leaf => (leaf.1, leaf.2.json)) := by
    simp [under]
  rw [mapped, under, under, List.mem_map, List.mem_map]
  simp only [own]

mutual

theorem memOutline (e : List Segment × Json) : (d : Json) →
    (e ∈ d.outline ↔ e ∈ d.leaves.map fun leaf => (leaf.1, leaf.2.json))
  | array (a :: as) => memOutlineItems e 0 (a :: as)
  | object (m :: ms) => memOutlineObject.trans (memOutlineMembers e (m :: ms))
  | array [] => Iff.rfl
  | object [] => Iff.rfl
  | null => Iff.rfl
  | bool _ => Iff.rfl
  | number _ => Iff.rfl
  | string _ => Iff.rfl

theorem memOutlineItems (e : List Segment × Json) (position : Nat) : (items : List Json) →
    (e ∈ outlineItems position items ↔
      e ∈ (leavesOfItems position items).map fun leaf => (leaf.1, leaf.2.json))
  | [] => Iff.rfl
  | a :: as => by
    rw [outlineItems, leavesOfItems, List.map_append, List.mem_append, List.mem_append,
      memOutlineItems e (position + 1) as, memUnderLeaves fun x => memOutline x a]

theorem memOutlineMembers (e : List Segment × Json) : (members : List (String × Json)) →
    (e ∈ outlineMembers members ↔
      e ∈ (leavesOfMembers members).map fun leaf => (leaf.1, leaf.2.json))
  | [] => Iff.rfl
  | (name, a) :: ms => by
    rw [outlineMembers, leavesOfMembers, List.map_append, List.mem_append, List.mem_append,
      memOutlineMembers e ms, memUnderLeaves fun x => memOutline x a]

end

theorem memUnderItem {e : List Segment × Json} {position : Nat} {items : List Json} :
    e ∈ outlineItems position items ↔
      ∃ k a, items[k]? = some a ∧ e ∈ under (.index (position + k).toUInt64) a.outline := by
  induction items generalizing position with
  | nil => simp [outlineItems]
  | cons a as ih =>
    have shifted : ∀ k, position + (k + 1) = position + 1 + k := fun k => by omega
    rw [outlineItems, List.mem_append, ih]
    constructor
    · rintro (here | ⟨k, b, inside, there⟩)
      · exact ⟨0, a, rfl, here⟩
      · exact ⟨k + 1, b, inside, shifted k ▸ there⟩
    · rintro ⟨_ | k, b, inside, there⟩
      · cases inside
        exact .inl there
      · exact .inr ⟨k, b, inside, shifted k ▸ there⟩

theorem memUnderMember {e : List Segment × Json} {members : List (String × Json)} :
    e ∈ outlineMembers members ↔ ∃ m ∈ members, e ∈ under (memberStep m.1) m.2.outline := by
  induction members with
  | nil => simp [outlineMembers]
  | cons m ms ih => simp [outlineMembers, ih]

theorem underSome {step : Segment} {leaves : List (List Segment × Json)} (filled : leaves ≠ []) :
    under step leaves ≠ [] := fun absent => filled (List.map_eq_nil_iff.1 absent)

mutual

theorem outlineSome : (d : Json) → d.outline ≠ []
  | array (a :: as) => List.append_ne_nil_of_left_ne_nil (underSome (outlineSome a)) _
  | object ((name, a) :: ms) => by
    have own : under (memberStep name) a.outline ≠ [] := underSome (outlineSome a)
    rw [outline]
    split
    · exact List.append_ne_nil_of_right_ne_nil _ own
    · exact List.append_ne_nil_of_left_ne_nil own _
  | array [] => List.cons_ne_nil _ _
  | object [] => List.cons_ne_nil _ _
  | null => List.cons_ne_nil _ _
  | bool _ => List.cons_ne_nil _ _
  | number _ => List.cons_ne_nil _ _
  | string _ => List.cons_ne_nil _ _

end

theorem childMember (d : Json) (name : String) :
    d.child? (memberStep name) = Entries.get? name d.membersOrNone := by
  unfold memberStep
  split <;> rfl

theorem setChildMember (d a : Json) (name : String) :
    d.setChild a (memberStep name) = object (Entries.insert name a d.membersOrNone) := by
  unfold memberStep
  split <;> rfl

theorem placePosition {position : Nat} (short : position < maxItems) :
    position.toUInt64.toNat = position := by
  rw [UInt64.toNat_ofNat']
  unfold maxItems at short
  omega

theorem buildAppend (d : Json) (early late : List (List Segment × Json)) :
    d.build (early ++ late) = (d.build early).build late := List.foldl_append

mutual

theorem buildOutline : (d : Json) → d.Ordered → d.Short → null.build d.outline = d
  | array (a :: as), ordered, short => by
    have room : null.itemsOrNone.length + (a :: as).length ≤ maxItems := by
      simpa [itemsOrNone] using short.1
    exact buildItems (a :: as) null ordered short.2 room (List.cons_ne_nil _ _)
  | object ((name, a) :: ms), ordered, short => by
    obtain ⟨first, rest⟩ := List.pairwise_cons.1 ordered.1
    rw [outline]
    split
    · -- The other members were placed before the one without a name, which belongs before them.
      have others : (null.build (outlineMembers ms)).membersOrNone = ms := by
        cases ms with
        | nil => rfl
        | cons m ms =>
          have built := buildMembers (m :: ms) null ordered.2.2 short.2 rest (List.cons_ne_nil _ _)
          exact congrArg membersOrNone built
      have absent : Entries.get? name ms = none := Entries.getBefore first
      rw [buildAppend, buildUnder _ (outlineSome a), child, childMember, setChildMember, others,
        absent, Option.getD_none, buildOutline a ordered.2.1 short.1, Entries.insertFirst first]
    · exact buildMembers ((name, a) :: ms) null ordered.2 short ordered.1 (List.cons_ne_nil _ _)
  | array [], _, _ => rfl
  | object [], _, _ => rfl
  | null, _, _ => rfl
  | bool _, _, _ => rfl
  | number _, _, _ => rfl
  | string _, _, _ => rfl

theorem buildItems : (items : List Json) → (d : Json) → OrderedItems items → ShortItems items →
    d.itemsOrNone.length + items.length ≤ maxItems → items ≠ [] →
    d.build (outlineItems d.itemsOrNone.length items) = array (d.itemsOrNone ++ items)
  | a :: as, d, ordered, short, room, _ => by
    have position : d.itemsOrNone.length < maxItems := by
      rw [List.length_cons] at room
      omega
    have absent : d.child (.index d.itemsOrNone.length.toUInt64) = null := by
      simp [child, child?, placePosition position]
    have grown : d.setChild a (.index d.itemsOrNone.length.toUInt64) =
        array (d.itemsOrNone ++ [a]) := by
      simp [setChild, placePosition position]
    rw [outlineItems, buildAppend, buildUnder _ (outlineSome a), absent,
      buildOutline a ordered.1 short.1, grown]
    cases as with
    | nil => rfl
    | cons b bs =>
      have rest := buildItems (b :: bs) (array (d.itemsOrNone ++ [a])) ordered.2 short.2
        (by simp at room ⊢; omega) (List.cons_ne_nil _ _)
      simpa using rest

theorem buildMembers : (members : List (String × Json)) → (d : Json) → OrderedMembers members →
    ShortMembers members → Entries.Ascending (d.membersOrNone ++ members) → members ≠ [] →
    d.build (outlineMembers members) = object (d.membersOrNone ++ members)
  | (name, a) :: ms, d, ordered, short, ascending, _ => by
    obtain ⟨sorted, _, apart⟩ := List.pairwise_append.1 ascending
    have before : ∀ m ∈ d.membersOrNone, compare m.1 name = .lt := fun m member =>
      apart m member _ List.mem_cons_self
    have absent : Entries.get? name d.membersOrNone = none := by
      refine Option.eq_none_iff_forall_ne_some.2 fun b found => ?_
      exact Entries.neOfLt (before _ ((Entries.getIff sorted).1 found)) rfl
    rw [outlineMembers, buildAppend, buildUnder _ (outlineSome a), child, childMember,
      setChildMember, absent, Option.getD_none, buildOutline a ordered.1 short.1,
      Entries.insertLast before]
    cases ms with
    | nil => rfl
    | cons m ms =>
      have rest := buildMembers (m :: ms) (object (d.membersOrNone ++ [(name, a)])) ordered.2
        short.2 (by simpa using ascending) (List.cons_ne_nil _ _)
      simpa using rest

end

end Json
end DocHistory
