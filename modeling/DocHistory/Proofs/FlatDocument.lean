import DocHistory.Proofs.DocumentOutline
import DocHistory.Proofs.MapLookup

/-! The properties of a document are its outline: the paths ascend, and their indexes stay below the
limit of arrays. So a document assembles from its properties, if its arrays are short. -/
namespace DocHistory

namespace Json

theorem compareUnder (step other : Segment) (p q : List Segment) :
    compare (step :: p) (other :: q) = (compare step other).then (compare p q) :=
  List.compareLex_cons_cons

theorem underAscends (step : Segment) {leaves : List (List Segment × Json)}
    (ascending : Entries.Ascending leaves) : Entries.Ascending (under step leaves) := by
  refine List.pairwise_map.2 (ascending.imp fun {a b} less => ?_)
  have same : compare step step = .eq := Std.ReflCmp.compare_self
  rw [compareUnder, same]
  exact less

theorem underBefore {step other : Segment} (less : compare step other = .lt)
    {first second : List (List Segment × Json)} :
    ∀ a ∈ under step first, ∀ b ∈ under other second, compare a.1 b.1 = .lt := by
  intro a ha b hb
  obtain ⟨x, _, rfl⟩ := List.mem_map.1 ha
  obtain ⟨y, _, rfl⟩ := List.mem_map.1 hb
  rw [compareUnder, less]
  rfl

theorem indexBefore {k l : Nat} (less : k < l) (short : l < maxItems) :
    compare (Segment.index k.toUInt64) (Segment.index l.toUInt64) = .lt := by
  have order : k.toUInt64 < l.toUInt64 := by
    rw [UInt64.lt_iff_toNat_lt, placePosition short, placePosition (by omega)]
    exact less
  change compareOfLessAndEq k.toUInt64 l.toUInt64 = .lt
  rw [compareOfLessAndEq, if_pos order]

theorem propertyBefore {a b : String} (less : compare a b = .lt) :
    compare (Segment.property a) (Segment.property b) = .lt := by
  change (compare a b).then _ = .lt
  rw [less]
  rfl

theorem nameAfter {a b : String} (less : compare a b = .lt) : b.isEmpty = false := by
  refine Bool.eq_false_iff.2 fun empty => ?_
  obtain rfl := String.isEmpty_iff.1 empty
  change compareOfLessAndEq a "" = .lt at less
  have lower : ¬ a < "" := fun less => List.not_lt_nil a.toList less
  rw [compareOfLessAndEq, if_neg lower] at less
  split at less <;> cases less

mutual

theorem outlineAscends : (d : Json) → d.Ordered → d.Short → Entries.Ascending d.outline
  | array (a :: as), ordered, short => itemsAscend (a :: as) 0 ordered short.2 (by simpa using short.1)
  | object ((name, a) :: ms), ordered, short => by
    obtain ⟨first, rest⟩ := List.pairwise_cons.1 ordered.1
    have named : ∀ m ∈ ms, m.1.isEmpty = false := fun m member => nameAfter (first m member)
    have own := underAscends (memberStep name) (outlineAscends a ordered.2.1 short.1)
    rw [outline]
    split
    · rename_i empty
      refine List.pairwise_append.2 ⟨membersAscend ms ordered.2.2 short.2 rest named, own, ?_⟩
      intro x hx
      obtain ⟨m, member, inside⟩ := memUnderMember.1 hx
      have less : compare (memberStep m.1) (memberStep name) = .lt := by
        simp only [memberStep, named m member, empty, if_true, Bool.false_eq_true, if_false]
        rfl
      exact underBefore less x inside
    · rename_i filled
      refine membersAscend ((name, a) :: ms) ordered.2 short ordered.1 ?_
      exact List.forall_mem_cons.2 ⟨by simpa using filled, named⟩
  | array [], _, _ => List.pairwise_singleton _ _
  | object [], _, _ => List.pairwise_singleton _ _
  | null, _, _ => List.pairwise_singleton _ _
  | bool _, _, _ => List.pairwise_singleton _ _
  | number _, _, _ => List.pairwise_singleton _ _
  | string _, _, _ => List.pairwise_singleton _ _

theorem itemsAscend : (items : List Json) → (position : Nat) → OrderedItems items →
    ShortItems items → position + items.length ≤ maxItems →
    Entries.Ascending (outlineItems position items)
  | [], _, _, _, _ => List.Pairwise.nil
  | a :: as, position, ordered, short, room => by
    rw [List.length_cons] at room
    refine List.pairwise_append.2 ⟨underAscends _ (outlineAscends a ordered.1 short.1),
      itemsAscend as (position + 1) ordered.2 short.2 (by omega), fun x hx y hy => ?_⟩
    obtain ⟨k, b, listed, inside⟩ := memUnderItem.1 hy
    have last := (List.getElem?_eq_some_iff.1 listed).1
    exact underBefore (indexBefore (by omega) (by omega)) x hx y inside

theorem membersAscend : (members : List (String × Json)) → OrderedMembers members →
    ShortMembers members → Entries.Ascending members →
    (∀ m ∈ members, m.1.isEmpty = false) → Entries.Ascending (outlineMembers members)
  | [], _, _, _, _ => List.Pairwise.nil
  | (name, a) :: ms, ordered, short, ascending, named => by
    obtain ⟨first, rest⟩ := List.pairwise_cons.1 ascending
    obtain ⟨own, others⟩ := List.forall_mem_cons.1 named
    refine List.pairwise_append.2 ⟨underAscends _ (outlineAscends a ordered.1 short.1),
      membersAscend ms ordered.2 short.2 rest others, fun x hx y hy => ?_⟩
    obtain ⟨m, member, inside⟩ := memUnderMember.1 hy
    have less : compare (memberStep name) (memberStep m.1) = .lt := by
      simp only [memberStep, own, others m member, Bool.false_eq_true, if_false]
      exact propertyBefore (first m member)
    exact underBefore less x hx y inside

end

theorem fitsCons {step : Segment} {steps : List Segment} :
    Path.oversized? ⟨step :: steps⟩ = none ↔
      Path.oversized? ⟨[step]⟩ = none ∧ Path.oversized? ⟨steps⟩ = none := by
  simp [Path.oversized?, List.findSome?_eq_none_iff]

theorem underFits {step : Segment} {leaves : List (List Segment × Json)}
    (head : Path.oversized? ⟨[step]⟩ = none) (fit : ∀ e ∈ leaves, Path.oversized? ⟨e.1⟩ = none) :
    ∀ e ∈ under step leaves, Path.oversized? ⟨e.1⟩ = none := by
  intro e member
  obtain ⟨leaf, listed, rfl⟩ := List.mem_map.1 member
  exact fitsCons.2 ⟨head, fit leaf listed⟩

theorem memberStepFits (name : String) : Path.oversized? ⟨[memberStep name]⟩ = none := by
  unfold memberStep
  split <;> rfl

theorem indexFits {position : Nat} (short : position < maxItems) :
    Path.oversized? ⟨[.index position.toUInt64]⟩ = none := by
  simp [Path.oversized?, placePosition short, Nat.not_le.2 short]

theorem leafFits {leaf : Json} : ∀ e ∈ [(([] : List Segment), leaf)],
    Path.oversized? ⟨e.1⟩ = none := by
  intro e member
  obtain rfl := List.mem_singleton.1 member
  rfl

mutual

theorem outlineFits : (d : Json) → d.Short → ∀ e ∈ d.outline, Path.oversized? ⟨e.1⟩ = none
  | array (a :: as), short => itemsFit (a :: as) 0 short.2 (by simpa using short.1)
  | object (m :: ms), short =>
    fun e member => membersFit (m :: ms) short e (memOutlineObject.1 member)
  | array [], _ => leafFits
  | object [], _ => leafFits
  | null, _ => leafFits
  | bool _, _ => leafFits
  | number _, _ => leafFits
  | string _, _ => leafFits

theorem itemsFit : (items : List Json) → (position : Nat) → ShortItems items →
    position + items.length ≤ maxItems →
    ∀ e ∈ outlineItems position items, Path.oversized? ⟨e.1⟩ = none
  | [], _, _, _ => List.forall_mem_nil _
  | a :: as, position, short, room => by
    rw [List.length_cons] at room
    exact List.forall_mem_append.2 ⟨underFits (indexFits (by omega)) (outlineFits a short.1),
      itemsFit as (position + 1) short.2 (by omega)⟩

theorem membersFit : (members : List (String × Json)) → ShortMembers members →
    ∀ e ∈ outlineMembers members, Path.oversized? ⟨e.1⟩ = none
  | [], _ => List.forall_mem_nil _
  | (name, a) :: ms, short =>
    List.forall_mem_append.2 ⟨underFits (memberStepFits name) (outlineFits a short.1),
      membersFit ms short.2⟩

end

theorem fitsBelow {step : Segment} {leaves : List (List Segment × Json)}
    (fit : ∀ e ∈ under step leaves, Path.oversized? ⟨e.1⟩ = none) :
    ∀ e ∈ leaves, Path.oversized? ⟨e.1⟩ = none := by
  intro e member
  exact (fitsCons.1 (fit (step :: e.1, e.2) (List.mem_map.2 ⟨e, member, rfl⟩))).2

theorem shortLength {items : List Json}
    (fit : ∀ e ∈ outlineItems 0 items, Path.oversized? ⟨e.1⟩ = none) : items.length ≤ maxItems := by
  refine Nat.le_of_not_lt fun long => ?_
  obtain ⟨leaf, listed⟩ := List.exists_mem_of_ne_nil _ (outlineSome items[maxItems])
  have sized := fit _ (memUnderItem.2 ⟨maxItems, _, List.getElem?_eq_getElem long,
    List.mem_map_of_mem listed⟩)
  rw [Path.oversized?, List.findSome?_eq_none_iff] at sized
  exact absurd (sized _ List.mem_cons_self) (by decide)

mutual

theorem shortOfFits : (d : Json) → (∀ e ∈ d.outline, Path.oversized? ⟨e.1⟩ = none) → d.Short
  | array (a :: as), fit => ⟨shortLength fit, shortItems (a :: as) 0 fit⟩
  | object (m :: ms), fit =>
    shortMembers (m :: ms) fun e member => fit e (memOutlineObject.2 member)
  | array [], _ => ⟨Nat.zero_le _, trivial⟩
  | object [], _ => trivial
  | null, _ => trivial
  | bool _, _ => trivial
  | number _, _ => trivial
  | string _, _ => trivial

theorem shortItems : (items : List Json) → (position : Nat) →
    (∀ e ∈ outlineItems position items, Path.oversized? ⟨e.1⟩ = none) → ShortItems items
  | [], _, _ => trivial
  | a :: as, position, fit =>
    have ⟨own, others⟩ := List.forall_mem_append.1 fit
    ⟨shortOfFits a (fitsBelow own), shortItems as (position + 1) others⟩

theorem shortMembers : (members : List (String × Json)) →
    (∀ e ∈ outlineMembers members, Path.oversized? ⟨e.1⟩ = none) → ShortMembers members
  | [], _ => trivial
  | (_, a) :: ms, fit =>
    have ⟨own, others⟩ := List.forall_mem_append.1 fit
    ⟨shortOfFits a (fitsBelow own), shortMembers ms others⟩

end

theorem shortItemsIff {items : List Json} : ShortItems items ↔ ∀ a ∈ items, a.Short := by
  induction items with
  | nil => simp [ShortItems]
  | cons a as ih => rw [ShortItems, ih, List.forall_mem_cons]

theorem shortMembersIff {members : List (String × Json)} :
    ShortMembers members ↔ ∀ m ∈ members, m.2.Short := by
  induction members with
  | nil => simp [ShortMembers]
  | cons m ms ih => rw [ShortMembers, ih, List.forall_mem_cons]

theorem itemsShort {d : Json} (short : d.Short) :
    d.itemsOrNone.length ≤ maxItems ∧ ∀ a ∈ d.itemsOrNone, a.Short := by
  cases d with
  | array items => exact ⟨short.1, shortItemsIff.1 short.2⟩
  | _ => exact ⟨Nat.zero_le _, List.forall_mem_nil _⟩

theorem membersShort {d : Json} (short : d.Short) : ∀ m ∈ d.membersOrNone, m.2.Short := by
  cases d with
  | object members => exact shortMembersIff.1 short
  | _ => exact List.forall_mem_nil _

theorem childShort {d : Json} (short : d.Short) (step : Segment) : (d.child step).Short := by
  rw [child]
  cases found : d.child? step with
  | none => trivial
  | some a =>
    cases step with
    | index i => exact (itemsShort short).2 a (List.mem_of_getElem? found)
    | _ name => exact membersShort short (name, a) (Entries.memOfGet found)

theorem leafAtRoot {d a : Json} (listed : (([] : List Segment), a) ∈ d.outline) : a = d := by
  cases d with
  | array items =>
    cases items with
    | nil => exact congrArg Prod.snd (List.mem_singleton.1 listed)
    | cons b bs =>
      obtain ⟨_, _, _, inside⟩ := memUnderItem.1 listed
      obtain ⟨_, _, same⟩ := List.mem_map.1 inside
      cases same
  | object members =>
    cases members with
    | nil => exact congrArg Prod.snd (List.mem_singleton.1 listed)
    | cons m ms =>
      obtain ⟨_, _, inside⟩ := memUnderMember.1 (memOutlineObject.1 listed)
      obtain ⟨_, _, same⟩ := List.mem_map.1 inside
      cases same
  | _ => exact congrArg Prod.snd (List.mem_singleton.1 listed)

end Json

namespace Value

theorem flattenEntries {d : Value} (filled : d.isNull = false) (short : d.json.Short) :
    d.flatten.entries.map (fun e => (e.1, e.2.json)) =
      d.json.outline.map fun leaf => (⟨leaf.1⟩, leaf.2) := by
  have ascending : Entries.Ascending
      (d.json.outline.map fun leaf => ((⟨leaf.1⟩ : Path), leaf.2)) :=
    List.pairwise_map.2 (Json.outlineAscends d.json d.ordered short)
  let outlined : SortedMap Path Json := ⟨_, ascending⟩
  have same : SortedMap.ofList
      (d.json.leaves.map fun leaf => ((⟨leaf.1⟩ : Path), leaf.2.json)) = outlined := by
    refine SortedMap.ofListSorted outlined fun e => ?_
    have steps : (d.json.leaves.map fun leaf => ((⟨leaf.1⟩ : Path), leaf.2.json)) =
        (d.json.leaves.map fun leaf => (leaf.1, leaf.2.json)).map fun leaf => (⟨leaf.1⟩, leaf.2) := by
      rw [List.map_map]
      rfl
    rw [steps, List.mem_map, List.mem_map]
    simp only [Json.memOutline]
  have mapped := Entries.ofListMap json
    (d.json.leaves.map fun leaf => ((⟨leaf.1⟩ : Path), leaf.2))
  rw [List.map_map] at mapped
  rw [flatten, filled]
  exact mapped.symm.trans (congrArg SortedMap.entries same)

theorem flattenFound {d a : Value} {path : Path} (found : d.flatten.get? path = some a) :
    d.isNull = false ∧ (path.segments, a.json) ∈ d.json.outline := by
  rw [flatten] at found
  split at found
  · cases found
  · rename_i filled
    obtain ⟨leaf, listed, same⟩ := List.mem_map.1 (SortedMap.memOfGetOfList found)
    cases same
    exact ⟨by simpa using filled, (Json.memOutline _ _).2 (List.mem_map_of_mem listed)⟩

theorem flattenHolds {d : Value} (filled : d.isNull = false) {e : List Segment × Json}
    (listed : e ∈ d.json.outline) : d.flatten.contains ⟨e.1⟩ = true := by
  obtain ⟨leaf, found, rfl⟩ := List.mem_map.1 ((Json.memOutline e d.json).1 listed)
  rw [flatten, filled]
  refine SortedMap.containsOfList.2 ?_
  rw [List.map_map]
  exact List.mem_map_of_mem (f := fun leaf => (⟨leaf.1⟩ : Path)) found

theorem flattenEmpty (d : Value) : d.flatten.isEmpty = d.isNull := by
  cases null : d.isNull with
  | true =>
    rw [flatten, null]
    rfl
  | false =>
    obtain ⟨leaf, listed⟩ := List.exists_mem_of_ne_nil _ (Json.outlineSome d.json)
    exact SortedMap.notEmpty (flattenHolds null listed)

theorem flattenRoot {d a : Value} {path : Path} (root : path.isRoot = true)
    (found : d.flatten.get? path = some a) : a.isNull = false := by
  obtain ⟨filled, listed⟩ := flattenFound found
  rw [List.isEmpty_iff.1 root] at listed
  rw [isNull, Json.leafAtRoot listed]
  exact filled

theorem nullOf {d : Value} (null : d.isNull = true) : d = .null := by
  obtain ⟨d, _⟩ := d
  cases d <;> cases null
  rfl

theorem isNullIff {d : Value} : d.isNull = true ↔ d = .null := by
  refine ⟨nullOf, ?_⟩
  rintro rfl
  rfl

end Value

namespace Properties

def built (m : Properties) : Value :=
  m.entries.foldl (fun d e => e.2.place e.1.segments d) .null

theorem assembleOk {m : Properties} {d : Value} : m.assemble = .ok d ↔
    (∀ e ∈ m.entries, e.1.oversized? = none) ∧ m.built = d := by
  rw [assemble, built]
  generalize m.entries = es, Value.null = start
  induction es generalizing start with
  | nil =>
    exact ⟨fun done => ⟨List.forall_mem_nil _, Except.ok.inj done⟩, fun built => congrArg _ built.2⟩
  | cons e es ih =>
    rw [List.foldlM_cons, placeNext, List.forall_mem_cons]
    cases e.1.oversized? with
    | some position =>
      exact iff_of_false (fun done => nomatch done) fun sized => nomatch sized.1.1
    | none => exact (ih _).trans (and_congr_left fun _ => (and_iff_right rfl).symm)

theorem builtJson (m : Properties) :
    m.built.json = Json.null.build (m.entries.map fun e => (e.1.segments, e.2.json)) := by
  change _ = Value.null.json.build _
  rw [built, Json.build, List.foldl_map]
  generalize m.entries = es, Value.null = start
  induction es generalizing start with
  | nil => rfl
  | cons e es ih => exact ih _

end Properties

namespace Value

theorem flattenAssembles {d : Value} (short : d.json.Short) : d.flatten.assemble = .ok d := by
  cases null : d.isNull with
  | true =>
    rw [nullOf null]
    rfl
  | false =>
    have entries := flattenEntries null short
    refine Properties.assembleOk.2 ⟨?_, Value.ext ?_⟩
    · intro e member
      have listed := entries ▸ List.mem_map_of_mem (f := fun e : Path × Value => (e.1, e.2.json)) member
      obtain ⟨leaf, inside, same⟩ := List.mem_map.1 listed
      exact congrArg Prod.fst same ▸ Json.outlineFits d.json short leaf inside
    · have steps := congrArg (List.map fun e : Path × Json => (e.1.segments, e.2)) entries
      rw [List.map_map, List.map_map] at steps
      rw [Properties.builtJson]
      exact (congrArg _ (steps.trans (List.map_id _))).trans (Json.buildOutline _ d.ordered short)

end Value
end DocHistory
