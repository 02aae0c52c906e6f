import DocHistory.Proofs.LeafPaths

/-! A document is determined by its leaves. What a document has at the path of a leaf is that leaf,
and documents with the same leaves have the same children, so they are equal; documents with equal
properties then are too. A document is assembled from its properties exactly if its arrays are
short. -/
namespace DocHistory

namespace Json

theorem childSmaller {d a : Json} {step : Segment} (found : d.child? step = some a) :
    sizeOf a < sizeOf d := by
  have named : ∀ {name : String}, Entries.get? name d.membersOrNone = some a →
      sizeOf a < sizeOf d := by
    intro name found
    cases d with
    | object members =>
      have listed := List.sizeOf_lt_of_mem (Entries.memOfGet found)
      simp only [Prod.mk.sizeOf_spec, object.sizeOf_spec, membersObject] at listed ⊢
      omega
    | _ => cases found
  cases step with
  | index i =>
    cases d with
    | array items =>
      have listed := List.sizeOf_lt_of_mem (List.mem_of_getElem? found)
      simp only [array.sizeOf_spec, itemsArray] at listed ⊢
      omega
    | _ => cases found
  | _ name => exact named found

theorem induct {P : Json → Prop} (step : ∀ d, (∀ s a, d.child? s = some a → P a) → P d)
    (d : Json) : P d :=
  step d fun _ a found =>
    have := childSmaller found
    induct step a
termination_by sizeOf d

/-- No array has more items than there are indexes: longer ones fit into no memory. -/
def Addressed (d : Json) : Prop :=
  ∀ steps a, d.valueAt? steps = some a → a.itemsOrNone.length ≤ UInt64.size

theorem Addressed.child {d a : Json} {step : Segment} (addressed : d.Addressed)
    (found : d.child? step = some a) : a.Addressed := by
  intro steps b there
  refine addressed (step :: steps) b ?_
  rw [valueAt?, found]
  exact there

theorem Short.below {d a : Json} (short : d.Short) {steps : List Segment}
    (there : d.valueAt? steps = some a) : a.Short := by
  induction steps generalizing d with
  | nil =>
    cases there
    exact short
  | cons step steps ih =>
    rw [valueAt?, Option.bind_eq_some_iff] at there
    obtain ⟨b, found, rest⟩ := there
    have below := childShort short step
    rw [Json.child, found] at below
    exact ih below rest

theorem Short.addressed {d : Json} (short : d.Short) : d.Addressed := fun _ _ there =>
  Nat.le_trans (itemsShort (short.below there)).1 (by decide)

theorem orderedBelow {d a : Json} {step : Segment} (ordered : d.Ordered)
    (found : d.child? step = some a) : a.Ordered := by
  have below := childOrdered ordered step
  rwa [Json.child, found] at below

inductive Leading : Segment → Prop where
  | index (i : UInt64) : Leading (.index i)
  | member (name : String) : Leading (memberStep name)

theorem Bare.childless {d : Json} (bare : d.Bare) (step : Segment) : d.child? step = none := by
  cases step <;> simp [child?, bare.1, bare.2, Entries.get?]

theorem memUnder {step other : Segment} {steps : List Segment} {a : Json}
    {leaves : List (List Segment × Json)} :
    (step :: steps, a) ∈ under other leaves ↔ step = other ∧ (steps, a) ∈ leaves := by
  simp only [under, List.mem_map, Prod.mk.injEq, List.cons.injEq]
  constructor
  · rintro ⟨leaf, listed, ⟨rfl, rfl⟩, rfl⟩
    exact ⟨rfl, listed⟩
  · rintro ⟨rfl, listed⟩
    exact ⟨_, listed, ⟨rfl, rfl⟩, rfl⟩

theorem memBare {d : Json} (bare : d.Bare) {step : Segment} {steps : List Segment} {a : Json} :
    (step :: steps, a) ∈ d.outline ↔
      Leading step ∧ ∃ b, d.child? step = some b ∧ (steps, a) ∈ b.outline := by
  simp [bare.outline, bare.childless]

theorem memOutlineStep {d : Json} (ordered : d.Ordered) (addressed : d.Addressed) {step : Segment}
    {steps : List Segment} {a : Json} : (step :: steps, a) ∈ d.outline ↔
      Leading step ∧ ∃ b, d.child? step = some b ∧ (steps, a) ∈ b.outline := by
  cases d with
  | array items =>
    cases items with
    | nil => exact memBare ⟨rfl, rfl⟩
    | cons x xs =>
      have room : (x :: xs).length ≤ UInt64.size := addressed [] _ rfl
      rw [outline, memUnderItem]
      simp only [memUnder, Nat.zero_add]
      constructor
      · rintro ⟨k, b, found, rfl, listed⟩
        have inside : k < UInt64.size :=
          Nat.lt_of_lt_of_le (List.getElem?_eq_some_iff.1 found).1 room
        refine ⟨.index _, b, ?_, listed⟩
        rw [child?, itemsArray, UInt64.toNat_ofNat_of_lt' inside, found]
      · rintro ⟨leading, b, found, listed⟩
        cases leading with
        | index i =>
          have position : i.toNat.toUInt64 = i := UInt64.ofNat_toNat
          exact ⟨i.toNat, b, found, congrArg Segment.index position.symm, listed⟩
        | member name =>
          rw [childMember] at found
          cases found
  | object members =>
    cases members with
    | nil => exact memBare ⟨rfl, rfl⟩
    | cons m ms =>
      rw [memOutlineObject, memUnderMember]
      simp only [memUnder]
      constructor
      · rintro ⟨n, member, rfl, listed⟩
        refine ⟨.member n.1, n.2, ?_, listed⟩
        rw [childMember]
        exact (Entries.getIff ordered.1).2 member
      · rintro ⟨leading, b, found, listed⟩
        cases leading with
        | index i => cases found
        | member name =>
          rw [childMember] at found
          exact ⟨(name, b), Entries.memOfGet found, rfl, listed⟩
  | _ => exact memBare ⟨rfl, rfl⟩

theorem leafValue {d : Json} (ordered : d.Ordered) (addressed : d.Addressed)
    {steps : List Segment} {a : Json} (listed : (steps, a) ∈ d.outline) :
    d.valueAt? steps = some a := by
  induction steps generalizing d with
  | nil => exact congrArg some (leafAtRoot listed).symm
  | cons step steps ih =>
    obtain ⟨_, b, found, below⟩ := (memOutlineStep ordered addressed).1 listed
    rw [valueAt?, found]
    exact ih (orderedBelow ordered found) (addressed.child found) below

theorem leafListed {d : Json} (ordered : d.Ordered) (addressed : d.Addressed)
    {steps : List Segment} {a : Json} (leads : Leads a steps) (there : d.valueAt? steps = some a) :
    (steps, a) ∈ d.outline := by
  induction leads generalizing d with
  | here bare =>
    cases there
    exact bare.outline ▸ List.mem_singleton_self _
  | item i _ ih =>
    obtain ⟨b, found, rest⟩ := Option.bind_eq_some_iff.1 there
    exact (memOutlineStep ordered addressed).2
      ⟨.index i, b, found, ih (orderedBelow ordered found) (addressed.child found) rest⟩
  | member name _ ih =>
    obtain ⟨b, found, rest⟩ := Option.bind_eq_some_iff.1 there
    exact (memOutlineStep ordered addressed).2
      ⟨.member name, b, found, ih (orderedBelow ordered found) (addressed.child found) rest⟩

theorem containerEq {a b : Json} (filled : ¬ a.Bare) (items : a.itemsOrNone = b.itemsOrNone)
    (members : a.membersOrNone = b.membersOrNone) : a = b := by
  cases a <;> cases b <;> simp_all [Bare, itemsOrNone, membersOrNone]

theorem childrenEq {a b : Json} (filled : ¬ a.Bare) (orderedA : a.Ordered) (orderedB : b.Ordered)
    (addressedA : a.Addressed) (addressedB : b.Addressed)
    (same : ∀ step, Leading step → a.child? step = b.child? step) : a = b := by
  refine containerEq filled (List.ext_getElem? fun k => ?_) ?_
  · by_cases inside : k < UInt64.size
    · have here := same _ (.index k.toUInt64)
      rwa [child?, child?, UInt64.toNat_ofNat_of_lt' inside] at here
    · have beyond : UInt64.size ≤ k := Nat.le_of_not_lt inside
      rw [List.getElem?_eq_none (Nat.le_trans (addressedA [] a rfl) beyond),
        List.getElem?_eq_none (Nat.le_trans (addressedB [] b rfl) beyond)]
  · refine Entries.eqOfGet (membersOrdered orderedA).1 (membersOrdered orderedB).1 fun name => ?_
    rw [← childMember, ← childMember]
    exact same _ (.member name)

theorem outlineEq {a b : Json} (orderedA : a.Ordered) (orderedB : b.Ordered)
    (addressedA : a.Addressed) (addressedB : b.Addressed)
    (same : ∀ e, e ∈ a.outline ↔ e ∈ b.outline) : a = b := by
  induction a using Json.induct generalizing b with
  | step a ih =>
    by_cases bareA : a.Bare
    · have own : (([] : List Segment), a) ∈ b.outline :=
        (same _).1 (bareA.outline ▸ List.mem_singleton_self _)
      exact leafAtRoot own
    · by_cases bareB : b.Bare
      · have own : (([] : List Segment), b) ∈ a.outline :=
          (same _).2 (bareB.outline ▸ List.mem_singleton_self _)
        exact (leafAtRoot own).symm
      · have below : ∀ step, Leading step → ∀ e : List Segment × Json,
            (∃ x, a.child? step = some x ∧ e ∈ x.outline) ↔
              ∃ y, b.child? step = some y ∧ e ∈ y.outline := by
          intro step leading e
          have both := same (step :: e.1, e.2)
          rw [memOutlineStep orderedA addressedA, memOutlineStep orderedB addressedB] at both
          simpa [leading] using both
        refine childrenEq bareA orderedA orderedB addressedA addressedB fun step leading => ?_
        have shared := below step leading
        cases foundA : a.child? step with
        | none =>
          cases foundB : b.child? step with
          | none => rfl
          | some y =>
            obtain ⟨e, listed⟩ := List.exists_mem_of_ne_nil _ (outlineSome y)
            obtain ⟨x, found, _⟩ := (shared e).2 ⟨y, foundB, listed⟩
            rw [foundA] at found
            cases found
        | some x =>
          obtain ⟨e, listed⟩ := List.exists_mem_of_ne_nil _ (outlineSome x)
          obtain ⟨y, foundB, _⟩ := (shared e).1 ⟨x, foundA, listed⟩
          simp only [foundA, foundB, Option.some.injEq, exists_eq_left'] at shared
          rw [foundB, ih step x foundA (orderedBelow orderedA foundA) (orderedBelow orderedB foundB)
            (addressedA.child foundA) (addressedB.child foundB) shared]

theorem Addressed.unsigned {d : Json} (addressed : d.Addressed) : d.unsignedZeros.Addressed := by
  intro steps a there
  rw [valueUnsigned, Option.map_eq_some_iff] at there
  obtain ⟨b, found, rfl⟩ := there
  rw [itemsUnsigned, List.length_map]
  exact addressed steps b found

end Json

namespace Value

theorem flattenShows {d : Value} (addressed : d.json.Addressed) (filled : d.isNull = false)
    {e : List Segment × Json} (listed : e ∈ d.json.outline) :
    ∃ a, d.flatten.get? ⟨e.1⟩ = some a ∧ a.json = e.2 := by
  obtain ⟨a, held⟩ := SortedMap.containsIff.1 (flattenHolds filled listed)
  have own := Json.leafValue d.ordered addressed (flattenFound held).2
  rw [Json.leafValue d.ordered addressed listed] at own
  exact ⟨a, held, (Option.some.inj own).symm⟩

theorem outlineWithin {a b : Value} (addressed : a.json.Addressed) (filled : a.isNull = false)
    (same : a.flatten = b.flatten) {e : List Segment × Json} (listed : e ∈ a.json.outline) :
    e ∈ b.json.outline := by
  obtain ⟨value, held, own⟩ := flattenShows addressed filled listed
  have there := (flattenFound (same ▸ held)).2
  rwa [own] at there

theorem flattenInjective {a b : Value} (addressedA : a.json.Addressed)
    (addressedB : b.json.Addressed) (same : a.flatten = b.flatten) : a = b := by
  have empty : a.isNull = b.isNull := by rw [← flattenEmpty, ← flattenEmpty, same]
  cases null : a.isNull with
  | true => rw [nullOf null, nullOf (empty.symm.trans null)]
  | false =>
    refine Value.ext (Json.outlineEq a.ordered b.ordered addressedA addressedB fun e => ?_)
    exact ⟨outlineWithin addressedA null same,
      outlineWithin addressedB (empty.symm.trans null) same.symm⟩

theorem flattenAlikeIff {a b : Value} (addressedA : a.json.Addressed)
    (addressedB : b.json.Addressed) : (a.flatten == b.flatten) = true ↔ (a == b) = true := by
  refine ⟨fun same => beqIff.2 ?_, flattenAlike⟩
  rw [Properties.alikeIff, ← flattenUnsigned, ← flattenUnsigned] at same
  exact flattenInjective addressedA.unsigned addressedB.unsigned same

theorem shortAssembled {a b : Value} (read : a.flatten.assemble = .ok b) : a.json.Short := by
  obtain ⟨sized, _⟩ := Properties.assembleOk.1 read
  cases null : a.isNull with
  | true =>
    rw [nullOf null]
    trivial
  | false =>
    refine Json.shortOfFits a.json fun e listed => ?_
    obtain ⟨b, held⟩ := SortedMap.containsIff.1 (flattenHolds null listed)
    exact sized _ (SortedMap.getIff.1 held)

theorem leavesDetermine (a : Value) :
    (a.flatten.assemble = .ok a ↔ a.json.Short) ∧
    ((∃ e, a.flatten.assemble = .error e) ↔ ¬ a.json.Short) ∧
    (a.json.Addressed → ∀ b : Value, b.json.Addressed →
      (a.flatten = b.flatten → a = b) ∧
      ((a.flatten == b.flatten) = true → (a == b) = true)) := by
  refine ⟨⟨shortAssembled, flattenAssembles⟩, ⟨?_, ?_⟩, ?_⟩
  · intro ⟨e, failed⟩ short
    rw [flattenAssembles short] at failed
    cases failed
  · intro long
    cases read : a.flatten.assemble with
    | error e => exact ⟨e, rfl⟩
    | ok b => exact absurd (shortAssembled read) long
  · intro addressedA b addressedB
    exact ⟨flattenInjective addressedA addressedB, (flattenAlikeIff addressedA addressedB).1⟩

def sparse (last : Value) : Value := .object [("", .null), ("x", .array [.array [], last])]

theorem sparseDetermined : (sparse .null).flatten.size = 3 ∧
    (sparse .null).flatten.assemble = .ok (sparse .null) ∧
    (sparse .null).flatten ≠ (sparse (.object [])).flatten := by
  have short : (sparse .null).json.Short := by decide
  have few : (sparse (.object [])).json.Short := by decide
  obtain ⟨inverts, _, injective⟩ := leavesDetermine (sparse .null)
  refine ⟨rfl, inverts.2 short, fun same => ?_⟩
  have equal := congrArg json ((injective short.addressed _ few.addressed).1 same)
  cases equal

end Value
end DocHistory
