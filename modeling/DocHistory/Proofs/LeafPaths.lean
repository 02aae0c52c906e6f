import DocHistory.Proofs.DocumentLikeness

/-! What a document has at a path. This is more than it shows there: containers stand on the way to
what is shown. Leaves are scalars and empty containers, and they stand at paths of positions and
members. -/
namespace DocHistory

namespace Json

def valueAt? : Json → List Segment → Option Json
  | d, [] => some d
  | d, step :: steps => (d.child? step).bind fun a => a.valueAt? steps

theorem placeSelf (a : Json) (steps : List Segment) (d : Json) :
    (place a steps d).valueAt? steps = some a := by
  induction steps generalizing d with
  | nil => rfl
  | cons step steps ih =>
    rw [place, valueAt?, childSet]
    exact ih _

theorem nullValue {steps : List Segment} (filled : steps ≠ []) : null.valueAt? steps = none := by
  cases steps with
  | nil => exact absurd rfl filled
  | cons step steps => cases step <;> rfl

theorem grownBeside (a : Json) {i k : Nat} (apart : i ≠ k) (items : List Json) :
    ((items ++ List.replicate (i + 1 - items.length) null).set i a)[k]? =
      items[k]?.or (if k < i then some null else none) := by
  rw [List.getElem?_set_ne apart, List.getElem?_append]
  split
  · rename_i inside
    rw [List.getElem?_eq_getElem inside, Option.some_or]
  · rename_i beyond
    rw [List.getElem?_eq_none (Nat.le_of_not_lt beyond), Option.none_or, List.getElem?_replicate]
    have filled : k - items.length < i + 1 - items.length ↔ k < i := by omega
    simp only [filled]

theorem valueUnsigned (d : Json) (steps : List Segment) :
    d.unsignedZeros.valueAt? steps = (d.valueAt? steps).map unsignedZeros := by
  induction steps generalizing d with
  | nil => rfl
  | cons step steps ih =>
    rw [valueAt?, valueAt?, childUnsigned]
    cases d.child? step with
    | none => rfl
    | some a => exact ih a

theorem valueAlikeAt {d e a : Json} (same : (d == e) = true) {steps : List Segment}
    (there : d.valueAt? steps = some a) : ∃ b, e.valueAt? steps = some b ∧ (b == a) = true := by
  have both := congrArg (Json.valueAt? · steps) (beqIff.1 same)
  rw [valueUnsigned, valueUnsigned, there] at both
  obtain ⟨b, stands, alike⟩ := Option.map_eq_some_iff.1 both.symm
  exact ⟨b, stands, beqIff.2 alike⟩

def Bare (a : Json) : Prop := a.itemsOrNone = [] ∧ a.membersOrNone = []

theorem bareUnsigned {a : Json} : a.unsignedZeros.Bare ↔ a.Bare := by
  rw [Bare, itemsUnsigned, membersUnsigned, List.map_eq_nil_iff, List.map_eq_nil_iff, Bare]

namespace Bare
variable {a b : Json} (bare : a.Bare)
include bare

theorem outline : a.outline = [([], a)] := by
  cases a with
  | array items => cases bare.1; rfl
  | object members => cases bare.2; rfl
  | _ => rfl

theorem alike (same : (b == a) = true) : b.Bare :=
  bareUnsigned.1 (beqIff.1 same ▸ bareUnsigned.2 bare)

end Bare

inductive Leads (a : Json) : List Segment → Prop where
  | here (bare : a.Bare) : Leads a []
  | item {steps : List Segment} (i : UInt64) (rest : Leads a steps) : Leads a (.index i :: steps)
  | member {steps : List Segment} (name : String) (rest : Leads a steps) :
      Leads a (memberStep name :: steps)

theorem Leads.bare {a : Json} {steps : List Segment} (leads : Leads a steps) : a.Bare := by
  induction leads with
  | here bare => exact bare
  | item _ _ ih => exact ih
  | member _ _ ih => exact ih

theorem bareLeads {a : Json} (bare : a.Bare) : ∀ e ∈ a.outline, Leads e.2 e.1 := by
  rw [bare.outline]
  exact List.forall_mem_singleton.2 (.here bare)

mutual

theorem outlineLeads : (d : Json) → ∀ e ∈ d.outline, Leads e.2 e.1
  | array (a :: as) => itemsLead 0 (a :: as)
  | object (m :: ms) => fun e listed => membersLead (m :: ms) e (memOutlineObject.1 listed)
  | array [] => bareLeads ⟨rfl, rfl⟩
  | object [] => bareLeads ⟨rfl, rfl⟩
  | null => bareLeads ⟨rfl, rfl⟩
  | bool _ => bareLeads ⟨rfl, rfl⟩
  | number _ => bareLeads ⟨rfl, rfl⟩
  | string _ => bareLeads ⟨rfl, rfl⟩

theorem itemsLead (position : Nat) : (items : List Json) →
    ∀ e ∈ outlineItems position items, Leads e.2 e.1
  | [] => List.forall_mem_nil _
  | a :: as => List.forall_mem_append.2
    ⟨List.forall_mem_map.2 fun leaf listed => .item _ (outlineLeads a leaf listed),
      itemsLead (position + 1) as⟩

theorem membersLead : (members : List (String × Json)) →
    ∀ e ∈ outlineMembers members, Leads e.2 e.1
  | [] => List.forall_mem_nil _
  | (name, a) :: ms => List.forall_mem_append.2
    ⟨List.forall_mem_map.2 fun leaf listed => .member name (outlineLeads a leaf listed),
      membersLead ms⟩

end

end Json

end DocHistory
