import DocHistory.Proofs.CacheCoherence
import DocHistory.Proofs.ReadDepth

/-! What a pool lets go of when nodes are admitted. It never counts more nodes than its capacity.
A node that was counted or admitted is still counted afterwards, has lost what it derived, or has
given its place to another node of the same revision; only the last kind keeps slots that the pool
does not count. -/
namespace DocHistory
open Node

def Doubled (nodes : List Node) (n : Node) : Prop :=
  ∃ m ∈ nodes, m.revision = n.revision ∧ m ≠ n

theorem Doubled.mono {nodes more : List Node} {n : Node} (doubled : Doubled nodes n)
    (sub : nodes ⊆ more) : Doubled more n := by
  obtain ⟨m, member, rest⟩ := doubled
  exact ⟨m, sub member, rest⟩

namespace Cache

section Push
variable {capacity : Nat} {residents : Residents} {n m : Node}

theorem pushTakes (room : residents.length ≤ capacity) (n : Node) : (push capacity n residents).1 =
    (n :: residents.filter fun m => m.revision ≠ n.revision).take capacity := by
  have kept : (residents.filter fun m => m.revision ≠ n.revision).length ≤ residents.length :=
    List.length_filter_le _ _
  unfold push
  dsimp only
  split
  · rw [List.take_of_length_le (by assumption)]
  · rename_i crowded
    rw [List.length_cons] at crowded
    have full : (residents.filter fun m => m.revision ≠ n.revision).length = capacity := by omega
    rw [List.dropLast_eq_take, List.length_cons, Nat.add_sub_cancel, full]

theorem pushRoom (room : residents.length ≤ capacity) :
    (push capacity n residents).1.length ≤ capacity := by
  rw [pushTakes room]
  exact List.length_take_le capacity _

theorem pushSplits : m ∈ (push capacity n residents).1 ∨ (push capacity n residents).2 = some m ↔
    m = n ∨ m ∈ residents ∧ m.revision ≠ n.revision := by
  have listed : m ∈ n :: residents.filter (fun m => m.revision ≠ n.revision) ↔
      m = n ∨ m ∈ residents ∧ m.revision ≠ n.revision := by
    rw [List.mem_cons, List.mem_filter, decide_eq_true_eq]
  rw [← listed]
  unfold push
  dsimp only
  generalize residents.filter (fun m => m.revision ≠ n.revision) = rest
  split
  · simp
  · have split := List.dropLast_concat_getLast (List.cons_ne_nil n rest)
    rw [List.getLast?_eq_some_getLast (List.cons_ne_nil n rest), Option.some.injEq]
    conv_rhs => rw [← split, List.mem_append, List.mem_singleton]
    rw [eq_comm (a := m)]

theorem pushAllRoom {batch : List Node} (room : residents.length ≤ capacity) :
    (pushAll capacity batch residents).1.length ≤ capacity := by
  induction batch generalizing residents with
  | nil => exact room
  | cons n ns ih => exact ih (pushRoom room)

theorem pushAllKnown {nodes batch : List Node} (known : residents ⊆ nodes) (sub : batch ⊆ nodes) :
    (pushAll capacity batch residents).1 ⊆ nodes ∧ (pushAll capacity batch residents).2 ⊆ nodes := by
  induction batch generalizing residents with
  | nil => exact ⟨known, List.nil_subset _⟩
  | cons n ns ih =>
    obtain ⟨own, others⟩ := List.cons_subset.1 sub
    have pushed : ∀ m, m ∈ (push capacity n residents).1 ∨
        (push capacity n residents).2 = some m → m ∈ nodes := by
      intro m split
      rcases pushSplits.1 split with rfl | ⟨old, _⟩
      · exact own
      · exact known old
    obtain ⟨kept, left⟩ := ih (fun m member => pushed m (.inl member)) others
    refine ⟨kept, List.append_subset.2 ⟨fun m member => ?_, left⟩⟩
    exact pushed m (.inr (Option.mem_toList.1 member))

theorem pushAllSplits {nodes batch : List Node} (sub : batch ⊆ nodes)
    (there : m ∈ residents ∨ m ∈ batch) : m ∈ (pushAll capacity batch residents).1 ∨
      m ∈ (pushAll capacity batch residents).2 ∨ Doubled nodes m := by
  induction batch generalizing residents with
  | nil => exact .inl (there.resolve_right List.not_mem_nil)
  | cons n ns ih =>
    obtain ⟨own, others⟩ := List.cons_subset.1 sub
    have step : Doubled nodes m ∨ m ∈ ns ∨ m ∈ (push capacity n residents).1 ∨
        (push capacity n residents).2 = some m := by
      rw [pushSplits]
      by_cases same : m = n
      · exact .inr (.inr (.inl same))
      · by_cases named : m.revision = n.revision
        · exact .inl ⟨n, own, named.symm, Ne.symm same⟩
        · rcases there with counted | admitted
          · exact .inr (.inr (.inr ⟨counted, named⟩))
          · exact .inr (.inl ((List.mem_cons.1 admitted).resolve_left same))
    rcases step with doubled | later | kept | out
    · exact .inr (.inr doubled)
    · exact (ih others (.inr later)).imp_right (Or.imp_left (List.mem_append_right _))
    · exact (ih others (.inl kept)).imp_right (Or.imp_left (List.mem_append_right _))
    · exact .inr (.inl (List.mem_append_left _ (Option.mem_toList.2 out)))

end Push

section Slots
variable {c : Cache} {n m : Node}

theorem slotOfKept (filled : c.keeps n = true) : ∃ s, c.slots[n.id]? = some s := by
  rw [← Option.isSome_iff_exists]
  by_contra none
  rw [Bool.not_eq_true, Option.isSome_eq_false_iff, Option.isNone_iff_eq_none] at none
  simp [keeps, hasAncestry, hasView, slotsOf, none] at filled

theorem keepsInsert {s : Slots} (filled : ({ c with slots := c.slots.insert n.id s }).keeps m = true)
    (apart : n.id ≠ m.id) : c.keeps m = true := by
  have same : ({ c with slots := c.slots.insert n.id s } : Cache).slotsOf m = c.slotsOf m := by
    simp only [slotsOf, Std.TreeMap.getElem?_insert, compare_eq_iff_eq, apart, if_false]
  simpa only [keeps, hasAncestry, hasView, same] using filled

theorem slotsOfEvictAll (c : Cache) (ns : List Node) (m : Node) :
    (ns.foldl (fun c n => c.evict n) c).slotsOf m =
      if ∃ n ∈ ns, n.id = m.id then {} else c.slotsOf m := by
  induction ns generalizing c with
  | nil => simp
  | cons n ns ih =>
    have evicted : (c.evict n).slotsOf m = if n.id = m.id then {} else c.slotsOf m := by
      simp only [slotsOf, evict, Std.TreeMap.getElem?_erase, compare_eq_iff_eq]
      split <;> rfl
    rw [List.foldl_cons, ih, evicted, ← ite_or]
    simp only [List.exists_mem_cons_iff, or_comm]

theorem keepsCleared {d : Cache} {gone : Prop} [Decidable gone]
    (slots : d.slotsOf m = if gone then {} else c.slotsOf m) :
    d.keeps m = true ↔ ¬ gone ∧ c.keeps m = true := by
  simp only [keeps, hasAncestry, hasView, slots]
  by_cases cleared : gone
  · simp [cleared]
  · simp [cleared]

theorem residentsEvictAll (ns : List Node) (p : Pool) :
    (ns.foldl (fun c n => c.evict n) c).residentsOf p = c.residentsOf p :=
  List.foldlRecOn (motive := fun d : Cache => d.residentsOf p = c.residentsOf p) _ _ rfl
    fun _ same _ _ => same

theorem enrollResidents {p : Pool} (bounded : 0 < p.capacity) (batch : List Node) :
    (c.enroll p batch).residentsOf p = (pushAll p.capacity batch (c.residentsOf p)).1 := by
  rw [enroll, if_neg (Nat.ne_of_gt bounded)]
  dsimp only
  rw [residentsEvictAll]
  simp [residentsOf]

theorem enrollSlots {p : Pool} (bounded : 0 < p.capacity) (batch : List Node) :
    (c.enroll p batch).slotsOf m =
      if ∃ n ∈ (pushAll p.capacity batch (c.residentsOf p)).2,
        (∀ k ∈ (c.enroll p batch).residentsOf p, k.revision ≠ n.revision) ∧ n.id = m.id
      then {} else c.slotsOf m := by
  rw [enrollResidents bounded, enroll, if_neg (Nat.ne_of_gt bounded)]
  dsimp only
  rw [slotsOfEvictAll]
  simp [slotsOf, and_assoc]

end Slots

/-- The cache is coherent, and the pool counts known nodes, within its capacity, and every known
node that keeps something, but for those that are pending and those that are doubled. -/
structure Budgeted (nodes : List Node) (p : Pool) (pending : Node → Prop) (c : Cache) : Prop where
  coherent : Coherent nodes c
  known : c.residentsOf p ⊆ nodes
  room : (c.residentsOf p).length ≤ p.capacity
  admitted : ∀ n ∈ nodes, c.keeps n = true →
    n ∈ c.residentsOf p ∨ pending n ∨ Doubled nodes n

namespace Budgeted
variable {nodes : List Node} {p : Pool} {pending : Node → Prop} {c : Cache}

theorem empty (nodes : List Node) (p : Pool) (pending : Node → Prop) :
    Budgeted nodes p pending {} where
  coherent := .empty nodes
  known := List.nil_subset _
  room := Nat.zero_le _
  admitted _ _ filled := absurd filled Bool.false_ne_true

theorem widen {more : Node → Prop} (budgeted : Budgeted nodes p pending c)
    (wider : ∀ n, pending n → more n) : Budgeted nodes p more c :=
  { budgeted with
    admitted := fun n member filled =>
      (budgeted.admitted n member filled).imp_right (Or.imp_left (wider n)) }

theorem grow {more : List Node} (budgeted : Budgeted nodes p pending c) (sub : nodes ⊆ more)
    (new : ∀ n ∈ more, n ∈ nodes ∨ ∀ m ∈ nodes, m.id ≠ n.id) : Budgeted more p pending c where
  coherent := budgeted.coherent.mono sub
  known := List.Subset.trans budgeted.known sub
  room := budgeted.room
  admitted n member filled := by
    rcases new n member with old | fresh
    · exact (budgeted.admitted n old filled).imp_right (Or.imp_right (·.mono sub))
    · obtain ⟨s, found⟩ := slotOfKept filled
      obtain ⟨m, known, same, _⟩ := budgeted.coherent n.id s found
      exact absurd same (fresh m known)

theorem store (identified : Identified nodes) (budgeted : Budgeted nodes p pending c) {n : Node}
    {s : Slots} (member : n ∈ nodes) (fits : s.Fits n) :
    Budgeted nodes p (fun m => m = n ∨ pending m) { c with slots := c.slots.insert n.id s } where
  coherent := budgeted.coherent.insert member fits
  known := budgeted.known
  room := budgeted.room
  admitted m inside filled := by
    by_cases same : n.id = m.id
    · exact .inr (.inl (.inl (identified.single m inside n member same.symm)))
    · exact (budgeted.admitted m inside (keepsInsert filled same)).imp_right (Or.imp_left .inr)

theorem evictAll (budgeted : Budgeted nodes p pending c) (ns : List Node) :
    Budgeted nodes p pending (ns.foldl (fun c n => c.evict n) c) := by
  refine ⟨budgeted.coherent.evictAll ns, ?_, ?_, ?_⟩ <;> rw [residentsEvictAll]
  · exact budgeted.known
  · exact budgeted.room
  · exact fun n member filled => budgeted.admitted n member
      ((keepsCleared (slotsOfEvictAll c ns n)).1 filled).2

theorem enroll {batch : List Node} (bounded : 0 < p.capacity) (sub : batch ⊆ nodes)
    (budgeted : Budgeted nodes p (fun n => n ∈ batch ∨ pending n) c) :
    Budgeted nodes p pending (c.enroll p batch) := by
  have known : (pushAll p.capacity batch (c.residentsOf p)).1 ⊆ nodes :=
    (pushAllKnown budgeted.known sub).1
  refine ⟨budgeted.coherent.enroll p batch, ?_, ?_, ?_⟩
  · rw [enrollResidents bounded]
    exact known
  · rw [enrollResidents bounded]
    exact pushAllRoom budgeted.room
  · intro n member filled
    obtain ⟨stays, kept⟩ := (keepsCleared (enrollSlots bounded batch)).1 filled
    rw [enrollResidents bounded] at stays ⊢
    have split : n ∈ c.residentsOf p ∨ n ∈ batch →
        n ∈ (pushAll p.capacity batch (c.residentsOf p)).1 ∨
          n ∈ (pushAll p.capacity batch (c.residentsOf p)).2 ∨ Doubled nodes n := pushAllSplits sub
    generalize pushAll p.capacity batch (c.residentsOf p) = pushed at known stays split
    -- A node that was pushed out keeps its slots only if its revision is counted again.
    have out : n ∈ pushed.2 → n ∈ pushed.1 ∨ Doubled nodes n := by
      intro left
      obtain ⟨m, resident, same⟩ : ∃ m ∈ pushed.1, m.revision = n.revision := by
        by_contra gone
        exact stays ⟨n, left, fun m resident same => gone ⟨m, resident, same⟩, rfl⟩
      by_cases own : m = n
      · exact .inl (own ▸ resident)
      · exact .inr ⟨m, known resident, same, own⟩
    have settled : n ∈ c.residentsOf p ∨ n ∈ batch → n ∈ pushed.1 ∨ Doubled nodes n := by
      intro there
      rcases split there with kept | left | doubled
      · exact .inl kept
      · exact out left
      · exact .inr doubled
    rcases budgeted.admitted n member kept with old | (new | waits) | doubled
    · exact (settled (.inl old)).imp_right .inr
    · exact (settled (.inr new)).imp_right .inr
    · exact .inr (.inl waits)
    · exact .inr (.inr doubled)

end Budgeted
end Cache
end DocHistory
