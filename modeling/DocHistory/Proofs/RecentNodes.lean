import Mathlib.Data.List.Dedup
import Mathlib.Data.List.DropRight
import DocHistory.Proofs.PoolAdmission

/-! Which nodes a pool counts after an admission, and what the others lose. Counted are the last
ones that were admitted, as many as there is room for, however often the batch fills the pool. A
node loses what it derived if the whole batch has pushed it out: one that left early in the batch
and was admitted again later in it loses nothing. -/
namespace DocHistory

section Latest
variable {α : Type}

theorem rtakeShort {xs : List α} {count : Nat} (short : xs.length ≤ count) :
    xs.rtake count = xs := by
  rw [List.rtake, Nat.sub_eq_zero_of_le short, List.drop_zero]

theorem rtakeLength (xs : List α) (count : Nat) : (xs.rtake count).length ≤ count := by
  rw [List.rtake, List.length_drop]
  omega

variable [DecidableEq α]

def latest (count : Nat) (xs : List α) : List α := xs.dedup.rtake count

theorem dedupSnoc (xs : List α) (x : α) :
    (xs ++ [x]).dedup = xs.dedup.filter (· ≠ x) ++ [x] := by
  induction xs with
  | nil => rfl
  | cons y ys ih =>
    rw [List.cons_append]
    by_cases again : y ∈ ys
    · rw [List.dedup_cons_of_mem again, ← ih]
      exact List.dedup_cons_of_mem (List.mem_append_left _ again)
    · rw [List.dedup_cons_of_notMem again]
      by_cases same : y = x
      · rw [List.filter_cons_of_neg (by simp [same]), ← ih]
        exact List.dedup_cons_of_mem (by simp [same])
      · rw [List.filter_cons_of_pos (by simp [same]), List.cons_append, ← ih]
        exact List.dedup_cons_of_notMem (by simp [same, again])

theorem rtakeFilter {xs : List α} (distinct : xs.Nodup) (count : Nat) (x : α) :
    ((xs.rtake (count + 1)).filter (· ≠ x)).rtake count = (xs.filter (· ≠ x)).rtake count := by
  induction xs using List.reverseRecOn generalizing count with
  | nil => simp only [List.rtake_nil, List.filter_nil]
  | append_singleton ys y ih =>
    obtain ⟨new, others⟩ : y ∉ ys ∧ ys.Nodup := by
      rwa [List.nodup_append_comm, List.singleton_append, List.nodup_cons] at distinct
    rw [List.rtake_concat_succ, List.filter_append, List.filter_append]
    by_cases same : y = x
    · subst same
      have stay : ∀ z ∈ ys, decide (z ≠ y) = true :=
        fun z member => decide_eq_true fun found => new (found ▸ member)
      have kept : ∀ z ∈ ys.rtake count, decide (z ≠ y) = true :=
        fun z member => stay z (List.mem_of_mem_drop member)
      rw [List.filter_eq_self.2 stay, List.filter_eq_self.2 kept,
        List.filter_cons_of_neg (by simp), List.filter_nil, List.append_nil, List.append_nil,
        rtakeShort (rtakeLength ys count)]
    · rw [List.filter_cons_of_pos (by simp [same]), List.filter_nil]
      cases count with
      | zero => simp only [List.rtake_zero]
      | succ count => rw [List.rtake_concat_succ, List.rtake_concat_succ, ih others]

theorem latestDistinct (count : Nat) (xs : List α) : (latest count xs).Nodup :=
  xs.nodup_dedup.sublist (List.drop_sublist _ _)

theorem latestFixed {count : Nat} {xs : List α} (distinct : xs.Nodup) (room : xs.length ≤ count) :
    latest count xs = xs := by
  rw [latest, distinct.dedup, rtakeShort room]

theorem latestSnoc (count : Nat) (xs : List α) (x : α) : latest (count + 1) (xs ++ [x]) =
    ((latest (count + 1) xs).filter (· ≠ x)).rtake count ++ [x] := by
  rw [latest, latest, dedupSnoc, List.rtake_concat_succ, rtakeFilter xs.nodup_dedup]

theorem latestAbsorbs (count : Nat) (xs ys : List α) :
    latest count (latest count xs ++ ys) = latest count (xs ++ ys) := by
  induction ys using List.reverseRecOn with
  | nil =>
    rw [List.append_nil, List.append_nil]
    exact latestFixed (latestDistinct count xs) (rtakeLength _ count)
  | append_singleton ys y ih =>
    cases count with
    | zero => simp only [latest, List.rtake_zero]
    | succ count => rw [← List.append_assoc, ← List.append_assoc, latestSnoc, latestSnoc, ih]

end Latest

namespace Residents

def order (residents : Residents) : List Revision := residents.reverse.map Node.revision

structure Within (capacity : Nat) (residents : Residents) : Prop where
  room : residents.length ≤ capacity
  distinct : residents.order.Nodup

variable {capacity : Nat} {residents : Residents}

theorem orderLength : residents.order.length = residents.length := by
  rw [order, List.length_map, List.length_reverse]

theorem memOrder {r : Revision} : r ∈ residents.order ↔ ∃ n ∈ residents, n.revision = r := by
  simp [order]

theorem Within.fixed (within : residents.Within capacity) :
    latest capacity residents.order = residents.order :=
  latestFixed within.distinct (orderLength.trans_le within.room)

theorem withinEmpty : Residents.Within capacity [] := ⟨Nat.zero_le _, List.nodup_nil⟩

theorem withinLatest {revisions : List Revision}
    (ordered : residents.order = latest capacity revisions) : residents.Within capacity where
  room := orderLength.symm.trans_le (ordered ▸ rtakeLength _ capacity)
  distinct := ordered ▸ latestDistinct capacity revisions

end Residents

namespace Cache

section Push
variable {capacity : Nat} {residents : Residents}

theorem pushLatest (within : residents.Within capacity) (bounded : 0 < capacity) (n : Node) :
    (push capacity n residents).1.order = latest capacity (residents.order ++ [n.revision]) := by
  obtain ⟨count, rfl⟩ := Nat.exists_eq_add_one.2 bounded
  have named : (residents.filter fun m => m.revision ≠ n.revision).map Node.revision =
      (residents.map Node.revision).filter (· ≠ n.revision) := by
    rw [List.filter_map]
    rfl
  rw [latestSnoc, within.fixed, pushTakes within.room, List.take_succ_cons, Residents.order,
    Residents.order, List.rtake_eq_reverse_take_reverse]
  simp only [List.reverse_cons, List.map_append, List.map_reverse, List.map_take,
    List.filter_reverse, List.reverse_reverse, named, List.map_cons, List.map_nil]

theorem pushAllLatest (within : residents.Within capacity) (bounded : 0 < capacity)
    (batch : List Node) : (pushAll capacity batch residents).1.order =
      latest capacity (residents.order ++ batch.map Node.revision) := by
  induction batch generalizing residents with
  | nil => rw [List.map_nil, List.append_nil, within.fixed, pushAll]
  | cons n ns ih =>
    have pushed := pushLatest within bounded n
    calc (pushAll capacity (n :: ns) residents).1.order
      _ = latest capacity ((push capacity n residents).1.order ++ ns.map Node.revision) :=
        ih (Residents.withinLatest pushed)
      _ = latest capacity (residents.order ++ (n :: ns).map Node.revision) := by
        rw [pushed, latestAbsorbs, List.append_assoc, List.singleton_append, List.map_cons]

end Push

section Enroll
variable {p : Pool} {c : Cache} {batch : List Node}

theorem enrollLatest (bounded : 0 < p.capacity) (within : (c.residentsOf p).Within p.capacity)
    (batch : List Node) : ((c.enroll p batch).residentsOf p).order =
      latest p.capacity ((c.residentsOf p).order ++ batch.map Node.revision) := by
  rw [enrollResidents bounded]
  exact pushAllLatest within bounded batch

theorem enrollApart {q : Pool} (apart : q.id ≠ p.id) :
    (c.enroll p batch).residentsOf q = c.residentsOf q := by
  unfold enroll
  split
  · rfl
  · dsimp only
    rw [residentsEvictAll]
    simp [residentsOf, Std.TreeMap.getElem?_insert, apart.symm]

def enrollAll (p : Pool) (batches : List (List Node)) (c : Cache) : Cache :=
  batches.foldl (fun c batch => c.enroll p batch) c

theorem enrollAllLatest (bounded : 0 < p.capacity) (within : (c.residentsOf p).Within p.capacity)
    (batches : List (List Node)) : ((c.enrollAll p batches).residentsOf p).order =
      latest p.capacity ((c.residentsOf p).order ++ batches.flatten.map Node.revision) := by
  induction batches generalizing c with
  | nil =>
    rw [List.flatten_nil, List.map_nil, List.append_nil, within.fixed]
    rfl
  | cons batch later ih =>
    have first := enrollLatest bounded within batch
    calc ((c.enrollAll p (batch :: later)).residentsOf p).order
      _ = latest p.capacity
          (((c.enroll p batch).residentsOf p).order ++ later.flatten.map Node.revision) :=
        ih (Residents.withinLatest first)
      _ = latest p.capacity
          ((c.residentsOf p).order ++ (batch :: later).flatten.map Node.revision) := by
        rw [first, latestAbsorbs, List.append_assoc, List.flatten_cons, List.map_append]

theorem enrollAllWithin (bounded : 0 < p.capacity) (batches : List (List Node)) :
    ((Cache.empty.enrollAll p batches).residentsOf p).Within p.capacity :=
  Residents.withinLatest (enrollAllLatest bounded Residents.withinEmpty batches)

end Enroll

def Displaced (p : Pool) (batch : List Node) (before after : Cache) (n : Node) : Prop :=
  (n ∈ before.residentsOf p ∨ n ∈ batch) ∧ n.revision ∉ (after.residentsOf p).order

structure Admission (p : Pool) (batch : List Node) (before after : Cache) : Prop where
  order : (after.residentsOf p).order =
    latest p.capacity ((before.residentsOf p).order ++ batch.map Node.revision)
  counted : after.residentsOf p ⊆ before.residentsOf p ++ batch
  cleared : ∀ n, Displaced p batch before after n → after.slotsOf n = {}
  untouched : ∀ m, (∀ n, Displaced p batch before after n → n.id ≠ m.id) →
    after.slotsOf m = before.slotsOf m
  apart : ∀ q, q.id ≠ p.id → after.residentsOf q = before.residentsOf q

theorem keepsLatest {p : Pool} (bounded : 0 < p.capacity) {c : Cache}
    (within : (c.residentsOf p).Within p.capacity) {batch : List Node}
    (single : ∀ n ∈ c.residentsOf p ++ batch, ¬ Doubled (c.residentsOf p ++ batch) n) :
    Admission p batch c (c.enroll p batch) := by
  have sub : batch ⊆ c.residentsOf p ++ batch := List.subset_append_right _ _
  have counted : (c.enroll p batch).residentsOf p = _ := enrollResidents bounded batch
  obtain ⟨known, pushed⟩ :
      (pushAll p.capacity batch (c.residentsOf p)).1 ⊆ c.residentsOf p ++ batch ∧
        (pushAll p.capacity batch (c.residentsOf p)).2 ⊆ c.residentsOf p ++ batch :=
    pushAllKnown (List.subset_append_left _ _) sub
  constructor
  · exact enrollLatest bounded within batch
  · rw [counted]
    exact known
  · rintro n ⟨there, gone⟩
    rw [Residents.memOrder, not_exists] at gone
    -- No other node of its revision can have taken its place, so it was pushed out.
    have left : n ∈ (pushAll p.capacity batch (c.residentsOf p)).2 := by
      rcases pushAllSplits sub there with resident | left | doubled
      · exact absurd ⟨counted ▸ resident, rfl⟩ (gone n)
      · exact left
      · exact absurd doubled (single n (List.mem_append.2 there))
    rw [enrollSlots bounded, if_pos]
    exact ⟨n, left, fun k resident same => gone k ⟨resident, same⟩, rfl⟩
  · intro m other
    rw [enrollSlots bounded, if_neg]
    rintro ⟨n, left, gone, same⟩
    have displaced : Displaced p batch c (c.enroll p batch) n := by
      refine ⟨List.mem_append.1 (pushed left), fun again => ?_⟩
      obtain ⟨k, resident, named⟩ := Residents.memOrder.1 again
      exact gone k resident named
    exact other n displaced same
  · exact fun q apart => enrollApart apart

def fourVersions : Graph :=
  Graph.ofVersions [.ofChanges 1 [] [], .ofChanges 2 [] [], .ofChanges 3 [] [], .ofChanges 4 [] []]

def picked (places : List Nat) : List Node := places.filterMap fun i => fourVersions.nodes[i]?

theorem pickedSingle (places : List Nat) : ∀ n ∈ picked places, ¬ Doubled (picked places) n := by
  have history : History fourVersions.nodes := (Graph.ofVersionsReachable _).history
  have known : picked places ⊆ fourVersions.nodes := by
    intro n member
    obtain ⟨i, _, found⟩ := List.mem_filterMap.1 member
    exact List.mem_of_getElem? found
  rintro n member ⟨m, other, same, different⟩
  exact different (history.single m (known other) n (known member) same)

def firstCounted : Cache :=
  (fourVersions.nodes.foldl (fun c n => fillAncestry n c) empty).enroll ⟨0, 2⟩ (picked [0, 1])

/-- The batch pushes the first node out, admits it again and pushes it out again; the third node is
pushed out once and admitted again. -/
theorem thirdReadmitted : firstCounted.residentsOf ⟨0, 2⟩ = picked [1, 0] ∧
    (firstCounted.residentsOf ⟨0, 2⟩).Within 2 ∧
    Admission ⟨0, 2⟩ (picked [2, 0, 3, 2]) firstCounted
      (firstCounted.enroll ⟨0, 2⟩ (picked [2, 0, 3, 2])) ∧
    ((firstCounted.enroll ⟨0, 2⟩ (picked [2, 0, 3, 2])).residentsOf ⟨0, 2⟩).order =
      [.ofTime 4, .ofTime 3] ∧
    fourVersions.nodes.map (firstCounted.enroll ⟨0, 2⟩ (picked [2, 0, 3, 2])).keeps =
      [false, false, true, true] := by
  have counted : firstCounted.residentsOf ⟨0, 2⟩ = picked [1, 0] := rfl
  have within : (firstCounted.residentsOf ⟨0, 2⟩).Within 2 := ⟨by decide, by decide⟩
  have admission : Admission ⟨0, 2⟩ (picked [2, 0, 3, 2]) firstCounted
      (firstCounted.enroll ⟨0, 2⟩ (picked [2, 0, 3, 2])) :=
    keepsLatest (by decide) within (pickedSingle [1, 0, 2, 0, 3, 2])
  exact ⟨counted, within, admission, rfl, rfl⟩

end Cache
end DocHistory
