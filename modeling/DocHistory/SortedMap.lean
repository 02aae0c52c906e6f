/-!
Finite maps as association lists with strictly ascending keys. A map is determined by its
lookups (`extGet`), so equality of maps is equality of what they answer. The operations on
bare entry lists stand in `Entries`, for containers that cannot carry the order proof.
-/
namespace DocHistory

universe u v w

namespace Entries
variable {κ : Type u} {α : Type v} {β : Type w} [Ord κ]

def Ascending (es : List (κ × α)) : Prop :=
  es.Pairwise fun a b => compare a.1 b.1 = .lt

def get? (k : κ) : List (κ × α) → Option α
  | [] => none
  | (k', a) :: es =>
    match compare k k' with
    | .lt => none
    | .eq => some a
    | .gt => get? k es

def insertWith (combine : α → α → α) (k : κ) (a : α) : List (κ × α) → List (κ × α)
  | [] => [(k, a)]
  | (k', a') :: es =>
    match compare k k' with
    | .lt => (k, a) :: (k', a') :: es
    | .eq => (k, combine a' a) :: es
    | .gt => (k', a') :: insertWith combine k a es

def insert : κ → α → List (κ × α) → List (κ × α) := insertWith fun _ new => new

def insertNew : κ → α → List (κ × α) → List (κ × α) := insertWith fun old _ => old

def erase (k : κ) : List (κ × α) → List (κ × α)
  | [] => []
  | (k', a') :: es =>
    match compare k k' with
    | .lt => (k', a') :: es
    | .eq => es
    | .gt => (k', a') :: erase k es

def ofList (es : List (κ × α)) : List (κ × α) :=
  es.foldr (fun e m => insertNew e.1 e.2 m) []

def unionAt (k : κ) (a : α) (next : List (κ × α) → List (κ × α)) :
    List (κ × α) → List (κ × α)
  | [] => (k, a) :: next []
  | (l, b) :: bs =>
    match compare k l with
    | .lt => (k, a) :: next ((l, b) :: bs)
    | .eq => (k, a) :: next bs
    | .gt => (l, b) :: unionAt k a next bs

def union : List (κ × α) → List (κ × α) → List (κ × α)
  | [], bs => bs
  | (k, a) :: as, bs => unionAt k a (union as) bs

@[simp] theorem insertNil (k : κ) (a : α) : insert k a [] = [(k, a)] := rfl

theorem insertCons (k : κ) (a : α) (e : κ × α) (es : List (κ × α)) :
    insert k a (e :: es) =
      match compare k e.1 with
      | .lt => (k, a) :: e :: es
      | .eq => (k, a) :: es
      | .gt => e :: insert k a es := rfl

theorem memInsertedWith {combine : α → α → α} {k : κ} {a : α} {es : List (κ × α)} {e : κ × α}
    (h : e ∈ insertWith combine k a es) :
    e = (k, a) ∨ e ∈ es ∨ ∃ f ∈ es, e = (k, combine f.2 a) := by
  induction es with
  | nil => exact .inl (by simpa [insertWith] using h)
  | cons x es ih =>
    obtain ⟨k', a'⟩ := x
    simp only [insertWith] at h
    split at h
    · exact (List.mem_cons.1 h).imp id .inl
    · rcases List.mem_cons.1 h with h | h
      · exact .inr (.inr ⟨_, List.mem_cons_self, h⟩)
      · exact .inr (.inl (List.mem_cons_of_mem _ h))
    · rcases List.mem_cons.1 h with h | h
      · exact .inr (.inl (h ▸ List.mem_cons_self))
      · rcases ih h with h | h | ⟨f, member, h⟩
        · exact .inl h
        · exact .inr (.inl (List.mem_cons_of_mem _ h))
        · exact .inr (.inr ⟨f, List.mem_cons_of_mem _ member, h⟩)

theorem memInserted {k : κ} {a : α} {es : List (κ × α)} {e : κ × α} (h : e ∈ insert k a es) :
    e = (k, a) ∨ e ∈ es := by
  rcases memInsertedWith h with h | h | ⟨_, _, h⟩
  · exact .inl h
  · exact .inr h
  · exact .inl h

theorem memErased {k : κ} {es : List (κ × α)} {e : κ × α} (h : e ∈ erase k es) :
    e ∈ es := by
  induction es with
  | nil => exact absurd h (by simp [erase])
  | cons x es ih =>
    obtain ⟨k', a'⟩ := x
    simp only [erase] at h
    split at h
    · exact h
    · exact List.mem_cons_of_mem _ h
    · rcases List.mem_cons.1 h with h | h
      · exact h ▸ List.mem_cons_self
      · exact List.mem_cons_of_mem _ (ih h)

theorem Ascending.erase {k : κ} {es : List (κ × α)} (h : Ascending es) :
    Ascending (erase k es) := by
  induction es with
  | nil => simp [Entries.erase, Ascending]
  | cons x es ih =>
    obtain ⟨k', a'⟩ := x
    have ⟨first, rest⟩ := List.pairwise_cons.1 h
    simp only [Entries.erase]
    split
    · exact h
    · exact rest
    · exact List.pairwise_cons.2 ⟨fun e he => first e (memErased he), ih rest⟩

theorem Ascending.filterMap {f : κ → α → Option β} {es : List (κ × α)} (h : Ascending es) :
    Ascending (es.filterMap fun e => (f e.1 e.2).map fun b => (e.1, b)) := by
  refine List.Pairwise.filterMap _ (fun a b lt x hx y hy => ?_) h
  obtain ⟨_, _, rfl⟩ := Option.map_eq_some_iff.1 hx
  obtain ⟨_, _, rfl⟩ := Option.map_eq_some_iff.1 hy
  exact lt

theorem memUnionAt {k : κ} {a : α} {next : List (κ × α) → List (κ × α)} {cs : List (κ × α)}
    {e : κ × α} (h : e ∈ unionAt k a next cs) :
    e = (k, a) ∨ e ∈ cs ∨ ∃ ds, ds ⊆ cs ∧ e ∈ next ds := by
  induction cs with
  | nil => exact (List.mem_cons.1 h).imp id fun h => .inr ⟨[], List.nil_subset _, h⟩
  | cons y cs ih =>
    obtain ⟨l, b⟩ := y
    simp only [unionAt] at h
    split at h
    · exact (List.mem_cons.1 h).imp id fun h => .inr ⟨_, List.Subset.refl _, h⟩
    · exact (List.mem_cons.1 h).imp id fun h => .inr ⟨cs, List.subset_cons_self _ _, h⟩
    · rcases List.mem_cons.1 h with h | h
      · exact .inr (.inl (h ▸ List.mem_cons_self))
      · rcases ih h with h | h | ⟨ds, sub, h⟩
        · exact .inl h
        · exact .inr (.inl (List.mem_cons_of_mem _ h))
        · exact .inr (.inr ⟨ds, fun f member => List.mem_cons_of_mem _ (sub member), h⟩)

theorem memUnion {as bs : List (κ × α)} {e : κ × α} (h : e ∈ union as bs) :
    e ∈ as ∨ e ∈ bs := by
  induction as generalizing bs with
  | nil => exact .inr h
  | cons x as ih =>
    rcases memUnionAt h with h | h | ⟨ds, sub, h⟩
    · exact .inl (h ▸ List.mem_cons_self)
    · exact .inr h
    · exact (ih h).imp (List.mem_cons_of_mem _) fun h => sub h

theorem getBefore {k : κ} {es : List (κ × α)}
    (h : ∀ e ∈ es, compare k e.1 = .lt) : get? k es = none := by
  cases es with
  | nil => rfl
  | cons x es => simp [get?, h x List.mem_cons_self]

section Trans
variable [Std.TransOrd κ]

theorem ltTrans {a b c : κ} (h : compare a b = .lt) (h' : compare b c = .lt) :
    compare a c = .lt :=
  Std.TransCmp.lt_trans h h'

theorem gtIffLt {a b : κ} : compare a b = .gt ↔ compare b a = .lt :=
  Std.OrientedCmp.gt_iff_lt

theorem Ascending.insertWith {combine : α → α → α} {k : κ} {a : α} {es : List (κ × α)}
    (h : Ascending es) : Ascending (insertWith combine k a es) := by
  induction es with
  | nil => simp [Entries.insertWith, Ascending]
  | cons x es ih =>
    obtain ⟨k', a'⟩ := x
    have ⟨first, rest⟩ := List.pairwise_cons.1 h
    simp only [Entries.insertWith]
    split
    next lt =>
      refine List.pairwise_cons.2 ⟨fun e he => ?_, h⟩
      rcases List.mem_cons.1 he with rfl | he
      · exact lt
      · exact ltTrans lt (first e he)
    next eq =>
      refine List.pairwise_cons.2 ⟨fun e he => ?_, rest⟩
      exact Std.TransCmp.lt_of_eq_of_lt eq (first e he)
    next gt =>
      refine List.pairwise_cons.2 ⟨fun e he => ?_, ih rest⟩
      rcases memInsertedWith he with rfl | he | ⟨_, _, rfl⟩
      · exact gtIffLt.1 gt
      · exact first e he
      · exact gtIffLt.1 gt

theorem ascendingOfList (es : List (κ × α)) : Ascending (ofList es) := by
  induction es with
  | nil => exact List.Pairwise.nil
  | cons e es ih => exact ih.insertWith

theorem Ascending.union {as bs : List (κ × α)} (ha : Ascending as) (hb : Ascending bs) :
    Ascending (union as bs) := by
  induction as generalizing bs with
  | nil => exact hb
  | cons x as ih =>
    obtain ⟨k, a⟩ := x
    have ⟨firstA, restA⟩ := List.pairwise_cons.1 ha
    simp only [Entries.union]
    induction bs with
    | nil =>
      refine List.pairwise_cons.2 ⟨fun e he => ?_, ih restA hb⟩
      rcases memUnion he with he | he
      · exact firstA e he
      · exact absurd he (by simp)
    | cons y bs ihb =>
      obtain ⟨l, b⟩ := y
      have ⟨firstB, restB⟩ := List.pairwise_cons.1 hb
      simp only [unionAt]
      split
      next lt =>
        refine List.pairwise_cons.2 ⟨fun e he => ?_, ih restA hb⟩
        rcases memUnion he with he | he
        · exact firstA e he
        · rcases List.mem_cons.1 he with rfl | he
          · exact lt
          · exact ltTrans lt (firstB e he)
      next eq =>
        refine List.pairwise_cons.2 ⟨fun e he => ?_, ih restA restB⟩
        rcases memUnion he with he | he
        · exact firstA e he
        · exact Std.TransCmp.lt_of_eq_of_lt eq (firstB e he)
      next gt =>
        refine List.pairwise_cons.2 ⟨fun e he => ?_, ihb restB⟩
        have he : e ∈ Entries.union ((k, a) :: as) bs := he
        rcases memUnion he with he | he
        · rcases List.mem_cons.1 he with rfl | he
          · exact gtIffLt.1 gt
          · exact ltTrans (gtIffLt.1 gt) (firstA e he)
        · exact firstB e he

end Trans

section Lawful
variable [Std.TransOrd κ] [Std.LawfulEqOrd κ]

omit [Std.TransOrd κ] in
theorem eqOfCompare {a b : κ} (h : compare a b = .eq) : a = b :=
  Std.LawfulEqCmp.eq_of_compare h

omit [Std.LawfulEqOrd κ] in
theorem neOfLt {a b : κ} (h : compare a b = .lt) : a ≠ b := by
  rintro rfl
  simp [Std.ReflCmp.compare_self] at h

omit [Std.LawfulEqOrd κ] in
theorem neOfGt {a b : κ} (h : compare a b = .gt) : a ≠ b :=
  (neOfLt (gtIffLt.1 h)).symm

omit [Std.TransOrd κ] in
theorem memOfGet {k : κ} {a : α} {es : List (κ × α)} (h : get? k es = some a) : (k, a) ∈ es := by
  induction es with
  | nil => cases h
  | cons e es ih =>
    rw [get?] at h
    split at h
    · cases h
    next eq =>
      cases h
      rw [eqOfCompare eq]
      exact List.mem_cons_self
    · exact List.mem_cons_of_mem _ (ih h)

theorem getIff {k : κ} {a : α} {es : List (κ × α)} (h : Ascending es) :
    get? k es = some a ↔ (k, a) ∈ es := by
  induction es with
  | nil => simp [get?]
  | cons x es ih =>
    obtain ⟨k', a'⟩ := x
    have ⟨first, rest⟩ := List.pairwise_cons.1 h
    simp only [get?, List.mem_cons, Prod.mk.injEq]
    split
    next lt =>
      refine ⟨by simp, ?_⟩
      rintro (⟨eq, _⟩ | mem)
      · exact absurd eq (neOfLt lt)
      · exact absurd (ltTrans lt (first _ mem)) (by simp [Std.ReflCmp.compare_self])
    next eq =>
      have := eqOfCompare eq
      subst this
      refine ⟨by simpa using fun h => .inl h.symm, ?_⟩
      rintro (⟨_, rfl⟩ | mem)
      · rfl
      · exact absurd (first _ mem) (by simp [Std.ReflCmp.compare_self])
    next gt => simp [ih rest, neOfGt gt]

theorem memInsertWith {combine : α → α → α} {k k' : κ} {a b : α} {es : List (κ × α)}
    (h : Ascending es) : (k', b) ∈ insertWith combine k a es ↔
      (k' = k ∧ b = (get? k es).elim a (combine · a)) ∨ (k' ≠ k ∧ (k', b) ∈ es) := by
  induction es with
  | nil => simp [insertWith, get?]
  | cons x es ih =>
    obtain ⟨l, c⟩ := x
    have ⟨first, rest⟩ := List.pairwise_cons.1 h
    have late : ∀ m, compare m l = .lt → (m, b) ∉ (l, c) :: es := by
      intro m lt mem
      rcases List.mem_cons.1 mem with e | mem
      · exact neOfLt lt (congrArg Prod.fst e)
      · exact neOfLt (ltTrans lt (first _ mem)) rfl
    have apart : (l, b) ∉ es := fun mem => neOfLt (first _ mem) rfl
    simp only [insertWith, get?]
    split
    next lt =>
      by_cases same : k' = k
      · subst same
        have := late k' lt
        simp_all
      · simp [same]
    next eq =>
      have := eqOfCompare eq
      subst this
      by_cases same : k' = k
      · subst same
        simp [apart]
      · simp [same]
    next gt =>
      rw [List.mem_cons, List.mem_cons, ih rest]
      by_cases same : k' = k
      · subst same
        simp [neOfGt gt]
      · simp [same]

theorem memOfList {es : List (κ × α)} {e : κ × α} (h : e ∈ ofList es) : e ∈ es := by
  induction es with
  | nil => exact h
  | cons f es ih =>
    obtain ⟨k, a⟩ := e
    rcases (memInsertWith (ascendingOfList es)).1 h with ⟨rfl, value⟩ | ⟨_, old⟩
    · cases found : get? f.1 (ofList es) with
      | none =>
        rw [found] at value
        exact value ▸ List.mem_cons_self
      | some b =>
        rw [found] at value
        exact List.mem_cons_of_mem _ (ih ((getIff (ascendingOfList es)).1 (value ▸ found)))
    · exact List.mem_cons_of_mem _ (ih old)

theorem memEraseIff {k k' : κ} {b : α} {es : List (κ × α)} (h : Ascending es) :
    (k', b) ∈ erase k es ↔ k' ≠ k ∧ (k', b) ∈ es := by
  induction es with
  | nil => simp [erase]
  | cons x es ih =>
    obtain ⟨l, c⟩ := x
    have ⟨first, rest⟩ := List.pairwise_cons.1 h
    simp only [erase]
    split
    next lt =>
      refine ⟨fun mem => ⟨?_, mem⟩, And.right⟩
      rintro rfl
      rcases List.mem_cons.1 mem with e | mem
      · exact neOfLt lt (congrArg Prod.fst e)
      · exact neOfLt (ltTrans lt (first _ mem)) rfl
    next eq =>
      have := eqOfCompare eq
      subst this
      by_cases same : k' = k
      · subst same
        have apart : (k', b) ∉ es := fun mem => neOfLt (first _ mem) rfl
        simp [apart]
      · simp [same]
    next gt =>
      rw [List.mem_cons, List.mem_cons, ih rest]
      by_cases same : k' = k
      · subst same
        simp [neOfGt gt]
      · simp [same]

variable [DecidableEq κ]

theorem getInsertWith {combine : α → α → α} {k k' : κ} {a : α} {es : List (κ × α)}
    (h : Ascending es) : get? k' (insertWith combine k a es) =
      if k' = k then some ((get? k es).elim a (combine · a)) else get? k' es := by
  ext b
  rw [getIff h.insertWith, memInsertWith h]
  split
  · simp_all [eq_comm]
  · simp_all [getIff h]

theorem getInsert {k k' : κ} {a : α} {es : List (κ × α)} (h : Ascending es) :
    get? k' (insert k a es) = if k' = k then some a else get? k' es := by
  rw [insert, getInsertWith h]
  cases get? k es <;> rfl

theorem getInsertNew {k k' : κ} {a : α} {es : List (κ × α)} (h : Ascending es) :
    get? k' (insertNew k a es) = (get? k' es).or (if k' = k then some a else none) := by
  rw [insertNew, getInsertWith h]
  split
  next same =>
    subst same
    cases get? k' es <;> rfl
  next => rw [Option.or_none]

theorem getOfListCons (k : κ) (e : κ × α) (es : List (κ × α)) :
    get? k (ofList (e :: es)) = (get? k (ofList es)).or (if k = e.1 then some e.2 else none) :=
  getInsertNew (ascendingOfList es)

theorem getErase {k k' : κ} {es : List (κ × α)} (h : Ascending es) :
    get? k' (erase k es) = if k' = k then none else get? k' es := by
  ext b
  rw [getIff h.erase, memEraseIff h]
  split
  · simp_all
  · simp_all [getIff h]

omit [DecidableEq κ] in
theorem getUnion {k : κ} {as bs : List (κ × α)} (ha : Ascending as) (hb : Ascending bs) :
    get? k (union as bs) = (get? k as <|> get? k bs) := by
  induction as generalizing bs with
  | nil => simp [union, get?]
  | cons x as ih =>
    obtain ⟨l, a⟩ := x
    have ⟨firstA, restA⟩ := List.pairwise_cons.1 ha
    simp only [union]
    induction bs with
    | nil =>
      have := ih restA hb
      simp only [get?] at this
      simp only [unionAt, get?, this]
      split <;> simp
    | cons y bs ihb =>
      obtain ⟨m, b⟩ := y
      have ⟨firstB, restB⟩ := List.pairwise_cons.1 hb
      have ihb := ihb restB
      simp only [unionAt]
      split
      next lt =>
        simp only [get?, ih restA hb]
        split
        next h => simp [ltTrans h lt]
        next h => simp
        next h => simp
      next eq =>
        have := eqOfCompare eq
        subst this
        simp only [get?, ih restA restB]
        split <;> simp
      next gt =>
        have gt' := gtIffLt.1 gt
        simp only [get?] at ihb ⊢
        split
        next h => simp [ltTrans h gt']
        next h =>
          have := eqOfCompare h
          subst this
          simp [gt']
        next h => rw [ihb]

omit [DecidableEq κ] in
theorem eqOfGet {as bs : List (κ × α)} (ha : Ascending as) (hb : Ascending bs)
    (h : ∀ k, get? k as = get? k bs) : as = bs := by
  induction as generalizing bs with
  | nil =>
    cases bs with
    | nil => rfl
    | cons y bs => simpa [get?, Std.ReflCmp.compare_self] using h y.1
  | cons x as ih =>
    cases bs with
    | nil => simpa [get?, Std.ReflCmp.compare_self] using h x.1
    | cons y bs =>
      obtain ⟨k, a⟩ := x
      obtain ⟨l, b⟩ := y
      have ⟨firstA, restA⟩ := List.pairwise_cons.1 ha
      have ⟨firstB, restB⟩ := List.pairwise_cons.1 hb
      have hk := h k
      have hl := h l
      simp only [get?, Std.ReflCmp.compare_self] at hk hl
      cases c : compare k l with
      | lt => simp [c] at hk
      | gt => simp [gtIffLt.1 c] at hl
      | eq =>
        have := eqOfCompare c
        subst this
        simp only [Std.ReflCmp.compare_self, Option.some.injEq] at hk
        subst hk
        refine congrArg _ (ih restA restB fun m => ?_)
        have hm := h m
        simp only [get?] at hm
        cases d : compare m k with
        | lt =>
          rw [getBefore fun e he => ltTrans d (firstA e he),
            getBefore fun e he => ltTrans d (firstB e he)]
        | eq =>
          have := eqOfCompare d
          subst this
          rw [getBefore firstA, getBefore firstB]
        | gt => simpa [d] using hm

end Lawful
end Entries

structure SortedMap (κ : Type u) (α : Type v) [Ord κ] where
  entries : List (κ × α)
  ascending : Entries.Ascending entries

namespace SortedMap
variable {κ : Type u} {α : Type v} {β : Type w} [Ord κ]

instance [DecidableEq κ] [DecidableEq α] : DecidableEq (SortedMap κ α) := fun m n =>
  decidable_of_iff (m.entries = n.entries)
    ⟨fun h => by cases m; cases n; cases h; rfl, fun h => h ▸ rfl⟩

instance [BEq κ] [BEq α] : BEq (SortedMap κ α) := ⟨fun m n => m.entries == n.entries⟩

def empty : SortedMap κ α := ⟨[], List.Pairwise.nil⟩

instance : EmptyCollection (SortedMap κ α) := ⟨empty⟩
instance : Inhabited (SortedMap κ α) := ⟨empty⟩

def get? (m : SortedMap κ α) (k : κ) : Option α := Entries.get? k m.entries

def contains (m : SortedMap κ α) (k : κ) : Bool := (m.get? k).isSome

def isEmpty (m : SortedMap κ α) : Bool := m.entries.isEmpty

def size (m : SortedMap κ α) : Nat := m.entries.length

def keys (m : SortedMap κ α) : List κ := m.entries.map Prod.fst

def values (m : SortedMap κ α) : List α := m.entries.map Prod.snd

def last? (m : SortedMap κ α) : Option (κ × α) := m.entries.getLast?

@[simp] theorem getEmpty (k : κ) : (∅ : SortedMap κ α).get? k = none := rfl

variable [Std.TransOrd κ]

def insert (m : SortedMap κ α) (k : κ) (a : α) : SortedMap κ α :=
  ⟨Entries.insert k a m.entries, m.ascending.insertWith⟩

def insertNew (m : SortedMap κ α) (k : κ) (a : α) : SortedMap κ α :=
  ⟨Entries.insertNew k a m.entries, m.ascending.insertWith⟩

def erase (m : SortedMap κ α) (k : κ) : SortedMap κ α :=
  ⟨Entries.erase k m.entries, m.ascending.erase⟩

def ofList (es : List (κ × α)) : SortedMap κ α :=
  ⟨Entries.ofList es, Entries.ascendingOfList es⟩

def insertMany (m : SortedMap κ α) (es : List (κ × α)) : SortedMap κ α :=
  es.foldl (fun m e => m.insert e.1 e.2) m

def union (m n : SortedMap κ α) : SortedMap κ α :=
  ⟨Entries.union m.entries n.entries, m.ascending.union n.ascending⟩

def filterMap (f : κ → α → Option β) (m : SortedMap κ α) : SortedMap κ β :=
  ⟨m.entries.filterMap fun e => (f e.1 e.2).map fun b => (e.1, b), m.ascending.filterMap⟩

variable [Std.LawfulEqOrd κ] [DecidableEq κ]

omit [DecidableEq κ] in
theorem getIff {m : SortedMap κ α} {k : κ} {a : α} :
    m.get? k = some a ↔ (k, a) ∈ m.entries :=
  Entries.getIff m.ascending

theorem getInsert (m : SortedMap κ α) (k k' : κ) (a : α) :
    (m.insert k a).get? k' = if k' = k then some a else m.get? k' := by
  rw [get?, insert, Entries.getInsert m.ascending]
  split <;> simp_all [get?]

theorem getInsertNew (m : SortedMap κ α) (k k' : κ) (a : α) :
    (m.insertNew k a).get? k' = (m.get? k').or (if k' = k then some a else none) :=
  Entries.getInsertNew m.ascending

theorem getErase (m : SortedMap κ α) (k k' : κ) :
    (m.erase k).get? k' = if k' = k then none else m.get? k' := by
  rw [get?, erase, Entries.getErase m.ascending]
  split <;> simp_all [get?]

omit [DecidableEq κ] in
theorem getUnion (m n : SortedMap κ α) (k : κ) :
    (m.union n).get? k = (m.get? k <|> n.get? k) :=
  Entries.getUnion m.ascending n.ascending

omit [DecidableEq κ] in
@[ext] theorem extGet {m n : SortedMap κ α} (h : ∀ k, m.get? k = n.get? k) : m = n := by
  obtain ⟨as, ha⟩ := m
  obtain ⟨bs, hb⟩ := n
  obtain rfl : as = bs := Entries.eqOfGet ha hb h
  rfl

end SortedMap

abbrev SortedSet (κ : Type u) [Ord κ] := SortedMap κ Unit

namespace SortedSet
variable {κ : Type u} [Ord κ]

def toList (s : SortedSet κ) : List κ := s.keys

variable [Std.TransOrd κ]

def add (s : SortedSet κ) (k : κ) : SortedSet κ := s.insert k ()

def ofList (ks : List κ) : SortedSet κ := SortedMap.ofList (ks.map fun k => (k, ()))

end SortedSet
end DocHistory
