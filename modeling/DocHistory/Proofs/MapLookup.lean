import DocHistory.SortedMap

/-! Lookups in maps that are built by a listing or by a fold, and the last entry of a map.
Nothing here depends on what the maps hold. -/
namespace DocHistory
universe u v w

namespace Entries
variable {κ : Type u} [Ord κ] [Std.TransOrd κ] [Std.LawfulEqOrd κ]

theorem compareCases (a b : κ) : compare a b = .lt ∨ a = b ∨ compare b a = .lt := by
  cases h : compare a b with
  | lt => exact .inl rfl
  | eq => exact .inr (.inl (eqOfCompare h))
  | gt => exact .inr (.inr (gtIffLt.1 h))

omit [Std.LawfulEqOrd κ] in
theorem notBelowItself {a b : κ} (below : compare a b = .lt) : compare b a ≠ .lt :=
  fun back => neOfLt (ltTrans below back) rfl

omit [Std.LawfulEqOrd κ] in
theorem belowUpTo {a b c : κ} (below : compare a b = .lt) (rest : b = c ∨ compare b c = .lt) :
    compare a c = .lt := by
  rcases rest with rfl | above
  · exact below
  · exact ltTrans below above

omit [Std.LawfulEqOrd κ] in
theorem upToTrans {a b c : κ} (first : a = b ∨ compare a b = .lt)
    (rest : b = c ∨ compare b c = .lt) : a = c ∨ compare a c = .lt := by
  rcases first with rfl | below
  · exact rest
  · exact .inr (belowUpTo below rest)

omit [Std.LawfulEqOrd κ] in
theorem upToAntisymm {a b : κ} (forth : a = b ∨ compare a b = .lt)
    (back : b = a ∨ compare b a = .lt) : a = b := by
  rcases forth with same | below
  · exact same
  · exact (back.resolve_right (notBelowItself below)).symm

/-- Where each step changes what is read at its own key only, a fold over entries in order makes of
it what the entry of that key does. -/
theorem foldAt [DecidableEq κ] {α : Type v} {σ β : Type w} {step : σ → κ × α → σ}
    (read : σ → β) (write : α → β → β) (k : κ)
    {es : List (κ × α)}
    (one : ∀ e ∈ es, ∀ s, read (step s e) = if k = e.1 then write e.2 (read s) else read s)
    (ascending : Ascending es) (s : σ) :
    read (es.foldl step s) = (get? k es).elim (read s) fun a => write a (read s) := by
  induction es generalizing s with
  | nil => rfl
  | cons e es ih =>
    obtain ⟨first, rest⟩ := List.pairwise_cons.1 ascending
    obtain ⟨own, others⟩ := List.forall_mem_cons.1 one
    rw [List.foldl_cons, ih others rest, own, get?]
    rcases compareCases k e.1 with less | same | more
    · have absent : get? k es = none :=
        getBefore fun f member => ltTrans less (first f member)
      simp [less, absent, neOfLt less]
    · subst same
      have absent : get? e.1 es = none := getBefore first
      simp [absent, Std.ReflCmp.compare_self]
    · have order := gtIffLt.2 more
      simp [order, neOfGt order]

omit [Std.TransOrd κ] [Std.LawfulEqOrd κ]

theorem getMap {α : Type v} {β : Type w} (f : α → β) (k : κ) (es : List (κ × α)) :
    get? k (es.map fun e => (e.1, f e.2)) = (get? k es).map f := by
  induction es with
  | nil => rfl
  | cons e es ih =>
    simp only [List.map_cons, get?, ih]
    split <;> rfl

theorem insertWithMap {α : Type v} {β : Type w} {f : α → β} {c : α → α → α} {c' : β → β → β}
    (agree : ∀ a b, f (c a b) = c' (f a) (f b)) (k : κ) (a : α) (es : List (κ × α)) :
    insertWith c' k (f a) (es.map fun e => (e.1, f e.2)) =
      (insertWith c k a es).map fun e => (e.1, f e.2) := by
  induction es with
  | nil => rfl
  | cons e es ih =>
    simp only [List.map_cons, insertWith, ih, ← agree]
    split <;> rfl

theorem insertMap {α : Type v} {β : Type w} (f : α → β) (k : κ) (a : α) (es : List (κ × α)) :
    insert k (f a) (es.map fun e => (e.1, f e.2)) = (insert k a es).map fun e => (e.1, f e.2) :=
  insertWithMap (fun _ _ => rfl) k a es

theorem ofListMap {α : Type v} {β : Type w} (f : α → β) (es : List (κ × α)) :
    ofList (es.map fun e => (e.1, f e.2)) = (ofList es).map fun e => (e.1, f e.2) := by
  induction es with
  | nil => rfl
  | cons e es ih =>
    rw [List.map_cons, ofList, List.foldr_cons, ← ofList, ih]
    exact insertWithMap (fun _ _ => rfl) e.1 e.2 (ofList es)

theorem lengthInsert {α : Type v} (k : κ) (a : List α) (es : List (κ × List α)) :
    ((insert k a es).flatMap Prod.snd).length + ((get? k es).getD []).length =
      (es.flatMap Prod.snd).length + a.length := by
  induction es with
  | nil => simp [get?]
  | cons e es ih =>
    obtain ⟨l, b⟩ := e
    rw [insertCons, get?]
    cases compare k l with
    | lt => simp [Nat.add_comm]
    | eq =>
      simp only [List.flatMap_cons, List.length_append, Option.getD_some]
      omega
    | gt =>
      simp only [List.flatMap_cons, List.length_append]
      omega

end Entries

namespace SortedMap
variable {κ : Type u} {α : Type v} {β : Type w} [Ord κ] [Std.TransOrd κ] [Std.LawfulEqOrd κ]

omit [Std.TransOrd κ] [Std.LawfulEqOrd κ] in
theorem containsIff {m : SortedMap κ α} {k : κ} : m.contains k = true ↔ ∃ a, m.get? k = some a :=
  Option.isSome_iff_exists

omit [Std.TransOrd κ] [Std.LawfulEqOrd κ] in
theorem notEmpty {m : SortedMap κ α} {k : κ} (listed : m.contains k = true) :
    m.isEmpty = false := by
  cases empty : m.entries with
  | nil => simp [contains, get?, empty, Entries.get?] at listed
  | cons e es => simp [isEmpty, empty]

theorem memValues {m : SortedMap κ α} {a : α} : a ∈ m.values ↔ ∃ k, m.get? k = some a := by
  simp only [values, List.mem_map, getIff, Prod.exists, exists_eq_right]

theorem memKeys {m : SortedMap κ α} {k : κ} : k ∈ m.keys ↔ m.contains k = true := by
  simp only [keys, List.mem_map, containsIff, getIff, Prod.exists, exists_and_right,
    exists_eq_right]

theorem lastNone {m : SortedMap κ α} : m.last? = none ↔ ∀ k, m.get? k = none := by
  constructor
  · intro h k
    have empty : m.entries = [] := List.getLast?_eq_none_iff.1 h
    simp [get?, empty, Entries.get?]
  · intro h
    apply List.getLast?_eq_none_iff.2
    apply List.eq_nil_iff_forall_not_mem.2
    rintro ⟨k, a⟩ member
    rw [← getIff, h k] at member
    cases member

-- The last entry splits off a list of entries below it; both lemmas on the last entry read this.
omit [Std.TransOrd κ] [Std.LawfulEqOrd κ] in
theorem lastSplits {m : SortedMap κ α} {k : κ} {a : α} (last : m.last? = some (k, a)) :
    ∃ front, m.entries = front ++ [(k, a)] ∧ ∀ e ∈ front, compare e.1 k = .lt := by
  obtain ⟨front, split⟩ := List.getLast?_eq_some_iff.1 last
  have ascending := m.ascending
  rw [split] at ascending
  obtain ⟨_, _, cross⟩ := List.pairwise_append.1 ascending
  exact ⟨front, split, fun e he => cross e he (k, a) (List.mem_singleton_self _)⟩

theorem lastGreatest {m : SortedMap κ α} {k : κ} {a : α} (last : m.last? = some (k, a)) :
    m.get? k = some a ∧ ∀ l b, m.get? l = some b → l = k ∨ compare l k = .lt := by
  obtain ⟨front, split, below⟩ := lastSplits last
  constructor
  · rw [getIff, split]
    simp
  · intro l b found
    rw [getIff, split] at found
    rcases List.mem_append.1 found with early | final
    · exact .inr (below (l, b) early)
    · exact .inl (congrArg Prod.fst (List.mem_singleton.1 final))

theorem memBeforeLast {m : SortedMap κ α} {k : κ} {a b : α} (last : m.last? = some (k, a)) :
    b ∈ m.values.dropLast ↔ ∃ l, m.get? l = some b ∧ compare l k = .lt := by
  obtain ⟨front, split, below⟩ := lastSplits last
  simp only [values, getIff, split, List.map_append, List.map_cons, List.map_nil,
    List.dropLast_concat, List.mem_map, List.mem_append, List.mem_singleton, Prod.exists,
    exists_eq_right]
  constructor
  · rintro ⟨l, member⟩
    exact ⟨l, .inl member, below (l, b) member⟩
  · rintro ⟨l, member | same, early⟩
    · exact ⟨l, member⟩
    · cases same
      exact absurd rfl (Entries.neOfLt early)

theorem emptyIff {m : SortedMap κ α} : m.isEmpty = true ↔ ∀ k, m.get? k = none := by
  rw [← lastNone, isEmpty, last?, List.getLast?_eq_none_iff, List.isEmpty_iff]

section Listing
variable [DecidableEq κ]

theorem getOfListCons (k : κ) (e : κ × α) (es : List (κ × α)) :
    (ofList (e :: es)).get? k = ((ofList es).get? k).or (if k = e.1 then some e.2 else none) :=
  Entries.getOfListCons k e es

omit [DecidableEq κ] in
theorem memOfGetOfList {es : List (κ × α)} {k : κ} {a : α} (found : (ofList es).get? k = some a) :
    (k, a) ∈ es := Entries.memOfList (getIff.1 found)

theorem containsOfList {es : List (κ × α)} {k : κ} :
    (ofList es).contains k = true ↔ k ∈ es.map Prod.fst := by
  induction es with
  | nil => exact ⟨fun h => absurd h Bool.false_ne_true, fun h => absurd h List.not_mem_nil⟩
  | cons e es ih =>
    simp only [contains] at ih ⊢
    rw [getOfListCons, Option.isSome_or, Bool.or_eq_true, ih, List.map_cons, List.mem_cons, or_comm]
    by_cases same : k = e.1 <;> simp [same]

theorem ofListSorted {es : List (κ × α)} (m : SortedMap κ α)
    (same : ∀ e, e ∈ es ↔ e ∈ m.entries) : SortedMap.ofList es = m := by
  apply extGet
  intro k
  have found : ∀ a, (ofList es).get? k = some a → m.get? k = some a := fun a listed =>
    getIff.2 ((same (k, a)).1 (memOfGetOfList listed))
  cases held : (ofList es).get? k with
  | some a => exact (found a held).symm
  | none =>
    cases listed : m.get? k with
    | none => rfl
    | some a =>
      have member := (same (k, a)).2 (getIff.1 listed)
      obtain ⟨b, known⟩ := containsIff.1 (containsOfList.2 (List.mem_map_of_mem member))
      rw [held] at known
      cases known

theorem getOfListFilterMap (f : κ → Option α) (ks : List κ) (k : κ) :
    (ofList (ks.filterMap fun l => (f l).map fun a => (l, a))).get? k =
      if k ∈ ks then f k else none := by
  induction ks with
  | nil => rfl
  | cons l ks ih =>
    cases h : f l with
    | none =>
      simp only [List.filterMap_cons, h, Option.map_none, ih, List.mem_cons]
      by_cases same : k = l
      · simp [same, h]
      · simp [same]
    | some a =>
      simp only [List.filterMap_cons, h, Option.map_some, getOfListCons, ih, List.mem_cons]
      by_cases same : k = l
      · subst same
        by_cases listed : k ∈ ks <;> simp [listed, h]
      · by_cases listed : k ∈ ks <;> simp [same, listed]

omit [DecidableEq κ] in
theorem getFilterMap (m : SortedMap κ α) (f : κ → α → Option β) (k : κ) :
    (m.filterMap f).get? k = (m.get? k).bind (f k) := by
  ext b
  rw [getIff, Option.bind_eq_some_iff]
  simp only [filterMap, List.mem_filterMap, Option.map_eq_some_iff, Prod.mk.injEq, Prod.exists,
    getIff]
  constructor
  · rintro ⟨l, a, member, c, value, rfl, rfl⟩
    exact ⟨a, member, value⟩
  · rintro ⟨a, member, value⟩
    exact ⟨k, a, member, b, value, rfl, rfl⟩

omit [DecidableEq κ] in
theorem mapGet (f : α → β) (m : SortedMap κ α) (k : κ) :
    (m.filterMap fun _ a => some (f a)).get? k = (m.get? k).map f := by
  rw [getFilterMap]
  cases m.get? k <;> rfl

theorem getFoldNew {γ δ : Type w} (item : γ → Option δ) (key : δ → κ) (value : δ → α)
    (cs : List γ) (m : SortedMap κ α) (k : κ) :
    (cs.foldl (fun m c => match item c with
      | some d => m.insertNew (key d) (value d)
      | none => m) m).get? k =
      (m.get? k).or (((cs.filterMap item).find? fun d => key d = k).map value) := by
  induction cs generalizing m with
  | nil => simp
  | cons c cs ih =>
    rw [List.foldl_cons, ih]
    cases h : item c with
    | none => simp [h]
    | some d =>
      simp only [getInsertNew, List.filterMap_cons, h, List.find?_cons, Option.or_assoc]
      by_cases same : k = key d
      · simp [same]
      · simp [same, Ne.symm same]

end Listing
end SortedMap

namespace SortedSet
variable {κ : Type u} [Ord κ] [Std.TransOrd κ] [Std.LawfulEqOrd κ] [DecidableEq κ]

theorem containsOfList {ks : List κ} {k : κ} : (ofList ks).contains k = true ↔ k ∈ ks := by
  rw [ofList, SortedMap.containsOfList]
  simp

theorem containsAdd {s : SortedSet κ} {k l : κ} :
    (s.add k).contains l = true ↔ l = k ∨ s.contains l = true := by
  simp only [add, SortedMap.contains, SortedMap.getInsert]
  by_cases same : l = k <;> simp [same]

omit [DecidableEq κ] in
theorem containsUnion {s t : SortedSet κ} {k : κ} :
    SortedMap.contains (SortedMap.union s t) k = true ↔
      s.contains k = true ∨ t.contains k = true := by
  simp only [SortedMap.contains, SortedMap.getUnion]
  cases s.get? k <;> simp

end SortedSet
end DocHistory
