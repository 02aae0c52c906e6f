import Mathlib.Data.List.Induction
import DocHistory.Proofs.PathForks

/-! The document of properties that fit together: none is on the way to another, and where two part,
they part within one array or within one object. Anywhere in the document stands what the properties
from there on make of null, which is an array up to the last position they have or an object with
the names they have. -/
namespace DocHistory

namespace Entries
variable {κ α : Type} [Ord κ] [Std.TransOrd κ] [Std.LawfulEqOrd κ]

theorem memKeysInsert {k l : κ} {a : α} {es : List (κ × α)} (ascending : Ascending es) :
    l ∈ (insert k a es).map Prod.fst ↔ l ∈ es.map Prod.fst ∨ l = k := by
  simp only [List.mem_map, Prod.exists, insert, memInsertWith ascending]
  by_cases same : l = k <;> simp [same]

end Entries

theorem Path.oversizedNone {path : Path} : path.oversized? = none ↔
    ∀ i, Segment.index i ∈ path.segments → i.toNat < maxItems := by
  rw [Path.oversized?, List.findSome?_eq_none_iff]
  constructor
  · intro sized i listed
    simpa using sized _ listed
  · intro sized step listed
    cases step with
    | index i => simpa using sized i listed
    | _ name => rfl

namespace Json

def Takes (leaves : List (List Segment × Json)) (step : Segment) : Prop :=
  ∃ p a, (step :: p, a) ∈ leaves

theorem takesNone {step : Segment} : ¬ Takes [] step := by simp [Takes]

theorem takesLast {leaves : List (List Segment × Json)} {step : Segment} (p : List Segment)
    (a : Json) (t : Segment) :
    Takes (leaves ++ [(step :: p, a)]) t ↔ Takes leaves t ∨ t = step := by
  simp [Takes, exists_or]

structure Spans (taken : UInt64 → Prop) (items : List Json) : Prop where
  below : ∀ i, taken i → i.toNat < items.length
  last : items = [] ∨ ∃ i, taken i ∧ items.length = i.toNat + 1
  hollow : ∀ k, k < items.length → ¬ taken k.toUInt64 → items[k]? = some null

theorem Spans.grow {taken : UInt64 → Prop} {items : List Json} (spans : Spans taken items)
    (i : UInt64) (a : Json) : Spans (fun j => taken j ∨ j = i)
      ((items ++ List.replicate (i.toNat + 1 - items.length) null).set i.toNat a) := by
  have length : ((items ++ List.replicate (i.toNat + 1 - items.length) null).set i.toNat a).length =
      items.length + (i.toNat + 1 - items.length) := by simp
  constructor
  · rintro j (before | rfl)
    · have room := spans.below j before
      omega
    · omega
  · rw [length]
    by_cases room : i.toNat < items.length
    · obtain absent | ⟨j, before, last⟩ := spans.last
      · rw [absent] at room
        cases room
      · exact .inr ⟨j, .inl before, by omega⟩
    · exact .inr ⟨i, .inr rfl, by omega⟩
  · intro k inside free
    have other : i.toNat ≠ k := by
      rintro rfl
      exact free (.inr UInt64.ofNat_toNat)
    rw [grownBeside a other]
    by_cases old : k < items.length
    · rw [spans.hollow k old fun taken => free (.inl taken), Option.some_or]
    · rw [List.getElem?_eq_none (Nat.le_of_not_lt old), Option.none_or, if_pos (by omega)]

theorem builtItems {leaves : List (List Segment × Json)}
    (indexes : ∀ e ∈ leaves, ∃ i p, e.1 = .index i :: p) :
    Spans (fun i => Takes leaves (.index i)) (null.build leaves).itemsOrNone ∧
      (leaves ≠ [] → ∃ items, null.build leaves = array items) := by
  induction leaves using List.reverseRecOn with
  | nil => exact ⟨⟨fun i taken => absurd taken takesNone, .inl rfl,
      fun k inside => absurd inside (Nat.not_lt_zero k)⟩, fun filled => absurd rfl filled⟩
  | append_singleton leaves e ih =>
    obtain ⟨early, last⟩ := List.forall_mem_append.1 indexes
    obtain ⟨i, p, first⟩ := last e (List.mem_singleton_self e)
    obtain ⟨steps, a⟩ := e
    obtain rfl : steps = .index i :: p := first
    have taken : (fun j => Takes (leaves ++ [(.index i :: p, a)]) (.index j)) =
        fun j => Takes leaves (.index j) ∨ j = i := by
      funext j
      rw [takesLast, Segment.index.injEq]
    rw [taken, buildAppend]
    exact ⟨(ih early).1.grow i _, fun _ => ⟨_, rfl⟩⟩

theorem builtMembers {leaves : List (List Segment × Json)}
    (names : ∀ e ∈ leaves, ∃ n p, e.1 = .key n :: p) :
    (Entries.Ascending (null.build leaves).membersOrNone ∧
      ∀ n, n ∈ (null.build leaves).membersOrNone.map Prod.fst ↔ Takes leaves (.key n)) ∧
      (leaves ≠ [] → ∃ members, null.build leaves = object members) := by
  induction leaves using List.reverseRecOn with
  | nil => exact ⟨⟨List.Pairwise.nil, fun n => iff_of_false List.not_mem_nil takesNone⟩,
      fun filled => absurd rfl filled⟩
  | append_singleton leaves e ih =>
    obtain ⟨early, last⟩ := List.forall_mem_append.1 names
    obtain ⟨name, p, first⟩ := last e (List.mem_singleton_self e)
    obtain ⟨steps, a⟩ := e
    obtain rfl : steps = .key name :: p := first
    obtain ⟨⟨ascending, listed⟩, _⟩ := ih early
    rw [buildAppend]
    refine ⟨⟨ascending.insertWith, fun n => ?_⟩, fun _ => ⟨_, rfl⟩⟩
    rw [takesLast, Segment.key.injEq, ← listed]
    exact Entries.memKeysInsert ascending

def Parted (leaves : List (List Segment × Json)) : Prop :=
  ∀ e ∈ leaves, ∀ f ∈ leaves, e = f ∨ Forks e.1 f.1

namespace Parted
variable {leaves : List (List Segment × Json)} (parted : Parted leaves)
include parted

theorem value {p : List Segment} {a : Json} (listed : (p, a) ∈ leaves) (d : Json) :
    (d.build leaves).valueAt? p = some a := by
  obtain ⟨early, late, rfl⟩ := List.append_of_mem listed
  rw [buildAppend]
  refine List.foldlRecOn (motive := fun d : Json => d.valueAt? p = some a) late _ (placeSelf a p _) ?_
  intro d there e later
  rcases parted e (by simp [later]) _ listed with rfl | forks
  · exact placeSelf a p d
  · rcases valueBeside e.2 forks d with same | ⟨absent, _⟩
    · exact same.trans there
    · rw [there] at absent
      cases absent

theorem beside {r p : List Segment} {a : Json} (through : (r ++ p, a) ∈ leaves) :
    ∀ e ∈ leaves, ¬ r <+: e.1 → Forks e.1 r := by
  intro e listed off
  rcases parted e listed _ through with rfl | forks
  · exact absurd (List.prefix_append r p) off
  · exact (forks.cut (List.prefix_append r p)).resolve_left off

theorem stands {r p : List Segment} {a b : Json} (through : (r ++ p, a) ∈ leaves)
    (built : null.build (within r leaves) = b) (solid : b ≠ null) :
    (null.build leaves).valueAt? r = some b := by
  have found := seekBuild (parted.beside through) null
  rw [seekNull, built, seek] at found
  cases value : (null.build leaves).valueAt? r with
  | none =>
    rw [value] at found
    exact absurd found.symm solid
  | some c =>
    rw [value] at found
    exact congrArg some found

theorem kind {r p : List Segment} {s : Segment} {a : Json} (through : (r ++ s :: p, a) ∈ leaves) :
    ∀ e ∈ within r leaves, ∃ t rest, e.1 = t :: rest ∧ t.isIndex = s.isIndex := by
  rintro ⟨q, b⟩ inside
  rcases parted _ (memWithin.1 inside) _ through with same | forks
  · exact ⟨s, p, List.append_cancel_left (congrArg Prod.fst same), rfl⟩
  · exact forks.beyond.kind

theorem array {r p : List Segment} {i : UInt64} {a : Json}
    (through : (r ++ .index i :: p, a) ∈ leaves) :
    ∃ items, (null.build leaves).valueAt? r = some (.array items) ∧
      Spans (fun j => Takes (within r leaves) (.index j)) items := by
  have indexes : ∀ e ∈ within r leaves, ∃ j q, e.1 = .index j :: q := by
    intro e inside
    obtain ⟨t, q, first, kind⟩ := parted.kind through e inside
    cases t with
    | index j => exact ⟨j, q, first⟩
    | _ name => cases kind
  obtain ⟨spans, filled⟩ := builtItems indexes
  obtain ⟨items, built⟩ := filled (List.ne_nil_of_mem (memWithin.2 through))
  rw [built] at spans
  exact ⟨items, parted.stands through built Json.noConfusion, spans⟩

theorem object (plain : ∀ e ∈ leaves, ∀ s ∈ e.1, s.target = s) {r p : List Segment}
    {name : String} {a : Json} (through : (r ++ .key name :: p, a) ∈ leaves) :
    ∃ members, (null.build leaves).valueAt? r = some (.object members) ∧
      Entries.Ascending members ∧
      ∀ n, n ∈ members.map Prod.fst ↔ Takes (within r leaves) (.key n) := by
  have names : ∀ e ∈ within r leaves, ∃ n q, e.1 = .key n :: q := by
    intro e inside
    obtain ⟨t, q, first, kind⟩ := parted.kind through e inside
    have same : t.target = t := by
      refine plain _ (memWithin.1 inside) t ?_
      simp [first]
    cases t with
    | index j => cases kind
    | property n => cases same
    | key n => exact ⟨n, q, first⟩
  obtain ⟨⟨ascending, listed⟩, filled⟩ := builtMembers names
  obtain ⟨members, built⟩ := filled (List.ne_nil_of_mem (memWithin.2 through))
  rw [built] at ascending listed
  exact ⟨members, parted.stands through built Json.noConfusion, ascending, listed⟩

end Parted
end Json

namespace Properties

/-- No property is on the way to another, properties and keys of one name taken for one step, and
where the ways to two of them part, both go on by positions or both by names. -/
structure Compatible (m : Properties) : Prop where
  apart : ∀ p q, m.contains p = true → m.contains q = true → p.trail <+: q.trail → p = q
  alike : ∀ p q, m.contains p = true → m.contains q = true → ∀ r s t ps qs,
    p.trail = r ++ s :: ps → q.trail = r ++ t :: qs → s ≠ t → s.isIndex = t.isIndex

def Oversized (m : Properties) : Prop := ∃ path i, m.contains path = true ∧
  Segment.index i ∈ path.segments ∧ maxItems ≤ i.toNat

def Enters (m : Properties) (steps : List Segment) : Prop :=
  ∃ path, m.contains path = true ∧ steps.map Segment.target <+: path.trail

structure Assembles (m : Properties) (d : Value) : Prop where
  values : ∀ path a, m.get? path = some a → d.json.valueAt? path.segments = some a.json
  arrays : ∀ steps i, m.Enters (steps ++ [.index i]) →
    ∃ items, d.json.valueAt? steps = some (.array items) ∧
      (∃ last, m.Enters (steps ++ [.index last]) ∧ items.length = last.toNat + 1) ∧
      (∀ j, m.Enters (steps ++ [.index j]) → j.toNat < items.length) ∧
      ∀ k, k < items.length → ¬ m.Enters (steps ++ [.index k.toUInt64]) → items[k]? = some .null
  objects : ∀ steps name, m.Enters (steps ++ [.key name]) →
    ∃ members, d.json.valueAt? steps = some (.object members) ∧ Entries.Ascending members ∧
      ∀ n, n ∈ members.map Prod.fst ↔ m.Enters (steps ++ [.key n])

def trails (m : Properties) : List (List Segment × Json) :=
  m.entries.map fun e => (e.1.trail, e.2.json)

theorem memTrails {m : Properties} {steps : List Segment} {a : Json} :
    (steps, a) ∈ m.trails ↔ ∃ path v, m.get? path = some v ∧ path.trail = steps ∧ v.json = a := by
  simp only [trails, List.mem_map, Prod.exists, Prod.mk.injEq, SortedMap.getIff]

theorem builtTrails (m : Properties) : m.built.json = Json.null.build m.trails := by
  rw [builtJson, Json.build, Json.build, trails, List.foldl_map, List.foldl_map]
  simp only [Path.trail, Json.placeTarget]

theorem compatibleIff {m : Properties} : m.Compatible ↔
    ∀ e ∈ m.entries, ∀ f ∈ m.entries, e = f ∨ Json.Forks e.1.trail f.1.trail := by
  constructor
  · intro fit e listed f other
    have first := SortedMap.containsIff.2 ⟨_, SortedMap.getIff.2 listed⟩
    have second := SortedMap.containsIff.2 ⟨_, SortedMap.getIff.2 other⟩
    by_cases same : e.1 = f.1
    · obtain ⟨path, a⟩ := e
      obtain rfl : path = f.1 := same
      have value := SortedMap.getIff.2 listed
      rw [SortedMap.getIff.2 other, Option.some.injEq] at value
      exact .inl (Prod.ext rfl value.symm)
    · exact .inr (.ofParting (fun before => same (fit.apart _ _ first second before))
        (fun before => same (fit.apart _ _ second first before).symm)
        (fit.alike _ _ first second))
  · intro parted
    have paths : ∀ p q, m.contains p = true → m.contains q = true →
        p = q ∨ Json.Forks p.trail q.trail := by
      intro p q first second
      obtain ⟨a, listed⟩ := SortedMap.containsIff.1 first
      obtain ⟨b, other⟩ := SortedMap.containsIff.1 second
      exact (parted _ (SortedMap.getIff.1 listed) _
        (SortedMap.getIff.1 other)).imp (congrArg Prod.fst) id
    constructor
    · intro p q first second before
      exact (paths p q first second).resolve_right fun forks => forks.apart before
    · intro p q first second r s t ps qs left right other
      rcases paths p q first second with rfl | forks
      · have same := List.append_cancel_left (left.symm.trans right)
        exact absurd (List.cons.inj same).1 other
      · rw [left, right] at forks
        obtain ⟨_, _, same, kind⟩ := forks.beyond.kind
        exact (List.cons.inj same).1 ▸ kind

theorem Compatible.parted {m : Properties} (fit : m.Compatible) : Json.Parted m.trails := by
  intro e first f second
  obtain ⟨e, listed, rfl⟩ := List.mem_map.1 first
  obtain ⟨f, other, rfl⟩ := List.mem_map.1 second
  rcases compatibleIff.1 fit e listed f other with rfl | forks
  · exact .inl rfl
  · exact .inr forks

theorem entersIff {m : Properties} {steps : List Segment} {step : Segment} :
    m.Enters (steps ++ [step]) ↔
      Json.Takes (Json.within (steps.map Segment.target) m.trails) step.target := by
  simp only [Json.Takes, Json.memWithin, memTrails, Enters, List.map_append, List.map_cons,
    List.map_nil]
  constructor
  · rintro ⟨path, listed, rest, whole⟩
    obtain ⟨v, value⟩ := SortedMap.containsIff.1 listed
    exact ⟨rest, v.json, path, v, value, by rw [← whole, List.append_assoc]; rfl, rfl⟩
  · rintro ⟨rest, _, path, v, value, whole, _⟩
    exact ⟨path, SortedMap.containsIff.2 ⟨v, value⟩, rest, by rw [whole, List.append_assoc]; rfl⟩

theorem oversizedIff {m : Properties} : (∃ e, m.assemble = .error e) ↔ m.Oversized := by
  constructor
  · rintro ⟨e, failed⟩
    refine Classical.byContradiction fun fits => ?_
    have sized : ∀ e ∈ m.entries, e.1.oversized? = none := by
      intro e listed
      have contained := SortedMap.containsIff.2 ⟨e.2, SortedMap.getIff.2 listed⟩
      refine Path.oversizedNone.2 fun i inside => Nat.lt_of_not_le fun long => ?_
      exact fits ⟨e.1, i, contained, inside, long⟩
    rw [assembleOk.2 ⟨sized, rfl⟩] at failed
    cases failed
  · rintro ⟨path, i, listed, inside, long⟩
    cases read : m.assemble with
    | error e => exact ⟨e, rfl⟩
    | ok d =>
      obtain ⟨a, value⟩ := SortedMap.containsIff.1 listed
      have sized := (assembleOk.1 read).1 _ (SortedMap.getIff.1 value)
      exact absurd (Path.oversizedNone.1 sized i inside) (Nat.not_lt.2 long)

theorem Compatible.assembles {m : Properties} (fit : m.Compatible) {d : Value}
    (read : m.assemble = .ok d) : m.Assembles d := by
  obtain ⟨_, rfl⟩ := assembleOk.1 read
  constructor <;> rw [builtTrails]
  · intro path a value
    rw [← Json.valueTarget]
    exact fit.parted.value (memTrails.2 ⟨path, a, value, rfl, rfl⟩) .null
  · intro steps i entered
    obtain ⟨p, a, inside⟩ := entersIff.1 entered
    obtain ⟨items, found, spans⟩ := fit.parted.array (Json.memWithin.1 inside)
    rw [Json.valueTarget] at found
    simp only [entersIff]
    refine ⟨items, found, spans.last.resolve_left fun absent => ?_, spans.below, spans.hollow⟩
    have room := spans.below i ⟨p, a, inside⟩
    rw [absent] at room
    cases room
  · intro steps name entered
    have plain : ∀ e ∈ m.trails, ∀ s ∈ e.1, s.target = s := by
      intro e listed s inside
      obtain ⟨_, _, rfl⟩ := List.mem_map.1 listed
      obtain ⟨t, _, rfl⟩ := List.mem_map.1 inside
      exact t.targetTwice
    obtain ⟨p, a, inside⟩ := entersIff.1 entered
    obtain ⟨members, found, ascending, listed⟩ := fit.parted.object plain (Json.memWithin.1 inside)
    rw [Json.valueTarget] at found
    simp only [entersIff]
    exact ⟨members, found, ascending, listed⟩

theorem assembledShape (m : Properties) : ((∃ e, m.assemble = .error e) ↔ m.Oversized) ∧
    (¬ m.Oversized → m.Compatible → ∃ d, m.assemble = .ok d ∧ m.Assembles d) := by
  refine ⟨oversizedIff, fun fits fit => ?_⟩
  cases read : m.assemble with
  | error e => exact absurd (oversizedIff.1 ⟨e, read⟩) fits
  | ok d => exact ⟨d, rfl, fit.assembles read⟩

def scattered : Properties := SortedMap.ofList
  [(⟨[.property "list", .index 2]⟩, .object [("z", .null)]), (⟨[.property "note"]⟩, .null),
    (⟨[.key "list", .index 0, .property "x"]⟩, .bool true)]

def gathered : Value := .object
  [("list", .array [.object [("x", .bool true)], .null, .object [("z", .null)]]), ("note", .null)]

theorem scatteredFits : scattered.Compatible := by
  have listed : scattered.entries = [(⟨[.property "list", .index 2]⟩, .object [("z", .null)]),
      (⟨[.property "note"]⟩, .null), (⟨[.key "list", .index 0, .property "x"]⟩, .bool true)] := by
    rfl
  have names : Segment.target (.key "list") ≠ Segment.target (.key "note") := by decide
  have positions : Segment.target (.index 2) ≠ Segment.target (.index 0) := by decide
  have first : Json.Forks [.key "list", .index 2] [.key "note"] := .here names rfl _ _
  have second : Json.Forks [.key "note"] [.key "list", .index 0, .key "x"] :=
    .here names.symm rfl _ _
  have third : Json.Forks [.key "list", .index 2] [.key "list", .index 0, .key "x"] :=
    .inside _ (.here positions rfl _ _)
  rw [compatibleIff, listed]
  simp only [List.forall_mem_cons, List.not_mem_nil, false_implies, implies_true, true_or, true_and,
    and_true]
  exact ⟨⟨.inr first, .inr third⟩, ⟨.inr first.symm, .inr second⟩, .inr third.symm,
    .inr second.symm⟩

theorem scatteredGathered : scattered.assemble = .ok gathered ∧ scattered.Assembles gathered := by
  have read : scattered.assemble = .ok gathered := by rfl
  obtain ⟨refused, shaped⟩ := assembledShape scattered
  have fits : ¬ scattered.Oversized := by
    intro long
    obtain ⟨e, failed⟩ := refused.2 long
    rw [read] at failed
    cases failed
  obtain ⟨d, same, shape⟩ := shaped fits scatteredFits
  rw [read] at same
  cases same
  exact ⟨read, shape⟩

end Properties
end DocHistory
