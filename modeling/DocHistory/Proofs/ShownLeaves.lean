import DocHistory.Proofs.AssembledShape
import DocHistory.Proofs.LeafCover

/-! Which document properties assemble to, whatever gets in the way of what. Something is shown if no
later path gets in its way; everything that is shown stands in the document, and whatever else stands
there is null and fills an array. So a document is assembled exactly if all that is shown are leaves
of it and all its leaves are shown, but for nulls before the end of an array. -/
namespace DocHistory

namespace Json

/-- A leaf placed the value there, and the later ones all went other ways. -/
inductive Shown : List (List Segment × Json) → List Segment → Json → Prop where
  | placed (early : List (List Segment × Json)) {q r : List Segment} {v a : Json}
      (there : v.valueAt? r = some a) : Shown (early ++ [(q, v)]) (q ++ r) a
  | kept {early : List (List Segment × Json)} {p : List Segment} {a : Json}
      (shown : Shown early p a) {late : List Segment × Json} (forks : Forks late.1 p) :
      Shown (early ++ [late]) p a

theorem buildLast (d : Json) (early : List (List Segment × Json)) (late : List Segment × Json) :
    d.build (early ++ [late]) = place late.2 late.1 (d.build early) := buildAppend d early [late]

theorem Shown.stands {leaves : List (List Segment × Json)} {p : List Segment} {a : Json}
    (shown : Shown leaves p a) (d : Json) : (d.build leaves).valueAt? p = some a := by
  induction shown with
  | placed early there => rw [buildLast, valueAppend, placeSelf, Option.bind_some, there]
  | @kept early p a _ late forks ih =>
    rw [buildLast]
    rcases valueBeside late.2 forks (d.build early) with same | ⟨absent, _⟩
    · exact same.trans ih
    · rw [ih] at absent
      cases absent

theorem placeThrough (a d : Json) (p : List Segment) (s : Segment) (q : List Segment) :
    ∃ b, (place a (p ++ s :: q) d).valueAt? p = some b ∧ ¬ b.Bare := by
  induction p generalizing d with
  | nil =>
    refine ⟨_, rfl, fun bare => ?_⟩
    have found := bare.childless s
    rw [List.nil_append, place, childSet] at found
    cases found
  | cons step p ih =>
    rw [List.cons_append, place, valueAt?, childSet]
    exact ih _

theorem placeClash (a d : Json) {s t : Segment} (clash : s.isIndex ≠ t.isIndex)
    (r p q : List Segment) : (place a (r ++ s :: p) d).valueAt? (r ++ t :: q) = none := by
  induction r generalizing d with
  | nil =>
    have absent : (d.setChild (place a p (d.child s)) s).child? t = none := by
      cases s <;> cases t <;> first | rfl | exact absurd rfl clash
    rw [List.nil_append, List.nil_append, place, valueAt?, absent]
    rfl
  | cons step r ih =>
    rw [List.cons_append, List.cons_append, place, valueAt?, childSet]
    exact ih _

theorem placedOrForks {v d a : Json} {q p : List Segment} (plain : q.map Segment.target = q)
    (own : p.map Segment.target = p) (there : (place v q d).valueAt? p = some a) (bare : a.Bare) :
    (∃ r, p = q ++ r ∧ v.valueAt? r = some a) ∨ Forks q p := by
  by_cases before : q <+: p
  · obtain ⟨r, rfl⟩ := before
    rw [valueAppend, placeSelf] at there
    exact .inl ⟨r, rfl, there⟩
  · have through : ¬ p <+: q := by
      rintro ⟨_ | ⟨s, r⟩, rfl⟩
      · exact before ⟨[], by simp⟩
      · obtain ⟨b, reached, filled⟩ := placeThrough v d p s r
        cases reached.symm.trans there
        exact filled bare
    refine .inr (plain ▸ own ▸ Forks.ofParting (by rwa [plain, own]) (by rwa [plain, own]) ?_)
    intro r s t ps qs first second _
    rw [plain] at first
    rw [own] at second
    subst first second
    refine Classical.byContradiction fun clash => ?_
    rw [placeClash v d clash] at there
    cases there

theorem childKept {d : Json} {s t : Segment} (a : Json) (apart : s.target ≠ t.target)
    (kind : s.isIndex = t.isIndex) (there : (d.child? t).isSome = true) :
    (d.setChild a s).child? t = d.child? t := by
  rcases childBeside a apart kind d with same | ⟨absent, _⟩
  · exact same
  · rw [absent] at there
    cases there

theorem Followed.kept {d : Json} {p q : List Segment} (followed : d.Followed p) (forks : Forks q p)
    (a : Json) : (place a q d).Followed p := by
  induction followed generalizing q with
  | @here d i j less later =>
    cases forks with
    | inside _ rest => cases rest
    | @here s _ apart kind q _ =>
      refine .here less ?_
      rw [place]
      by_cases same : s = .index j
      · subst same
        rw [childSet]
        rfl
      · have other : s.target ≠ Segment.target (.index j) := by
          cases s with
          | index k => exact same
          | _ name => cases kind
        rw [childKept _ other kind later]
        exact later
  | @inside d b step p found _ ih =>
    rw [place.eq_def]
    cases forks with
    | here apart kind =>
      refine .inside ?_ ‹_›
      rw [childKept _ apart kind (Option.isSome_of_eq_some found), found]
    | inside _ rest =>
      refine .inside (childSet _ _ _) ?_
      rw [child, found]
      exact ih rest

theorem standsShown {leaves : List (List Segment × Json)}
    (plain : ∀ e ∈ leaves, e.1.map Segment.target = e.1) {p : List Segment} {a : Json}
    (own : p.map Segment.target = p) (root : p = [] → a ≠ null) (bare : a.Bare)
    (there : (null.build leaves).valueAt? p = some a) :
    Shown leaves p a ∨ a = null ∧ (null.build leaves).Followed p := by
  induction leaves using List.reverseRecOn with
  | nil =>
    cases p with
    | nil =>
      cases there
      exact absurd rfl (root rfl)
    | cons step p =>
      rw [build, List.foldl_nil, nullValue (List.cons_ne_nil _ _)] at there
      cases there
  | append_singleton early e ih =>
    obtain ⟨others, last⟩ := List.forall_mem_append.1 plain
    have plainE := last e (List.mem_singleton_self e)
    rw [buildLast] at there ⊢
    rcases placedOrForks plainE own there bare with ⟨r, rfl, inside⟩ | forks
    · exact .inl (.placed early inside)
    · rcases valueBeside e.2 forks (null.build early) with same | ⟨_, filled, followed⟩
      · exact (ih others (same ▸ there)).imp (.kept · forks) fun hollow =>
          ⟨hollow.1, hollow.2.kept forks e.2⟩
      · cases filled.symm.trans there
        exact .inr ⟨rfl, followed⟩

theorem Followed.alike {d e : Json} {p : List Segment} (followed : d.Followed p)
    (same : (d == e) = true) : e.Followed p := by
  have child : ∀ {d e a : Json} {step : Segment}, (d == e) = true → d.child? step = some a →
      ∃ b, e.child? step = some b ∧ (b == a) = true := by
    intro d e a step same found
    have there : d.valueAt? [step] = some a := by
      rw [valueAt?, found]
      rfl
    obtain ⟨b, stands, alike⟩ := valueAlikeAt same there
    obtain ⟨c, found', last⟩ := Option.bind_eq_some_iff.1 stands
    cases last
    exact ⟨b, found', alike⟩
  induction followed generalizing e with
  | here less later =>
    obtain ⟨a, found⟩ := Option.isSome_iff_exists.1 later
    obtain ⟨b, there, _⟩ := child same found
    exact .here less (Option.isSome_of_eq_some there)
  | inside found _ ih =>
    obtain ⟨b, there, below⟩ := child same found
    exact .inside there (ih (PartialEquivBEq.symm below))

theorem followedTarget {d : Json} {p : List Segment} :
    d.Followed (p.map Segment.target) → d.Followed p := by
  induction p generalizing d with
  | nil => nofun
  | cons step p ih =>
    rw [List.map_cons]
    generalize same : step.target = t, rest : p.map Segment.target = q
    rintro (⟨less, later⟩ | ⟨found, below⟩)
    · obtain rfl := List.map_eq_nil_iff.1 rest
      cases step with
      | index i =>
        cases same
        exact .here less later
      | _ name => cases same
    · subst same rest
      exact .inside (childTarget d step ▸ found) (ih below)

theorem nullLeaf {p : List Segment} {a : Json} (there : null.valueAt? p = some a) :
    p = [] ∧ a = null := by
  cases p with
  | nil => exact ⟨rfl, (Option.some.inj there).symm⟩
  | cons step p =>
    rw [nullValue (List.cons_ne_nil _ _)] at there
    cases there

theorem likeNull {a : Json} (same : (a == null) = true) : a = null := by
  cases a <;> first | rfl | cases same

end Json

namespace Properties

/-- The properties show the leaves of the document and nothing else. They need not show its nulls
before the end of an array, nor a document that is null. -/
structure Presents (m : Properties) (d : Json) : Prop where
  leaves : ∀ p a, d.valueAt? p = some a → a.Bare →
    (∃ b, Json.Shown m.trails (p.map Segment.target) b ∧ (b == a) = true) ∨
      a = .null ∧ (p = [] ∨ d.Followed p)
  only : ∀ p a, Json.Shown m.trails p a → a.Bare → ∃ b, d.valueAt? p = some b ∧ (b == a) = true

theorem trailsPlain (m : Properties) : ∀ e ∈ m.trails, e.1.map Segment.target = e.1 := by
  intro e listed
  obtain ⟨x, _, rfl⟩ := List.mem_map.1 listed
  rw [Path.trail, List.map_map]
  exact List.map_congr_left fun s _ => s.targetTwice

theorem shownOf {m : Properties} {p : List Segment} {a : Json} (root : p = [] → a ≠ .null)
    (bare : a.Bare) (there : m.built.json.valueAt? p = some a) :
    Json.Shown m.trails (p.map Segment.target) a ∨ a = .null ∧ m.built.json.Followed p := by
  rw [← Json.valueTarget, builtTrails] at there
  have plain : (p.map Segment.target).map Segment.target = p.map Segment.target := by
    rw [List.map_map]
    exact List.map_congr_left fun s _ => s.targetTwice
  refine (Json.standsShown m.trailsPlain plain (fun empty => root (List.map_eq_nil_iff.1 empty))
    bare there).imp id fun ⟨null, followed⟩ => ⟨null, Json.followedTarget ?_⟩
  rwa [builtTrails]

theorem shownStands {m : Properties} {p : List Segment} {a : Json}
    (shown : Json.Shown m.trails p a) : m.built.json.valueAt? p = some a := by
  rw [builtTrails]
  exact shown.stands .null

namespace Presents
variable {m : Properties} {d : Json}

theorem ofBuilt (same : (m.built.json == d) = true) : m.Presents d := by
  constructor
  · intro p a there bare
    obtain ⟨b, found, alike⟩ := Json.valueAlikeAt (PartialEquivBEq.symm same) there
    by_cases root : p = [] ∧ b = .null
    · obtain ⟨rfl, rfl⟩ := root
      exact .inr ⟨Json.likeNull (PartialEquivBEq.symm alike), .inl rfl⟩
    · refine (shownOf (fun empty null => root ⟨empty, null⟩) (bare.alike alike) found).imp
        (fun shown => ⟨b, shown, alike⟩) fun ⟨null, followed⟩ => ?_
      subst null
      exact ⟨Json.likeNull (PartialEquivBEq.symm alike), .inr (followed.alike same)⟩
  · exact fun p a shown _ => Json.valueAlikeAt same (shownStands shown)

variable (presents : m.Presents d)
include presents

theorem builtNull (null : m.built.json = .null) : d = .null := by
  obtain ⟨p, a, there, bare, last⟩ := d.endLeaf
  rcases presents.leaves p a there bare with ⟨b, shown, alike⟩ | ⟨rfl, rfl | followed⟩
  · have stands := shownStands shown
    rw [null, Json.valueTarget] at stands
    obtain ⟨rfl, rfl⟩ := Json.nullLeaf stands
    exact (Option.some.inj there).trans (Json.likeNull (PartialEquivBEq.symm alike))
  · exact Option.some.inj there
  · exact absurd followed last

theorem nullBuilt (null : d = .null) : m.built.json = .null := by
  obtain ⟨p, a, there, bare, last⟩ := m.built.json.endLeaf
  by_cases root : p = [] ∧ a = .null
  · obtain ⟨rfl, rfl⟩ := root
    exact Option.some.inj there
  · rcases shownOf (fun empty null => root ⟨empty, null⟩) bare there with shown | ⟨_, followed⟩
    · obtain ⟨b, stands, alike⟩ := presents.only _ a shown bare
      rw [null, Json.valueTarget] at stands
      obtain ⟨rfl, rfl⟩ := Json.nullLeaf stands
      exact absurd ⟨rfl, Json.likeNull (PartialEquivBEq.symm alike)⟩ root
    · exact absurd followed last

theorem coversBuilt : d.Covers m.built.json := by
  intro p a there bare
  by_cases root : p = [] ∧ a = .null
  · obtain ⟨rfl, rfl⟩ := root
    rw [presents.builtNull (Option.some.inj there)]
    exact .inl ⟨.null, rfl, BEq.rfl⟩
  · refine (shownOf (fun empty null => root ⟨empty, null⟩) bare there).imp (fun shown => ?_) id
    obtain ⟨b, stands, alike⟩ := presents.only _ a shown bare
    exact ⟨b, Json.valueTarget d p ▸ stands, alike⟩

theorem builtCovers : m.built.json.Covers d := by
  intro p a there bare
  rcases presents.leaves p a there bare with ⟨b, shown, alike⟩ | ⟨rfl, rfl | followed⟩
  · exact .inl ⟨b, Json.valueTarget _ p ▸ shownStands shown, alike⟩
  · rw [presents.nullBuilt (Option.some.inj there)]
    exact .inl ⟨.null, rfl, BEq.rfl⟩
  · exact .inr ⟨rfl, followed⟩

end Presents

theorem builtAlike {m : Properties} {d : Value} (short : d.json.Short) :
    (m.built == d) = true ↔ m.Presents d.json :=
  ⟨.ofBuilt, fun presents => Json.Covers.alike presents.coversBuilt presents.builtCovers short⟩

end Properties
end DocHistory
