import DocHistory.Proofs.LeafPaths

/-! Paths that fork part at positions of one array or at members of one object. What is placed at one
of them leaves alone what stands at the other, but for nulls that fill an array. So what stands at
some steps is what the leaves from there on have built. -/
namespace DocHistory

namespace Entries
variable {κ α : Type} [Ord κ] [Std.TransOrd κ] [Std.LawfulEqOrd κ]

theorem getBeside {k l : κ} (apart : l ≠ k) (a : α) (es : List (κ × α)) :
    get? l (insert k a es) = get? l es := by
  have other : compare l k ≠ .eq := fun same => apart (eqOfCompare same)
  induction es with
  | nil =>
    simp only [insertNil, get?]
    split <;> first | rfl | exact absurd ‹_› other
  | cons e es ih =>
    simp only [insertCons]
    split
    · rename_i first
      rw [get?]
      split
      · rename_i less
        rw [get?, ltTrans less first]
      · exact absurd ‹_› other
      · rfl
    · rename_i same
      rw [get?, get?, eqOfCompare same]
      split <;> first | rfl | exact absurd (eqOfCompare same ▸ ‹_›) other
    · rw [get?, get?, ih]

end Entries

namespace Segment

/-- Properties and keys of one name lead to the same member. -/
def target : Segment → Segment
  | property name => key name
  | step => step

def isIndex : Segment → Bool
  | index _ => true
  | _ => false

@[simp] theorem targetTwice (step : Segment) : step.target.target = step.target := by
  cases step <;> rfl

end Segment

def Path.trail (path : Path) : List Segment := path.segments.map Segment.target

namespace Json

theorem childTarget (d : Json) (step : Segment) : d.child? step.target = d.child? step := by
  cases step <;> rfl

theorem placeTarget (a : Json) (steps : List Segment) (d : Json) :
    place a (steps.map Segment.target) d = place a steps d := by
  induction steps generalizing d with
  | nil => rfl
  | cons step steps ih =>
    have set : ∀ b, d.setChild b step.target = d.setChild b step := by
      intro b
      cases step <;> rfl
    rw [List.map_cons, place, place, ih, set, child, child, childTarget]

theorem valueTarget (d : Json) (steps : List Segment) :
    d.valueAt? (steps.map Segment.target) = d.valueAt? steps := by
  induction steps generalizing d with
  | nil => rfl
  | cons step steps ih => simp only [List.map_cons, valueAt?, childTarget, ih]

inductive Forks : List Segment → List Segment → Prop where
  | here {s t : Segment} (apart : s.target ≠ t.target) (kind : s.isIndex = t.isIndex)
      (p q : List Segment) : Forks (s :: p) (t :: q)
  | inside {p q : List Segment} (step : Segment) (rest : Forks p q) : Forks (step :: p) (step :: q)

namespace Forks
variable {p q r : List Segment}

theorem symm (forks : Forks p q) : Forks q p := by
  induction forks with
  | here apart kind p q => exact .here apart.symm kind.symm q p
  | inside step _ ih => exact .inside step ih

theorem apart (forks : Forks p q) : ¬ p <+: q := by
  induction forks with
  | here apart => exact fun before => apart (congrArg _ (List.cons_prefix_cons.1 before).1)
  | inside step _ ih => exact fun before => ih (List.cons_prefix_cons.1 before).2

theorem cut (forks : Forks p q) (before : r <+: q) : r <+: p ∨ Forks p r := by
  induction forks generalizing r with
  | @here s t apart kind p q =>
    cases r with
    | nil => exact .inl List.nil_prefix
    | cons u r =>
      obtain ⟨rfl, _⟩ := List.cons_prefix_cons.1 before
      exact .inr (.here apart kind p r)
  | inside step _ ih =>
    cases r with
    | nil => exact .inl List.nil_prefix
    | cons u r =>
      obtain ⟨rfl, rest⟩ := List.cons_prefix_cons.1 before
      cases ih rest with
      | inl inside => exact .inl (List.cons_prefix_cons.2 ⟨rfl, inside⟩)
      | inr forks => exact .inr (.inside _ forks)

theorem beyond (forks : Forks (r ++ p) (r ++ q)) : Forks p q := by
  induction r with
  | nil => exact forks
  | cons step r ih =>
    cases forks with
    | here apart => exact absurd rfl apart
    | inside _ rest => exact ih rest

theorem kind {s : Segment} (forks : Forks p (s :: q)) :
    ∃ t rest, p = t :: rest ∧ t.isIndex = s.isIndex := by
  cases forks with
  | here _ kind => exact ⟨_, _, rfl, kind⟩
  | inside _ _ => exact ⟨_, _, rfl, rfl⟩

theorem ofParting (left : ¬ p.map Segment.target <+: q.map Segment.target)
    (right : ¬ q.map Segment.target <+: p.map Segment.target)
    (alike : ∀ r s t ps qs, p.map Segment.target = r ++ s :: ps →
      q.map Segment.target = r ++ t :: qs → s ≠ t → s.isIndex = t.isIndex) :
    Forks (p.map Segment.target) (q.map Segment.target) := by
  induction p generalizing q with
  | nil => exact absurd List.nil_prefix left
  | cons s p ih =>
    cases q with
    | nil => exact absurd List.nil_prefix right
    | cons t q =>
      simp only [List.map_cons, List.cons_prefix_cons, not_and] at left right alike ⊢
      by_cases same : s.target = t.target
      · rw [← same]
        refine .inside _ (ih (left same) (right same.symm) fun r u v ps qs first second => ?_)
        exact alike (s.target :: r) u v ps qs (congrArg _ first) (congrArg₂ _ same.symm second)
      · have kind := alike [] _ _ _ _ rfl rfl same
        exact .here (by simpa using same) kind _ _

end Forks

inductive Followed : Json → List Segment → Prop where
  | here {d : Json} {i j : UInt64} (less : i < j) (later : (d.child? (.index j)).isSome = true) :
      Followed d [.index i]
  | inside {d a : Json} {step : Segment} {p : List Segment} (found : d.child? step = some a)
      (rest : Followed a p) : Followed d (step :: p)

theorem childBeside (a : Json) {s t : Segment} (apart : s.target ≠ t.target)
    (kind : s.isIndex = t.isIndex) (d : Json) : (d.setChild a s).child? t = d.child? t ∨
      d.child? t = none ∧ (d.setChild a s).child? t = some null ∧ (d.setChild a s).Followed [t] := by
  have names : ∀ {name other : String}, Segment.key name ≠ .key other →
      Entries.get? other (Entries.insert name a d.membersOrNone) =
        Entries.get? other d.membersOrNone := by
    intro name other apart
    exact Entries.getBeside (fun same => apart (congrArg _ same.symm)) _ _
  cases s with
  | index i =>
    cases t with
    | index j =>
      have other : i.toNat ≠ j.toNat := by
        intro same
        exact apart (congrArg Segment.index (UInt64.toNat_inj.1 same))
      have grown : (d.setChild a (.index i)).child? (.index j) =
          (d.child? (.index j)).or (if j.toNat < i.toNat then some null else none) :=
        grownBeside a other d.itemsOrNone
      cases held : d.child? (.index j) with
      | some b => exact .inl (by rw [grown, held, Option.some_or])
      | none =>
        rw [grown, held, Option.none_or]
        split
        · rename_i less
          exact .inr ⟨rfl, rfl, .here (UInt64.lt_iff_toNat_lt.2 less)
            (Option.isSome_of_eq_some (childSet d a (.index i)))⟩
        · exact .inl rfl
    | _ other => cases kind
  | _ name =>
    cases t with
    | index j => cases kind
    | _ other => exact .inl (names apart)

theorem valueBeside (a : Json) {p q : List Segment} (forks : Forks p q) (d : Json) :
    (place a p d).valueAt? q = d.valueAt? q ∨
      d.valueAt? q = none ∧ (place a p d).valueAt? q = some null ∧ (place a p d).Followed q := by
  induction forks generalizing d with
  | @here s t apart kind p q =>
    rw [place, valueAt?, valueAt?]
    rcases childBeside (place a p (d.child s)) apart kind d with same | ⟨absent, filled, followed⟩
    · exact .inl (by rw [same])
    · rw [absent, filled, Option.bind_none, Option.bind_some]
      cases q with
      | nil => exact .inr ⟨rfl, rfl, followed⟩
      | cons u q => exact .inl (nullValue (List.cons_ne_nil _ _))
  | @inside p q step forks ih =>
    have root : q ≠ [] := fun empty => forks.symm.apart (empty ▸ List.nil_prefix)
    have own : (d.child? step).bind (fun b => b.valueAt? q) = (d.child step).valueAt? q := by
      rw [child]
      cases d.child? step with
      | some b => rfl
      | none => exact (nullValue root).symm
    rw [place, valueAt?, valueAt?, childSet, Option.bind_some, own]
    rcases ih (d.child step) with same | ⟨absent, filled, followed⟩
    · exact .inl same
    · exact .inr ⟨absent, filled, .inside (childSet _ _ _) followed⟩

def seek (d : Json) (steps : List Segment) : Json := (d.valueAt? steps).getD null

theorem seekNull (steps : List Segment) : null.seek steps = null := by
  cases steps with
  | nil => rfl
  | cons step steps => rw [seek, nullValue (List.cons_ne_nil _ _), Option.getD_none]

theorem seekStep (d : Json) (step : Segment) (steps : List Segment) :
    d.seek (step :: steps) = (d.child step).seek steps := by
  rw [seek, valueAt?, child]
  cases d.child? step with
  | none => exact (seekNull steps).symm
  | some a => rfl

theorem seekBeside (a : Json) {p q : List Segment} (forks : Forks p q) (d : Json) :
    (place a p d).seek q = d.seek q := by
  rw [seek, seek]
  rcases valueBeside a forks d with same | ⟨absent, filled, _⟩
  · rw [same]
  · rw [absent, filled]
    rfl

theorem seekInside (a : Json) (r p : List Segment) (d : Json) :
    (place a (r ++ p) d).seek r = place a p (d.seek r) := by
  induction r generalizing d with
  | nil => rfl
  | cons step r ih =>
    rw [List.cons_append, place, seekStep, seekStep, child.eq_def (setChild ..), childSet]
    exact ih _

def within (r : List Segment) (leaves : List (List Segment × Json)) : List (List Segment × Json) :=
  (leaves.filter fun leaf => r.isPrefixOf leaf.1).map fun leaf => (leaf.1.drop r.length, leaf.2)

theorem memWithin {r p : List Segment} {a : Json} {leaves : List (List Segment × Json)} :
    (p, a) ∈ within r leaves ↔ (r ++ p, a) ∈ leaves := by
  simp only [within, List.mem_map, List.mem_filter, List.isPrefixOf_iff_prefix]
  constructor
  · rintro ⟨⟨_, _⟩, ⟨listed, rest, rfl⟩, same⟩
    cases same
    rwa [List.drop_left]
  · intro listed
    exact ⟨_, ⟨listed, List.prefix_append r p⟩, by rw [List.drop_left]⟩

theorem seekBuild {r : List Segment} {leaves : List (List Segment × Json)}
    (beside : ∀ e ∈ leaves, ¬ r <+: e.1 → Forks e.1 r) (d : Json) :
    (d.build leaves).seek r = (d.seek r).build (within r leaves) := by
  induction leaves generalizing d with
  | nil => rfl
  | cons e leaves ih =>
    obtain ⟨p, a⟩ := e
    obtain ⟨own, others⟩ := List.forall_mem_cons.1 beside
    have rest := ih others (place a p d)
    by_cases inside : r <+: p
    · obtain ⟨q, rfl⟩ := inside
      have first : within r ((r ++ q, a) :: leaves) = (q, a) :: within r leaves := by
        have here : r.isPrefixOf (r ++ q) = true :=
          List.isPrefixOf_iff_prefix.2 (List.prefix_append r q)
        simp [within, here]
      rw [first]
      rw [seekInside] at rest
      exact rest
    · have left : within r ((p, a) :: leaves) = within r leaves := by
        have away : r.isPrefixOf p = false := by
          rw [Bool.eq_false_iff, ne_eq, List.isPrefixOf_iff_prefix]
          exact inside
        simp [within, away]
      rw [left]
      rw [seekBeside a (own inside)] at rest
      exact rest

end Json
end DocHistory
