import DocHistory.Proofs.TimeTravel

/-! What a commit refuses, and why. That depends on the versions and on the revisions that the graph
holds, however it stores them. So a list of versions is refused where its parts are, one committed
on the other, and with the same error; what both ways take in are the same nodes up to
identities. -/
namespace DocHistory
open Node

def Version.refusal (held : Revision → Bool) (v : Version) : Option GraphError :=
  if v.isRoot ∧ !v.parents.isEmpty then
    some (.version (.rootWithParents v.revision v.parents.size))
  else if held v.revision then some (.duplicateRevision v.revision)
  else (v.parents.toList.find? fun r => !held r).map (.missingParent v.revision)

def heldAfter (held : Revision → Bool) (versions : List Version) (r : Revision) : Bool :=
  held r || versions.any fun v => v.revision = r

def firstRefusal (held : Revision → Bool) : List Version → Option GraphError
  | [] => none
  | v :: versions => (v.refusal held).or (firstRefusal (heldAfter held [v]) versions)

theorem heldAfterNil (held : Revision → Bool) : heldAfter held [] = held :=
  funext fun _ => Bool.or_false _

theorem heldAfterAppend (held : Revision → Bool) (xs ys : List Version) :
    heldAfter held (xs ++ ys) = heldAfter (heldAfter held xs) ys := by
  funext r
  rw [heldAfter, heldAfter, heldAfter, List.any_append, Bool.or_assoc]

theorem refusalAppend (held : Revision → Bool) (xs ys : List Version) :
    firstRefusal held (xs ++ ys) =
      (firstRefusal held xs).or (firstRefusal (heldAfter held xs) ys) := by
  induction xs generalizing held with
  | nil =>
    rw [heldAfterNil]
    rfl
  | cons v xs ih =>
    rw [List.cons_append, firstRefusal, firstRefusal, ih, Option.or_assoc, ← heldAfterAppend]
    rfl

theorem mapMMissing {ε κ α : Type} {f : κ → Except ε α} {f? : κ → Option α} {fault : κ → ε}
    (same : ∀ k, f k = match f? k with
      | some a => .ok a
      | none => .error (fault k)) {ks : List κ} {e : ε} :
    ks.mapM f = .error e ↔ (ks.find? fun k => !(f? k).isSome).map fault = some e := by
  induction ks with
  | nil => simp [pure, Except.pure]
  | cons k ks ih =>
    rw [List.mapM_cons, List.find?_cons, same k]
    cases f? k with
    | none => simp [bind, Except.bind]
    | some a =>
      simp only [Option.isSome_some, Bool.not_true, ← ih]
      cases ks.mapM f <;> simp [bind, Except.bind, pure, Except.pure]

namespace Graph

namespace Staging

def holds (s : Staging) (r : Revision) : Bool := (s.find? r).isSome

theorem parentsFail {s : Staging} {v : Version} {e : GraphError} : s.parents v = .error e ↔
    (v.parents.toList.find? fun r => !s.holds r).map (.missingParent v.revision) = some e :=
  mapMMissing fun r => by cases s.find? r <;> rfl

theorem addFails {s : Staging} {v : Version} {e : GraphError} :
    s.add v = .error e ↔ v.refusal s.holds = some e := by
  unfold add Version.refusal
  by_cases rooted : v.isRoot = true ∧ (!v.parents.isEmpty) = true
  · simp only [if_pos rooted, Except.error.injEq, Option.some.injEq]
  · have known : (s.find? v.revision).isSome = s.holds v.revision := rfl
    rw [if_neg rooted, if_neg rooted, known]
    cases s.holds v.revision with
    | true => simp
    | false =>
      simp only [Bool.false_eq_true, if_false, ← parentsFail]
      cases s.parents v <;> simp [bind, Except.bind]

theorem addHolds {s t : Staging} {v : Version} (done : s.add v = .ok t) :
    t.holds = heldAfter s.holds [v] := by
  obtain ⟨_, _, ps, _, rfl⟩ := addOk.1 done
  funext r
  have own : (s.place v ps).revision = v.revision := rfl
  by_cases same : v.revision = r
  · simp [holds, heldAfter, find?, push, own, same]
  · simp [holds, heldAfter, find?, push, own, same]

theorem runFails {s : Staging} {versions : List Version} {e : GraphError} :
    versions.foldlM Staging.add s = .error e ↔ firstRefusal s.holds versions = some e := by
  induction versions generalizing s with
  | nil => simp [firstRefusal, pure, Except.pure]
  | cons v versions ih =>
    rw [List.foldlM_cons, firstRefusal]
    cases added : s.add v with
    | error d => simp [addFails.1 added, bind, Except.bind]
    | ok t =>
      have accepted : v.refusal s.holds = none := by
        refine Option.eq_none_iff_forall_ne_some.2 fun d fault => ?_
        rw [addFails.2 fault] at added
        cases added
      rw [accepted, Option.none_or, ← addHolds added, ← ih]
      rfl

end Staging

theorem commitFails {g : Graph} {versions : List Version} {fresh : Nat} {e : GraphError} :
    g.commit versions fresh = .error e ↔ firstRefusal g.contains versions = some e := by
  let start : Staging := { base := g, headIndex := g.headIndex, fresh }
  have run : versions.foldlM Staging.add start = .error e ↔ _ := Staging.runFails
  have same : start.holds = g.contains := rfl
  rw [← same, ← run, commit]
  cases versions.foldlM Staging.add start <;> simp [bind, Except.bind]

theorem commitSucceeds {g : Graph} {versions : List Version} (fresh : Nat) :
    (∃ h, g.commit versions fresh = .ok h) ↔ firstRefusal g.contains versions = none := by
  constructor
  · rintro ⟨h, done⟩
    refine Option.eq_none_iff_forall_ne_some.2 fun e fault => ?_
    rw [commitFails.2 fault] at done
    cases done
  · intro accepted
    cases done : g.commit versions fresh with
    | ok h => exact ⟨h, rfl⟩
    | error e =>
      rw [commitFails.1 done] at accepted
      cases accepted

theorem commitContains {g h : Graph} {versions : List Version} {fresh : Nat}
    (done : g.commit versions fresh = .ok h) : h.contains = heldAfter g.contains versions := by
  obtain ⟨added, nodes, taken, _⟩ := commitAdds done
  funext r
  rw [heldAfter, ← taken, List.any_map, Bool.eq_iff_iff, Bool.or_eq_true, containsIff, containsIff,
    nodes, List.any_eq_true]
  simp only [List.mem_append, or_and_right, exists_or, Function.comp_apply, decide_eq_true_eq]
  rfl

theorem batchInParts {g : Graph} (reachable : g.Reachable) (xs ys : List Version) (i j k : Nat) :
    ((∃ a, g.commit (xs ++ ys) i = .ok a) ↔
      ∃ h, g.commit xs j = .ok h ∧ ∃ b, h.commit ys k = .ok b) ∧
    (∀ e, g.commit (xs ++ ys) i = .error e ↔
      g.commit xs j = .error e ∨ ∃ h, g.commit xs j = .ok h ∧ h.commit ys k = .error e) ∧
    ∀ a h b, g.commit (xs ++ ys) i = .ok a → g.commit xs j = .ok h → h.commit ys k = .ok b →
      InStep Marks.unnamed a b := by
  refine ⟨?_, fun e => ?_, fun a h b whole first second => ?_⟩
  · rw [commitSucceeds i, refusalAppend, Option.or_eq_none_iff, ← commitSucceeds j]
    constructor
    · rintro ⟨⟨h, first⟩, rest⟩
      exact ⟨h, first, (commitSucceeds k).2 (commitContains first ▸ rest)⟩
    · rintro ⟨h, first, second⟩
      exact ⟨⟨h, first⟩, commitContains first ▸ (commitSucceeds k).1 second⟩
  · rw [commitFails, refusalAppend, Option.or_eq_some_iff, commitFails,
      ← commitSucceeds j]
    refine or_congr_right ?_
    constructor
    · rintro ⟨⟨h, first⟩, fault⟩
      exact ⟨h, first, commitFails.2 (commitContains first ▸ fault)⟩
    · rintro ⟨h, first, second⟩
      exact ⟨⟨h, first⟩, commitContains first ▸ commitFails.1 second⟩
  · have atOnce := Reachable.commit reachable whole
    have inParts := Reachable.commit (.commit reachable first) second
    obtain ⟨all, nodes, taken, _⟩ := commitAdds whole
    obtain ⟨early, before, takenFirst, _⟩ := commitAdds first
    obtain ⟨late, after, takenLast, _⟩ := commitAdds second
    have versions : a.nodes.map version = b.nodes.map version := by
      rw [nodes, after, before, List.map_append, List.map_append, List.map_append, taken,
        takenFirst, takenLast, List.append_assoc]
    exact inStep atOnce.tracked inParts.tracked
      (unnamedEq atOnce.ordered.placed inParts.ordered.placed versions)

theorem continuedInParts : ∃ h a b, continued.commit [.ofChanges 3 [2] []] 2 = .ok h ∧
    h.commit [.ofChanges 4 [1, 3] []] 7 = .ok b ∧
    continued.commit [.ofChanges 3 [2] [], .ofChanges 4 [1, 3] []] 2 = .ok a ∧
    InStep Marks.unnamed a b ∧
    h.commit [.ofChanges 3 [] []] 7 = .error (.duplicateRevision (.ofTime 3)) ∧
    continued.commit [.ofChanges 3 [2] [], .ofChanges 3 [] []] 2 =
      .error (.duplicateRevision (.ofTime 3)) := by
  have reachable : continued.Reachable := ofVersionsReachable _
  obtain ⟨h, b, first, second, repeated⟩ : ∃ h b,
      continued.commit [.ofChanges 3 [2] []] 2 = .ok h ∧
      h.commit [.ofChanges 4 [1, 3] []] 7 = .ok b ∧
      h.commit [.ofChanges 3 [] []] 7 = .error (.duplicateRevision (.ofTime 3)) :=
    ⟨_, _, rfl, rfl, rfl⟩
  obtain ⟨taken, _, same⟩ :=
    batchInParts reachable [.ofChanges 3 [2] []] [.ofChanges 4 [1, 3] []] 2 2 7
  obtain ⟨_, refused, _⟩ := batchInParts reachable [.ofChanges 3 [2] []] [.ofChanges 3 [] []] 2 2 7
  obtain ⟨a, whole⟩ := taken.2 ⟨h, first, b, second⟩
  exact ⟨h, a, b, first, second, whole, same a h b whole first second, repeated,
    (refused _).2 (.inr ⟨h, first, repeated⟩)⟩

end Graph
end DocHistory
