import DocHistory.Repository
import DocHistory.Proofs.Placement

/-! How a commit of versions to a document ends, for the caller and for the store. Versions that the
graph refuses do not reach the store. If the store fails, the rollback forgets all that is staged,
also what others had staged before: then the store is as it was only if nothing was. -/
namespace DocHistory.Repository

section
variable (outage : Outage) (id : DocumentId) (g : Graph) (versions : List Version) (fresh : Nat)
  (s : Store)

inductive Outcome : Except StoreError Graph → Store → Prop where
  | idle (absent : versions = []) : Outcome (.ok g) s
  | refused {e : GraphError} (filled : versions ≠ []) (fault : g.commit versions fresh = .error e) :
      Outcome (.error (.graph e)) s
  | stored {h : Graph} (filled : versions ≠ []) (extended : g.commit versions fresh = .ok h)
      (appends : .append ∉ outage) (commits : .commit ∉ outage) :
      Outcome (.ok h) (s.append id versions).commit
  | undone {h : Graph} {call : StoreCall} (filled : versions ≠ [])
      (extended : g.commit versions fresh = .ok h) (failed : call ∈ outage)
      (recovers : .rollback ∉ outage) : Outcome (.error (.refused call)) s.rollback
  | unappended {h : Graph} (filled : versions ≠ []) (extended : g.commit versions fresh = .ok h)
      (failed : .append ∈ outage) (stuck : .rollback ∈ outage) :
      Outcome (.error (.refused .rollback)) s
  | uncommitted {h : Graph} (filled : versions ≠ []) (extended : g.commit versions fresh = .ok h)
      (appends : .append ∉ outage) (failed : .commit ∈ outage) (stuck : .rollback ∈ outage) :
      Outcome (.error (.refused .rollback)) (s.append id versions)

variable {outage id g versions fresh s}

theorem attemptRun (call : StoreCall) (change : Store → Store) :
    Store.attempt call change outage s =
      if call ∈ outage then .error (.refused call) else .ok (change s) := by
  simp only [Store.attempt, List.contains_iff_mem]

theorem persistRun : persist outage id versions s =
    if .append ∈ outage then (.error (.refused .append), s)
    else if .commit ∈ outage then (.error (.refused .commit), s.append id versions)
    else (.ok (), (s.append id versions).commit) := by
  unfold persist Store.tryAppend Store.tryCommit
  rw [attemptRun]
  by_cases append : StoreCall.append ∈ outage
  · simp only [if_pos append]
  · simp only [if_neg append, attemptRun]
    by_cases commit : StoreCall.commit ∈ outage
    · simp only [if_pos commit]
    · simp only [if_neg commit]

theorem commitOutcome {answer : Except StoreError Graph} {t : Store}
    (done : commit outage id g versions fresh s = (answer, t)) :
    Outcome outage id g versions fresh s answer t := by
  unfold commit Store.tryRollback at done
  simp only [persistRun, attemptRun] at done
  split at done
  · rename_i absent
    cases done
    exact .idle (List.isEmpty_iff.1 absent)
  · rename_i present
    have filled : versions ≠ [] := fun absent => present (List.isEmpty_iff.2 absent)
    cases extended : g.commit versions fresh with
    | error e =>
      rw [extended] at done
      cases done
      exact .refused filled extended
    | ok h =>
      rw [extended] at done
      by_cases append : StoreCall.append ∈ outage
      · by_cases rollback : StoreCall.rollback ∈ outage
        · simp only [append, rollback, if_true] at done
          cases done
          exact .unappended filled extended append rollback
        · simp only [append, rollback, if_true, if_false] at done
          cases done
          exact .undone filled extended append rollback
      · by_cases commit : StoreCall.commit ∈ outage
        · by_cases rollback : StoreCall.rollback ∈ outage
          · simp only [append, commit, rollback, if_true, if_false] at done
            cases done
            exact .uncommitted filled extended append commit rollback
          · simp only [append, commit, rollback, if_true, if_false] at done
            cases done
            exact .undone filled extended commit rollback
        · simp only [append, commit, if_false] at done
          cases done
          exact .stored filled extended append commit

theorem Outcome.failed {e : StoreError} {t : Store} (recovers : .rollback ∉ outage)
    (outcome : Outcome outage id g versions fresh s (.error e) t) :
    (t = s ∧ ∃ fault, g.commit versions fresh = .error fault) ∨
      (t = s.rollback ∧ ∃ h, g.commit versions fresh = .ok h) := by
  cases outcome with
  | refused _ fault => exact .inl ⟨rfl, _, fault⟩
  | undone _ extended => exact .inr ⟨rfl, _, extended⟩
  | unappended _ _ _ stuck => exact absurd stuck recovers
  | uncommitted _ _ _ _ stuck => exact absurd stuck recovers

theorem failureKeeps {e : StoreError} {t : Store} (recovers : .rollback ∉ outage)
    (failed : commit outage id g versions fresh s = (.error e, t)) :
    t.committed = s.committed ∧ (t = s ∨ t.pending = ∅) ∧
      (t = s ↔ s.pending = ∅ ∨ ∃ fault, g.commit versions fresh = .error fault) := by
  rcases (commitOutcome failed).failed recovers with ⟨rfl, fault⟩ | ⟨rfl, h, extended⟩
  · exact ⟨rfl, .inl rfl, fun _ => .inr fault, fun _ => rfl⟩
  · refine ⟨rfl, .inr rfl, fun same => .inl (congrArg Store.pending same).symm, ?_⟩
    rintro (settled | ⟨fault, refused⟩)
    · rw [Store.rollback, ← settled]
    · rw [extended] at refused
      cases refused

end

def staged : Store := Store.empty.append (.ofNat 1) [.ofChanges 1 [] []]

theorem stagedForgotten : ¬ ∀ outage id g versions fresh s e t, .rollback ∉ outage →
    commit outage id g versions fresh s = (.error e, t) → ∀ document,
      t.pending.get? document = s.pending.get? document ∧
        t.committed.get? document = s.committed.get? document := by
  intro keeps
  have lost := (keeps [.append] (.ofNat 2) (Graph.empty {} 0) [.ofChanges 2 [] []] 1 staged _ _
    (by decide) rfl (.ofNat 1)).1
  cases lost

theorem stagedLost : ∃ e t, .rollback ∉ [StoreCall.append] ∧
    commit [.append] (.ofNat 2) (Graph.empty {} 0) [.ofChanges 2 [] []] 1 staged = (.error e, t) ∧
    t.committed = staged.committed ∧ t ≠ staged ∧ t.pending = ∅ := by
  have recovers : .rollback ∉ [StoreCall.append] := by decide
  obtain ⟨e, t, failed⟩ : ∃ e t, commit [.append] (.ofNat 2) (Graph.empty {} 0)
      [.ofChanges 2 [] []] 1 staged = (.error e, t) := ⟨_, _, rfl⟩
  obtain ⟨committed, left, same⟩ := failureKeeps recovers failed
  have changed : t ≠ staged := by
    intro equal
    rcases same.1 equal with settled | ⟨fault, refused⟩
    · cases settled
    · cases refused
  exact ⟨e, t, recovers, failed, committed, changed, left.resolve_left changed⟩

end DocHistory.Repository
