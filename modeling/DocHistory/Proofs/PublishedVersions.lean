import DocHistory.Proofs.ReloadedGraphs

/-! Which versions a store shows after a run of calls. What a call stages becomes visible with the
next commit of the store, whoever causes it, unless a rollback comes first. So the versions of a
call that failed stay hidden, except where its commit and its rollback failed both: then they wait
for the next call that succeeds. -/
namespace DocHistory

namespace VersionLogs

def log (logs : VersionLogs) (id : DocumentId) : List Version := (logs.get? id).getD []

def Filled (logs : VersionLogs) : Prop := ∀ id, logs.get? id ≠ some []

theorem logExtend (logs : VersionLogs) (id k : DocumentId) (versions : List Version) :
    (extend logs id versions).log k = logs.log k ++ if k = id then versions else [] := by
  by_cases absent : versions = []
  · subst absent
    rw [ite_self, List.append_nil]
    rfl
  · rw [log, getExtend absent]
    split
    · rename_i same
      rw [same, Option.getD_some, log]
    · rw [List.append_nil, log]

theorem Filled.extend {logs : VersionLogs} (filled : Filled logs) (id : DocumentId)
    (versions : List Version) : Filled (extend logs id versions) := by
  by_cases absent : versions = []
  · subst absent
    exact filled
  · intro k
    rw [getExtend absent]
    split
    · intro empty
      exact absent (List.append_eq_nil_iff.1 (Option.some.inj empty)).2
    · exact filled k

theorem logExtendAll (logs more : VersionLogs) (k : DocumentId) :
    (extendAll logs more).log k = logs.log k ++ more.log k := by
  refine (Entries.foldAt (fun logs : VersionLogs => logs.log k) (fun versions log => log ++ versions)
    k (fun e _ logs => ?_) more.ascending logs).trans ?_
  · rw [logExtend]
    split
    · rfl
    · exact List.append_nil _
  · change ((more.get? k).elim _ _) = logs.log k ++ (more.get? k).getD []
    cases more.get? k with
    | none => exact (List.append_nil _).symm
    | some versions => rfl

theorem Filled.extendAll {logs : VersionLogs} (filled : Filled logs) (more : VersionLogs) :
    Filled (extendAll logs more) :=
  List.foldlRecOn (motive := Filled) _ _ filled fun _ kept e _ => kept.extend e.1 e.2

end VersionLogs

namespace Store

def listing (id : DocumentId) : List Version → Except StoreError (List Version)
  | [] => .error (.documentNotFound id)
  | versions => .ok versions

theorem listingInj {id : DocumentId} {vs ws : List Version}
    (same : listing id vs = listing id ws) : vs = ws := by
  cases vs <;> cases ws <;> cases same <;> rfl

theorem loadListing {s : Store} (filled : s.committed.Filled) (id : DocumentId) :
    s.load id = listing id (s.committed.log id) := by
  rw [load, VersionLogs.log]
  cases found : s.committed.get? id with
  | none => rfl
  | some versions =>
    cases versions with
    | nil => exact absurd found (filled id)
    | cons v versions => rfl

end Store

namespace Cache

def reviseDocument (g : Graph) (branch : String) (next : Value) (revision : Revision) :
    StateM Cache (Except StoreError (Option Version)) := do
  let parents := (← frontier g branch).map Node.revision
  let merged ← mergeRevisions g parents
  return Repository.revise branch parents merged next revision

theorem writeRevises (outage : Outage) (id : DocumentId) (g : Graph) (branch : String)
    (next : Value) (revision : Revision) (fresh : Nat) (s : Store) :
    writeDocument outage id g branch next revision fresh s =
      (fun revised => Repository.record outage id g revised fresh s) <$>
        reviseDocument g branch next revision := rfl

end Cache

namespace Repository

structure Submission extends Request where
  graph : Graph

namespace Submission

def answer (c : Submission) (s : Store) : Except StoreError Graph × Store :=
  Session.answer ⟨fun _ => c.graph, s⟩ c.toRequest

def planned (c : Submission) : Except StoreError (List Version) :=
  match c.edit with
  | .commit versions => .ok versions
  | .write branch next revision =>
    ((Cache.reviseDocument c.graph branch next revision).run c.cache).1.map Option.toList

def versions (c : Submission) : List Version := c.planned.toOption.getD []

def versionsFor (c : Submission) (id : DocumentId) : List Version :=
  if id = c.id then c.versions else []

inductive Effect where
  | untouched
  | staged
  | discarded
  | published
  deriving DecidableEq

def effect (c : Submission) : Effect :=
  if c.versions.isEmpty || (c.graph.commit c.versions c.fresh).toOption.isNone then .untouched
  else if .append ∉ c.outage ∧ .commit ∉ c.outage then .published
  else if .rollback ∉ c.outage then .discarded
  else if .append ∉ c.outage then .staged
  else .untouched

variable (c : Submission) (s : Store)

theorem answerCommits : c.answer s = match c.planned with
    | .error e => (.error e, s)
    | .ok versions => commit c.outage c.id c.graph versions c.fresh s := by
  unfold answer Session.answer planned
  cases c.edit with
  | commit versions => rfl
  | write branch next revision =>
    dsimp only
    rw [Cache.writeRevises]
    change record c.outage c.id c.graph
      ((Cache.reviseDocument c.graph branch next revision).run c.cache).1 c.fresh s = _
    generalize ((Cache.reviseDocument c.graph branch next revision).run c.cache).1 = revised
    rcases revised with e | _ | v <;> rfl

inductive Ends : Effect → Except StoreError Graph → Store → Prop where
  | untouched {answer : Except StoreError Graph}
      (quiet : c.versions = [] ∨ ∃ e, answer = .error e) : Ends .untouched answer s
  | staged {e : StoreError} : Ends .staged (.error e) (s.append c.id c.versions)
  | discarded {e : StoreError} : Ends .discarded (.error e) s.rollback
  | published {g : Graph} : Ends .published (.ok g) (s.append c.id c.versions).commit

theorem ends : Ends c s c.effect (c.answer s).1 (c.answer s).2 := by
  rw [answerCommits]
  cases plan : c.planned with
  | error e =>
    have absent : c.versions = [] := by
      rw [versions, plan]
      rfl
    have effect : c.effect = .untouched := by
      rw [effect, absent]
      rfl
    exact effect ▸ .untouched (.inl absent)
  | ok vs =>
    obtain rfl : c.versions = vs := by
      rw [versions, plan]
      rfl
    dsimp only
    generalize done : commit c.outage c.id c.graph c.versions c.fresh s = ended
    obtain ⟨answer, t⟩ := ended
    cases commitOutcome done with
    | idle absent =>
      have effect : c.effect = .untouched := by simp [effect, absent]
      exact effect ▸ .untouched (.inl absent)
    | refused _ fault =>
      have effect : c.effect = .untouched := by simp [effect, fault, Except.toOption]
      exact effect ▸ .untouched (.inr ⟨_, rfl⟩)
    | stored filled extended appends commits =>
      have effect : c.effect = .published := by
        simp [effect, filled, extended, appends, commits, Except.toOption]
      exact effect ▸ .published
    | @undone h call filled extended failed recovers =>
      have effect : c.effect = .discarded := by
        cases call with
        | rollback => exact absurd failed recovers
        | _ => simp [effect, filled, extended, failed, recovers, Except.toOption]
      exact effect ▸ .discarded
    | unappended filled extended failed stuck =>
      have effect : c.effect = .untouched := by
        simp [effect, filled, extended, failed, stuck, Except.toOption]
      exact effect ▸ .untouched (.inr ⟨_, rfl⟩)
    | uncommitted filled extended appends failed stuck =>
      have effect : c.effect = .staged := by
        simp [effect, filled, extended, appends, failed, stuck, Except.toOption]
      exact effect ▸ .staged

theorem stagedSome (staged : c.effect = .staged) : c.versions ≠ [] := by
  intro absent
  simp [effect, absent] at staged

end Submission

def after (s : Store) (calls : List Submission) : Store := calls.foldl (fun s c => (c.answer s).2) s

def acknowledged (id : DocumentId) : Store → List Submission → List Version
  | _, [] => []
  | s, c :: calls =>
    match c.answer s with
    | (.ok _, t) => c.versionsFor id ++ acknowledged id t calls
    | (.error _, t) => acknowledged id t calls

def publishes : List Submission → Bool
  | [] => false
  | c :: calls =>
    match c.effect with
    | .published => true
    | .discarded => false
    | _ => publishes calls

def surfaced (id : DocumentId) : List Submission → List Version
  | [] => []
  | c :: calls =>
    let shown := c.effect = .published ∨ c.effect = .staged ∧ publishes calls = true
    (if shown then c.versionsFor id else []) ++ surfaced id calls

def Contained (calls : List Submission) : Prop :=
  ∀ before c later, calls = before ++ c :: later → c.effect = .staged → publishes later = false

section
variable (id : DocumentId) (s : Store) (calls : List Submission)

theorem afterFilled (filled : s.committed.Filled) : (after s calls).committed.Filled := by
  induction calls generalizing s with
  | nil => exact filled
  | cons c calls ih =>
    have ended := c.ends s
    refine ih (c.answer s).2 ?_
    generalize c.effect = effect, c.answer s = done at ended
    obtain ⟨answer, t⟩ := done
    cases ended with
    | published => exact filled.extendAll _
    | _ => exact filled

theorem afterLog : (after s calls).committed.log id = s.committed.log id ++
    (if publishes calls then s.pending.log id else []) ++ surfaced id calls := by
  induction calls generalizing s with
  | nil => simp [after, publishes, surfaced]
  | cons c calls ih =>
    have next := ih (c.answer s).2
    have ended := c.ends s
    have absent : VersionLogs.log ∅ id = [] := rfl
    rw [after, List.foldl_cons, ← after, next, publishes, surfaced]
    generalize c.effect = effect, c.answer s = done at ended
    obtain ⟨answer, t⟩ := done
    cases ended with
    | untouched => simp
    | staged =>
      simp only [VersionLogs.logExtend, Submission.versionsFor]
      cases publishes calls <;> simp
    | discarded => simp [absent]
    | published =>
      simp [Store.append, VersionLogs.logExtendAll, VersionLogs.logExtend, Submission.versionsFor,
        absent]

theorem acknowledgedPublished : acknowledged id s calls =
    calls.flatMap fun c => if c.effect = .published then c.versionsFor id else [] := by
  induction calls generalizing s with
  | nil => rfl
  | cons c calls ih =>
    have next := ih (c.answer s).2
    have ended := c.ends s
    rw [acknowledged, List.flatMap_cons]
    generalize c.effect = effect, c.answer s = done at ended next
    obtain ⟨answer, t⟩ := done
    cases ended with
    | untouched quiet =>
      rcases quiet with absent | ⟨e, rfl⟩
      · rcases answer with e | g <;> simp [Submission.versionsFor, absent, next]
      · simp [next]
    | published => simp [next]
    | _ => simp [next]

theorem acknowledgedShorter :
    (acknowledged id s calls).length ≤ (surfaced id calls).length := by
  rw [acknowledgedPublished]
  induction calls with
  | nil => exact Nat.le_refl _
  | cons c calls ih =>
    rw [List.flatMap_cons, surfaced, List.length_append, List.length_append]
    refine Nat.add_le_add ?_ ih
    by_cases published : c.effect = .published <;> simp [published]

variable {calls}

theorem surfacedContained (contained : Contained calls) :
    surfaced id calls = acknowledged id s calls := by
  rw [acknowledgedPublished]
  induction calls with
  | nil => rfl
  | cons c calls ih =>
    have rest : Contained calls := fun before d later split =>
      contained (c :: before) d later (split ▸ rfl)
    rw [surfaced, ih rest, List.flatMap_cons]
    congr 2
    have own := contained [] c calls rfl
    simp only [eq_iff_iff, or_iff_left_iff_imp, and_imp]
    intro staged published
    rw [own staged] at published
    cases published

omit id in
theorem leftoverShown (before : List Submission) {later : List Submission} {c : Submission}
    (staged : c.effect = .staged) (published : publishes later = true) :
    (acknowledged c.id s (before ++ c :: later)).length <
      (surfaced c.id (before ++ c :: later)).length := by
  rw [acknowledgedPublished]
  induction before with
  | nil =>
    have filled : 0 < (c.versionsFor c.id).length := by
      rw [Submission.versionsFor, if_pos rfl]
      exact List.length_pos_iff.2 (c.stagedSome staged)
    have rest := acknowledgedShorter c.id s later
    rw [acknowledgedPublished] at rest
    rw [List.nil_append, List.flatMap_cons, surfaced]
    simp only [staged, published, reduceCtorEq, if_false, false_or, and_self, if_true,
      List.nil_append, List.length_append]
    omega
  | cons d before ih =>
    rw [List.cons_append, List.flatMap_cons, surfaced, List.length_append, List.length_append]
    refine Nat.add_lt_add_of_le_of_lt ?_ ih
    by_cases shown : d.effect = .published <;> simp [shown]

theorem publishesAppend {seen : List Submission} (later : List Submission)
    (published : publishes seen = true) : publishes (seen ++ later) = true := by
  induction seen with
  | nil => cases published
  | cons c seen ih =>
    rw [publishes] at published
    rw [List.cons_append, publishes]
    split at published
    · rfl
    · cases published
    · exact ih published

theorem Contained.before {seen later : List Submission} (contained : Contained (seen ++ later)) :
    Contained seen := by
  rintro before c rest rfl staged
  have all : publishes (rest ++ later) = false :=
    contained before c (rest ++ later) (by simp) staged
  exact Bool.eq_false_iff.2 fun published =>
    absurd (publishesAppend later published) (Bool.eq_false_iff.1 all)

end

theorem loadsSurfaced (id : DocumentId) (calls : List Submission) :
    (after .empty calls).load id = Store.listing id (surfaced id calls) := by
  have empty : Store.empty.committed.Filled := fun id found => nomatch found
  rw [Store.loadListing (afterFilled .empty calls empty), afterLog]
  cases publishes calls <;> rfl

theorem loadsAcknowledged (calls : List Submission) :
    (∀ id, (after .empty calls).load id = Store.listing id (surfaced id calls)) ∧
    ((∀ seen later, calls = seen ++ later → ∀ id,
        (after .empty seen).load id = Store.listing id (acknowledged id .empty seen)) ↔
      Contained calls) := by
  refine ⟨fun id => loadsSurfaced id calls, fun shown => ?_, fun contained => ?_⟩
  · rintro before c later rfl staged
    refine Bool.eq_false_iff.2 fun published => ?_
    have all := shown (before ++ c :: later) [] (List.append_nil _).symm c.id
    rw [loadsSurfaced] at all
    have longer := leftoverShown .empty before staged published
    rw [Store.listingInj all] at longer
    exact Nat.lt_irrefl _ longer
  · rintro seen later rfl id
    rw [loadsSurfaced, surfacedContained id .empty contained.before]

/-- The store fails to commit the version of the first document and to roll it back. Then a version
of another document is committed. -/
def leftover : List Submission :=
  [{ id := .ofNat 1, edit := .commit [.ofChanges 1 [] []], fresh := 1,
      outage := [.commit, .rollback], graph := Graph.empty {} 0 },
    { id := .ofNat 2, edit := .commit [.ofChanges 2 [] []], fresh := 2, graph := Graph.empty {} 0 }]

theorem leftoverSurfaces : ¬ ∀ calls id,
    (after .empty calls).load id = Store.listing id (acknowledged id .empty calls) := by
  intro hidden
  have shown : (after .empty leftover).load (.ofNat 1) = .ok [.ofChanges 1 [] []] := rfl
  have refused : acknowledged (.ofNat 1) .empty leftover = [] := rfl
  have absent := hidden leftover (.ofNat 1)
  rw [shown, refused] at absent
  cases absent

end Repository
end DocHistory
