import Mathlib.Logic.Function.Basic
import DocHistory.Proofs.CommitOutcome
import DocHistory.Proofs.TimeTravel

/-! Callers that share a repository, each with the graph that it got last for a document. While
rollbacks succeed, whatever else of the store fails: a call leaves nothing staged, one that fails
leaves the store as it was, and the log of a document lists the versions of the last graph. So a
graph that is loaded is in step with the one that was kept. -/
namespace DocHistory

theorem VersionLogs.getExtend {logs : VersionLogs} {id k : DocumentId} {versions : List Version}
    (present : versions ≠ []) : (VersionLogs.extend logs id versions).get? k =
      if k = id then some ((logs.get? id).getD [] ++ versions) else logs.get? k := by
  have filled : versions.isEmpty = false := List.isEmpty_eq_false_iff.2 present
  rw [VersionLogs.extend, filled]
  exact SortedMap.getInsert logs id k _

theorem VersionLogs.totalLength (logs : VersionLogs) :
    total logs = (logs.entries.flatMap Prod.snd).length := by
  rw [total, SortedMap.values, List.foldl_map, List.length_flatMap, List.sum_eq_foldl,
    List.foldl_map]

theorem VersionLogs.totalExtended (logs : VersionLogs) (id : DocumentId) (versions : List Version) :
    total (extend logs id versions) = total logs + versions.length := by
  rw [VersionLogs.extend]
  split
  · rename_i absent
    rw [List.isEmpty_iff.1 absent]
    rfl
  · have length := Entries.lengthInsert id ((logs.get? id).getD [] ++ versions) logs.entries
    rw [totalLength, totalLength]
    change ((Entries.insert id _ logs.entries).flatMap _).length = _
    change _ + ((logs.get? id).getD []).length = _ at length
    rw [List.length_append] at length
    omega

theorem VersionLogs.totalExtend (id : DocumentId) (versions : List Version) :
    total (extend ∅ id versions) = versions.length :=
  (totalExtended ∅ id versions).trans (Nat.zero_add _)

theorem Store.commitAppend {s : Store} (settled : s.pending = ∅) {id : DocumentId}
    {versions : List Version} (present : versions ≠ []) : (s.append id versions).commit =
      { committed := VersionLogs.extend s.committed id versions } := by
  have filled : versions.isEmpty = false := List.isEmpty_eq_false_iff.2 present
  have staged : VersionLogs.extend ∅ id versions = (∅ : VersionLogs).insert id versions := by
    rw [VersionLogs.extend, filled]
    rfl
  rw [Store.commit, Store.append, settled, staged]
  rfl

theorem Store.loadOk {s : Store} {id : DocumentId} {versions : List Version} :
    s.load id = .ok versions ↔ s.committed.get? id = some versions := by
  rw [Store.load]
  cases s.committed.get? id <;> simp

theorem Store.loadMissing {s : Store} {id : DocumentId} :
    s.load id = .error (.documentNotFound id) ↔ s.committed.get? id = none := by
  rw [Store.load]
  cases s.committed.get? id <;> simp

def Graph.log (g : Graph) : Option (List Version) :=
  if g.nodes.isEmpty then none else some (g.nodes.map Node.version)

namespace Graph
variable {g h : Graph}

theorem logVersions : g.log.getD [] = g.nodes.map Node.version := by
  rw [log]
  cases g.nodes <;> rfl

theorem logNone : g.log = none ↔ g.nodes = [] := by
  rw [log]
  cases g.nodes <;> simp

theorem logSome {versions : List Version} :
    g.log = some versions ↔ versions ≠ [] ∧ g.nodes.map Node.version = versions := by
  rw [log]
  cases g.nodes with
  | nil => simp [eq_comm]
  | cons n ns =>
    simp only [List.isEmpty_cons, Bool.false_eq_true, if_false, Option.some.injEq]
    exact ⟨fun same => ⟨same ▸ List.cons_ne_nil _ _, same⟩, And.right⟩

theorem commitLog {versions : List Version} {fresh : Nat} (filled : versions ≠ [])
    (done : g.commit versions fresh = .ok h) : h.log = some (g.log.getD [] ++ versions) := by
  obtain ⟨added, nodes, taken, _⟩ := commitAdds done
  rw [logSome, logVersions, nodes, List.map_append, taken]
  exact ⟨fun absent => filled (List.append_eq_nil_iff.1 absent).2, rfl⟩

end Graph

namespace Repository

theorem loadGraph {config : Config} {id : DocumentId} {fresh : Nat} {s : Store}
    {versions : List Version} {g : Graph} (loaded : s.load id = .ok versions)
    (done : (Graph.empty config fresh).commit versions (fresh + 1) = .ok g) :
    load config id fresh s = .ok g := by
  rw [load, loaded]
  change ((Graph.empty config fresh).commit versions (fresh + 1)).mapError StoreError.graph = .ok g
  rw [done]
  rfl

inductive Edit where
  | commit (versions : List Version)
  | write (branch : String) (next : Value) (revision : Revision)

/-- What a caller asks for a document. Other reads have left something in the cache by then, and some
calls of the store fail meanwhile. New nodes are named from `fresh` on. -/
structure Request where
  id : DocumentId
  edit : Edit
  fresh : Nat
  outage : Outage := []
  cache : Cache := .empty

structure Session where
  graphs : DocumentId → Graph
  store : Store

namespace Session

def start (names : DocumentId → Nat) : Session := ⟨fun id => Graph.empty {} (names id), .empty⟩

def answer (s : Session) (r : Request) : Except StoreError Graph × Store :=
  match r.edit with
  | .commit versions =>
    Repository.commit r.outage r.id (s.graphs r.id) versions r.fresh s.store
  | .write branch next revision =>
    ((Cache.writeDocument r.outage r.id (s.graphs r.id) branch next revision r.fresh s.store).run
      r.cache).1

def step (s : Session) (r : Request) : Session :=
  match s.answer r with
  | (.ok g, store) => ⟨Function.update s.graphs r.id g, store⟩
  | (.error _, store) => ⟨s.graphs, store⟩

def after (s : Session) (requests : List Request) : Session := requests.foldl step s

theorem answerOutcome {s : Session} {r : Request} {answer : Except StoreError Graph} {t : Store}
    (done : s.answer r = (answer, t)) : (t = s.store ∧ ∃ e, answer = .error e) ∨
      ∃ versions, Outcome r.outage r.id (s.graphs r.id) versions r.fresh s.store answer t := by
  unfold Session.answer at done
  cases edit : r.edit with
  | commit versions =>
    rw [edit] at done
    exact .inr ⟨versions, commitOutcome done⟩
  | write branch next revision =>
    rw [edit] at done
    -- Whatever the cache makes of the document, all that happens to the store is a commit.
    obtain ⟨revised, recorded⟩ : ∃ revised,
        record r.outage r.id (s.graphs r.id) revised r.fresh s.store = (answer, t) := ⟨_, done⟩
    cases revised with
    | error e =>
      cases recorded
      exact .inl ⟨rfl, e, rfl⟩
    | ok version? =>
      cases version? with
      | none =>
        cases recorded
        exact .inr ⟨[], .idle rfl⟩
      | some v => exact .inr ⟨[v], commitOutcome recorded⟩

structure Kept (s : Session) : Prop where
  settled : s.store.pending = ∅
  reachable : ∀ id, (s.graphs id).Reachable
  logged : ∀ id, s.store.committed.get? id = (s.graphs id).log

theorem startKept (names : DocumentId → Nat) : (start names).Kept where
  settled := rfl
  reachable id := .empty {} (names id)
  logged _ := rfl

namespace Kept
variable {s : Session} (kept : s.Kept) {r : Request} (recovers : .rollback ∉ r.outage)
include kept

theorem rolledBack : s.store.rollback = s.store := by
  rw [Store.rollback, ← kept.settled]

theorem stored {id : DocumentId} {versions : List Version} {fresh : Nat} {h : Graph}
    (filled : versions ≠ []) (extended : (s.graphs id).commit versions fresh = .ok h) :
    Kept ⟨Function.update s.graphs id h, (s.store.append id versions).commit⟩ := by
  rw [Store.commitAppend kept.settled filled]
  refine ⟨rfl, fun k => ?_, fun k => ?_⟩
  · by_cases same : k = id
    · subst same
      dsimp only
      rw [Function.update_self]
      exact .commit (kept.reachable k) extended
    · dsimp only
      rw [Function.update_of_ne same]
      exact kept.reachable k
  · dsimp only
    rw [VersionLogs.getExtend filled]
    by_cases same : k = id
    · subst same
      rw [if_pos rfl, Function.update_self, kept.logged, Graph.commitLog filled extended]
    · rw [if_neg same, Function.update_of_ne same, kept.logged]

theorem held {id : DocumentId} {versions : List Version} (loaded : s.store.load id = .ok versions) :
    (s.graphs id).nodes.map Node.version = versions := by
  rw [Store.loadOk, kept.logged] at loaded
  exact (Graph.logSome.1 loaded).2

include recovers

theorem failed {e : StoreError} {t : Store} (done : s.answer r = (.error e, t)) :
    t = s.store := by
  rcases answerOutcome done with ⟨same, _⟩ | ⟨versions, outcome⟩
  · exact same
  · rcases outcome.failed recovers with ⟨same, _⟩ | ⟨same, _⟩
    · exact same
    · exact same.trans kept.rolledBack

theorem failedStep {e : StoreError} {t : Store} (done : s.answer r = (.error e, t)) :
    s.step r = s := by
  rw [Session.step, done, kept.failed recovers done]

theorem step : (s.step r).Kept := by
  rcases done : s.answer r with ⟨e | g, t⟩
  · rw [kept.failedStep recovers done]
    exact kept
  · rw [Session.step, done]
    dsimp only
    rcases answerOutcome done with ⟨_, _, refused⟩ | ⟨versions, outcome⟩
    · cases refused
    · cases outcome with
      | idle =>
        rw [Function.update_eq_self]
        exact kept
      | stored filled extended => exact kept.stored filled extended

omit recovers in
theorem after {requests : List Request} (recovers : ∀ r ∈ requests, .rollback ∉ r.outage) :
    (s.after requests).Kept := by
  induction requests generalizing s with
  | nil => exact kept
  | cons r requests ih =>
    have first := kept.step (recovers r List.mem_cons_self)
    exact ih first fun r member => recovers r (List.mem_cons_of_mem _ member)

end Kept

/-- What callers may rely on: nothing is staged, the store holds the versions of the graphs in their
order, a graph that is loaded answers what the one that was kept does, and a call that fails changes
nothing as long as the rollback does not fail too. -/
structure Synced (s : Session) : Prop where
  settled : s.store.pending = ∅
  unknown : ∀ id, s.store.load id = .error (.documentNotFound id) ↔ (s.graphs id).nodes = []
  stored : ∀ id versions, s.store.load id = .ok versions →
    (s.graphs id).nodes.map Node.version = versions
  reloads : ∀ id versions, s.store.load id = .ok versions → ∀ config fresh, ∃ g,
    Repository.load config id fresh s.store = .ok g ∧
      Graph.InStep Marks.unnamed g (s.graphs id)
  unharmed : ∀ r, .rollback ∉ r.outage → ∀ e t, s.answer r = (.error e, t) →
    t = s.store ∧ s.step r = s

theorem Kept.synced {s : Session} (kept : s.Kept) : s.Synced where
  settled := kept.settled
  unknown id := by rw [Store.loadMissing, kept.logged, Graph.logNone]
  stored _ _ := kept.held
  reloads id versions loaded config fresh := by
    have tracked := (kept.reachable id).tracked
    obtain ⟨g, done, same⟩ := Graph.replayed tracked.ordered.placed config fresh (fresh + 1)
    rw [kept.held loaded] at done
    have grown := Graph.Reachable.commit (.empty config fresh) done
    exact ⟨g, loadGraph loaded done, Graph.inStep grown.tracked tracked same⟩
  unharmed _ recovers _ _ done := ⟨kept.failed recovers done, kept.failedStep recovers done⟩

theorem reloadsInStep (names : DocumentId → Nat) (requests : List Request)
    (recovers : ∀ r ∈ requests, .rollback ∉ r.outage) :
    ((start names).after requests).Synced := by
  have kept := (startKept names).after recovers
  exact kept.synced

def unlucky : Request :=
  { id := .ofNat 2, edit := .commit [.ofChanges 2 [] []], fresh := 2, outage := [.commit] }

def interruptions : List Request :=
  [{ id := .ofNat 1, edit := .write defaultBranch (.bool true) (.ofTime 1), fresh := 1 }, unlucky,
    { id := .ofNat 1, edit := .commit [.ofChanges 1 [] []], fresh := 3 },
    { id := .ofNat 1, edit := .commit [.ofChanges 3 [1] []], fresh := 4 }]

def interrupted : Session := (start fun _ => 0).after interruptions

theorem interruptedReloads : interrupted.store.pending = ∅ ∧
    interrupted.store.load (.ofNat 2) = .error (.documentNotFound (.ofNat 2)) ∧
    (∃ versions g, interrupted.store.load (.ofNat 1) = .ok versions ∧
      versions.map Version.revision = [.ofTime 1, .ofTime 3] ∧
      Repository.load {} (.ofNat 1) 5 interrupted.store = .ok g ∧
      Graph.InStep Marks.unnamed g (interrupted.graphs (.ofNat 1))) ∧
    ∃ e, interrupted.answer unlucky = (.error e, interrupted.store) := by
  have synced : interrupted.Synced := reloadsInStep (fun _ => 0) interruptions (by decide)
  refine ⟨synced.settled, (synced.unknown _).2 rfl, ?_, ?_⟩
  · obtain ⟨versions, loaded, listed⟩ : ∃ versions,
        interrupted.store.load (.ofNat 1) = .ok versions ∧
        versions.map Version.revision = [.ofTime 1, .ofTime 3] := ⟨_, rfl, rfl⟩
    obtain ⟨g, done, same⟩ := synced.reloads _ versions loaded {} 5
    exact ⟨versions, g, loaded, listed, done, same⟩
  · obtain ⟨e, t, failed⟩ : ∃ e t, interrupted.answer unlucky = (.error e, t) := ⟨_, _, rfl⟩
    obtain ⟨rfl, _⟩ := synced.unharmed unlucky (by decide) e t failed
    exact ⟨e, failed⟩

end Session
end Repository
end DocHistory
