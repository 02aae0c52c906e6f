import DocHistory.Proofs.PublishedVersions

/-! Runs of calls on a store. The first commit or rollback after an append decides what becomes of
the appended versions. The log of a document is what was appended to it and then committed, in the
order of the calls, so a log only grows; the store counts what is committed and what is staged. -/
namespace DocHistory

namespace VersionLogs

theorem totalExtendedAll (logs more : VersionLogs) :
    total (extendAll logs more) = total logs + total more := by
  have each : ∀ (es : List (DocumentId × List Version)) (logs : VersionLogs),
      total (es.foldl (fun logs e => extend logs e.1 e.2) logs) =
        total logs + (es.flatMap Prod.snd).length := by
    intro es
    induction es with
    | nil => exact fun logs => rfl
    | cons e es ih =>
      intro logs
      rw [List.foldl_cons, ih, totalExtended, List.flatMap_cons, List.length_append, Nat.add_assoc]
  rw [extendAll, each, ← totalLength]

structure AddsUp {α : Type} (op : α → α → α) (unit : α) (read : VersionLogs → α) : Prop where
  empty : read ∅ = unit
  extend : ∀ logs id versions,
    read (extend logs id versions) = op (read logs) (read (VersionLogs.extend ∅ id versions))
  extendAll : ∀ logs more, read (extendAll logs more) = op (read logs) (read more)

theorem logAddsUp (id : DocumentId) : AddsUp (· ++ ·) [] fun logs => log logs id where
  empty := rfl
  extend logs k versions := by
    rw [logExtend, logExtend]
    rfl
  extendAll logs more := logExtendAll logs more id

theorem totalAddsUp : AddsUp (· + ·) 0 total where
  empty := rfl
  extend logs id versions := by
    rw [totalExtended, totalExtend]
  extendAll := totalExtendedAll

end VersionLogs

namespace Store

inductive Call where
  | append (id : DocumentId) (versions : List Version)
  | commit
  | rollback

def perform (s : Store) : Call → Store
  | .append id versions => s.append id versions
  | .commit => s.commit
  | .rollback => s.rollback

def after (calls : List Call) : Store := calls.foldl perform .empty

inductive Fate where
  | staged
  | committed
  | discarded
  deriving DecidableEq

def fate : List Call → Fate
  | [] => .staged
  | .append _ _ :: later => fate later
  | .commit :: _ => .committed
  | .rollback :: _ => .discarded

def appended (f : Fate) : List Call → List (DocumentId × List Version)
  | [] => []
  | .append id versions :: later =>
    (if fate later = f then [(id, versions)] else []) ++ appended f later
  | _ :: later => appended f later

def appendedTo (id : DocumentId) (f : Fate) (calls : List Call) : List (List Version) :=
  ((appended f calls).filter fun e => e.1 = id).map Prod.snd

section
variable {α : Type} {op : α → α → α} {unit : α} [Std.Associative op] [Std.LawfulIdentity op unit]
  {read : VersionLogs → α}

def gathered (op : α → α → α) (unit : α) (read : VersionLogs → α) (f : Fate) (calls : List Call) :
    α :=
  ((appended f calls).map fun e => read (VersionLogs.extend ∅ e.1 e.2)).foldr op unit

theorem runAddsUp (adds : VersionLogs.AddsUp op unit read) (s : Store) (calls : List Call) :
    read (calls.foldl perform s).pending =
      op (if fate calls = .staged then read s.pending else unit)
        (gathered op unit read .staged calls) ∧
    read (calls.foldl perform s).committed =
      op (op (read s.committed) (if fate calls = .committed then read s.pending else unit))
        (gathered op unit read .committed calls) := by
  have left : ∀ a, op unit a = a := Std.LawfulLeftIdentity.left_id
  have right : ∀ a, op a unit = a := Std.LawfulRightIdentity.right_id
  have assoc : ∀ a b c, op (op a b) c = op a (op b c) := Std.Associative.assoc
  induction calls generalizing s with
  | nil => simp [gathered, appended, fate, right]
  | cons call later ih =>
    obtain ⟨pending, committed⟩ := ih (s.perform call)
    rw [List.foldl_cons, pending, committed]
    cases call with
    | append id versions =>
      have staged := adds.extend s.pending id versions
      cases decided : fate later <;>
        simp [perform, Store.append, gathered, appended, fate, decided, staged, left, right, assoc]
    | commit =>
      simp [perform, Store.commit, gathered, appended, fate, adds.empty, adds.extendAll, left,
        right]
    | rollback => simp [perform, Store.rollback, gathered, appended, fate, adds.empty, left, right]

end

theorem gatheredLog (id : DocumentId) (f : Fate) (calls : List Call) :
    gathered (· ++ ·) [] (fun logs => VersionLogs.log logs id) f calls =
      (appendedTo id f calls).flatten := by
  rw [gathered, appendedTo]
  induction appended f calls with
  | nil => rfl
  | cons e es ih =>
    rw [List.map_cons, List.foldr_cons, ih, VersionLogs.logExtend]
    by_cases same : id = e.1
    · simp [same, VersionLogs.log]
    · simp [same, Ne.symm same, VersionLogs.log]

theorem gatheredTotal (f : Fate) (calls : List Call) :
    gathered (· + ·) 0 VersionLogs.total f calls =
      ((appended f calls).flatMap Prod.snd).length := by
  rw [gathered, List.length_flatMap]
  simp only [VersionLogs.totalExtend]
  rfl

theorem runFilled {s : Store} (filled : s.committed.Filled) (calls : List Call) :
    (calls.foldl perform s).committed.Filled := by
  refine List.foldlRecOn (motive := fun s : Store => s.committed.Filled) _ _ filled
    fun s kept call _ => ?_
  cases call with
  | append id versions => exact kept
  | commit => exact kept.extendAll s.pending
  | rollback => exact kept

theorem runLog (s : Store) (calls : List Call) (id : DocumentId) :
    (calls.foldl perform s).committed.log id = s.committed.log id ++
      (if fate calls = .committed then s.pending.log id else []) ++
        (appendedTo id .committed calls).flatten := by
  rw [(runAddsUp (VersionLogs.logAddsUp id) s calls).2, gatheredLog]

theorem afterFilled (calls : List Call) : (after calls).committed.Filled :=
  runFilled (s := .empty) (fun _ found => nomatch found) calls

theorem afterLoads (calls : List Call) (id : DocumentId) :
    (after calls).load id = listing id (appendedTo id .committed calls).flatten := by
  rw [loadListing (afterFilled calls), after, runLog]
  split <;> rfl

theorem memDocuments {s : Store} (filled : s.committed.Filled) {id : DocumentId} :
    id ∈ s.documents ↔ ∃ versions, versions ≠ [] ∧ s.load id = .ok versions := by
  simp only [documents, SortedMap.memKeys, SortedMap.containsIff, loadOk]
  constructor
  · rintro ⟨versions, found⟩
    exact ⟨versions, fun absent => filled id (absent ▸ found), found⟩
  · rintro ⟨versions, _, found⟩
    exact ⟨versions, found⟩

theorem loadsGrow {s : Store} (filled : s.committed.Filled) {id : DocumentId}
    {versions : List Version} (loaded : s.load id = .ok versions) (later : List Call) :
    ∃ more, (later.foldl perform s).load id = .ok (versions ++ more) := by
  have found := loadOk.1 loaded
  have log : s.committed.log id = versions := by
    rw [VersionLogs.log, found]
    rfl
  rw [loadListing (runFilled filled later), runLog, log, List.append_assoc]
  obtain ⟨v, vs, rfl⟩ := List.exists_cons_of_ne_nil fun absent => filled id (absent ▸ found)
  exact ⟨_, rfl⟩

structure Records (calls : List Call) : Prop where
  loads : ∀ id, (after calls).load id = listing id (appendedTo id .committed calls).flatten
  grows : ∀ id versions, (after calls).load id = .ok versions →
    ∀ later, ∃ more, (after (calls ++ later)).load id = .ok (versions ++ more)
  documents : ∀ id, id ∈ (after calls).documents ↔
    ∃ versions, versions ≠ [] ∧ (after calls).load id = .ok versions
  ordered : (after calls).documents.Pairwise fun a b => compare a b = .lt
  staged : (after calls).pendingSize = ((appended .staged calls).flatMap Prod.snd).length
  committed : (after calls).size = ((appended .committed calls).flatMap Prod.snd).length

theorem recordsAppends (calls : List Call) : Records calls := by
  obtain ⟨staged, committed⟩ := runAddsUp VersionLogs.totalAddsUp .empty calls
  have absent : VersionLogs.total ∅ = 0 := rfl
  rw [gatheredTotal] at staged committed
  constructor
  · exact afterLoads calls
  · intro id versions loaded later
    obtain ⟨more, loads⟩ := loadsGrow (afterFilled calls) loaded later
    refine ⟨more, ?_⟩
    rwa [after, List.foldl_append]
  · exact fun id => memDocuments (afterFilled calls)
  · exact List.pairwise_map.2 (after calls).committed.ascending
  · rw [pendingSize, after, staged]
    simp [empty, absent]
  · rw [size, after, committed]
    simp [empty, absent]

example (id : DocumentId) : (after [.append id [], .commit]).documents = [] := rfl

end Store
end DocHistory
