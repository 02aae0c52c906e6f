import DocHistory.Store
import DocHistory.Proofs.BranchWrites
import DocHistory.Proofs.PublishedVersions
import DocHistory.Proofs.VersionWire

/-! Stores read back from their text. Written documents leave versions whose paths and values have
texts, as long as their numbers do. So the restored store has the same logs, but for nulls: it shows
a version as it was exactly if the version writes no null. -/
namespace DocHistory

namespace Json

theorem Leads.named {a : Json} {steps : List Segment} (leads : Leads a steps) :
    Path.Named ⟨steps⟩ := by
  induction leads with
  | here => exact List.forall_mem_nil _
  | item i _ ih => exact List.forall_mem_cons.2 ⟨nofun, ih⟩
  | member name _ ih =>
    refine List.forall_mem_cons.2 ⟨fun unnamed => ?_, ih⟩
    rw [memberStep] at unnamed
    split at unnamed
    · cases unnamed
    · rename_i filled
      cases unnamed
      exact filled rfl

end Json

namespace Value

def Legible (d : Value) : Prop := ∀ leaf ∈ d.json.leaves, ∀ n, leaf.2 = .number n → n.Legible

def NullFree (d : Value) : Prop := ∀ leaf ∈ d.json.leaves, leaf.1 ≠ [] → leaf.2 ≠ .null

theorem flattenLeaf {d a : Value} {path : Path} (found : d.flatten.get? path = some a) :
    (path.segments, a) ∈ d.json.leaves := by
  obtain ⟨leaf, listed, same⟩ := List.mem_map.1 ((Json.memOutline _ _).1 (flattenFound found).2)
  obtain ⟨steps, value⟩ := Prod.mk.inj same
  rwa [← steps, ← Value.ext value]

theorem flattenLeads {d a : Value} {path : Path} (found : d.flatten.get? path = some a) :
    Json.Leads a.json path.segments :=
  Json.outlineLeads d.json _ (flattenFound found).2

theorem NullFree.flatten {d : Value} (free : d.NullFree) (path : Path) :
    d.flatten.get? path ≠ some .null := by
  intro found
  by_cases root : path.segments = []
  · have shown := flattenRoot (List.isEmpty_iff.2 root) found
    cases shown
  · exact free _ (flattenLeaf found) root rfl

theorem changesEntry {previous next : Value} {e : Path × Option Value}
    (listed : e ∈ (previous.changes next).entries) : e.1.Named ∧
      ∀ a, e.2 = some a → next.flatten.get? e.1 = some a := by
  have changed := SortedMap.getIff.2 listed
  rw [changesGet] at changed
  split at changed
  · cases changed
  · rename_i different
    have written : next.flatten.get? e.1 = e.2 := Option.some.inj changed
    refine ⟨?_, fun a value => written.trans value⟩
    -- One of the two documents has a leaf at the path.
    cases after : next.flatten.get? e.1 with
    | some a => exact (flattenLeads after).named
    | none =>
      cases before : previous.flatten.get? e.1 with
      | some a => exact (flattenLeads before).named
      | none => exact absurd (by rw [before, after]; rfl) different

end Value

namespace Version

structure Writable (depth : Nat) (v : Version) : Prop where
  named : v.Named
  values : ∀ e ∈ v.changeset.entries, Wire.Legible (depth + 1) (writeToWire e.2)

theorem changesWritable {v : Version} {previous next : Value}
    (changes : v.changeset = previous.changes next) (legible : next.Legible) (depth : Nat) :
    v.Writable depth := by
  have leaf : ∀ e ∈ v.changeset.entries, e.1.Named ∧
      ∀ a, e.2 = some a → next.flatten.get? e.1 = some a := by
    rw [changes]
    exact fun _ => Value.changesEntry
  refine ⟨fun e listed => (leaf e listed).1, fun e listed => ?_⟩
  cases value : e.2 with
  | none => exact .null _
  | some a =>
    have found := (leaf e listed).2 a value
    exact (Value.flattenLeads found).bare.legible (fun n number =>
      legible _ (Value.flattenLeaf found) n (Value.ext number)) depth

theorem changesNullFree {v : Version} {previous next : Value}
    (changes : v.changeset = previous.changes next) (free : next.NullFree) : ¬ v.WritesNull := by
  rintro ⟨path, writes⟩
  rw [changes] at writes
  exact free.flatten path ((Value.changesEntry (SortedMap.getIff.1 writes)).2 _ rfl)

end Version

namespace Store

def forgetNulls (s : Store) : Store where
  committed := s.committed.filterMap fun _ versions => some (versions.map Version.forgetNulls)

/-- A text nests 127 deep, of which the logs, the list of a document, a version, its changeset and a
value take five. -/
theorem dumpRead {s : Store} (writable : ∀ id versions, s.load id = .ok versions →
    ∀ v ∈ versions, v.Writable 122) : restore s.dump = .ok s.forgetNulls := by
  have own : ∀ e ∈ s.committed.entries, ∀ v ∈ e.2, v.Writable 122 := fun e listed =>
    writable e.1 e.2 (loadOk.2 (SortedMap.getIff.2 listed))
  have legible : Wire.Legible 127 s.toWire := by
    refine .record fun m listed => ?_
    obtain ⟨e, member, rfl⟩ := List.mem_map.1 listed
    refine .list fun w listed => ?_
    obtain ⟨v, version, rfl⟩ := List.mem_map.1 listed
    exact Version.wireLegible (own e member v version).values
  have keys : ∀ e ∈ s.committed.entries, DocumentId.ofKey e.1.text = .ok e.1 := by
    intro e _
    rw [DocumentId.ofKey, DocumentId.textRead]
    rfl
  have logs : s.toWire.asMap DocumentId.ofKey (Wire.asList Version.ofWire) =
      .ok s.forgetNulls.committed :=
    Wire.entriesRead (fun versions => .list (versions.map Version.toWire))
      (List.map Version.forgetNulls) keys fun e listed =>
        Wire.itemsRead fun v member => Version.wireRead (own e listed v member).named
  have read : ofWire s.toWire = .ok s.forgetNulls := by
    rw [ofWire, logs]
    rfl
  rw [restore, dump, Wire.decode, Wire.renderRead legible]
  dsimp only
  rw [read]
  rfl

theorem forgetNullsLoad (s : Store) (id : DocumentId) :
    s.forgetNulls.load id = (s.load id).map (List.map Version.forgetNulls) := by
  have mapped := SortedMap.mapGet (List.map Version.forgetNulls) s.committed id
  rw [load, load, forgetNulls, mapped]
  cases s.committed.get? id <;> rfl

theorem forgetNullsDocuments (s : Store) : s.forgetNulls.documents = s.documents := by
  have listed : ∀ es : List (DocumentId × List Version), (es.filterMap fun e =>
      (some (e.2.map Version.forgetNulls)).map fun versions => (e.1, versions)).map Prod.fst =
        es.map Prod.fst := by
    intro es
    induction es with
    | nil => rfl
    | cons e es ih => exact congrArg (e.1 :: ·) ih
  exact listed s.committed.entries

theorem loadsSame {s t : Store} (loads : ∀ id, s.load id = t.load id) :
    s.committed = t.committed := by
  apply SortedMap.extGet
  intro id
  apply Option.ext
  intro versions
  rw [← loadOk, ← loadOk, loads]

def WritesNull (s : Store) (id : DocumentId) : Prop :=
  ∃ versions, s.load id = .ok versions ∧ ∃ v ∈ versions, v.WritesNull

theorem forgetNullsSame {s : Store} {id : DocumentId} :
    s.forgetNulls.load id = s.load id ↔ ¬ s.WritesNull id := by
  rw [forgetNullsLoad]
  cases loaded : s.load id with
  | error e =>
    refine iff_of_true rfl ?_
    rintro ⟨versions, found, _⟩
    rw [loaded] at found
    cases found
  | ok versions =>
    have each : versions.map Version.forgetNulls = versions.map (fun v => v) ↔
        ∀ v ∈ versions, v.forgetNulls = v := List.map_inj_left
    simp only [List.map_id', Version.forgetNullsSame] at each
    have whole : Except.map (List.map Version.forgetNulls) (.ok versions : Except StoreError _) =
        .ok versions ↔ versions.map Version.forgetNulls = versions :=
      ⟨fun same => Except.ok.inj same, congrArg Except.ok⟩
    rw [whole, each, WritesNull]
    constructor
    · rintro none ⟨_, found, v, listed, writes⟩
      cases found.symm.trans loaded
      exact none v listed writes
    · exact fun absent v listed writes => absent ⟨versions, loaded, v, listed, writes⟩

end Store

namespace Repository

def reread (config : Config) (id : DocumentId) (fresh : Nat) (branches : List String) (s : Store) :
    Except StoreError Value := do
  let g ← load config id fresh s
  read g branches

structure Restored (s t : Store) : Prop where
  settled : t.pending = ∅
  documents : t.documents = s.documents
  loads : ∀ id, t.load id = (s.load id).map (List.map Version.forgetNulls)
  same : ∀ id, t.load id = s.load id ↔ ¬ s.WritesNull id
  reads : ∀ id, ¬ s.WritesNull id → ∀ config fresh branches,
    reread config id fresh branches t = reread config id fresh branches s

theorem restoredForgets (s : Store) : Restored s s.forgetNulls where
  settled := rfl
  documents := s.forgetNullsDocuments
  loads := s.forgetNullsLoad
  same _ := Store.forgetNullsSame
  reads id none config fresh branches := by
    rw [reread, load, Store.forgetNullsSame.2 none]
    rfl

theorem reviseChanges {branch : String} {parents : List Revision}
    {merged : Except GraphError Merge} {next : Value} {revision : Revision} {v : Version}
    (revised : revise branch parents merged next revision = .ok (some v)) :
    ∃ previous : Value, v.changeset = previous.changes next := by
  cases shows : document merged with
  | error e =>
    rw [revise, shows] at revised
    cases revised
  | ok previous =>
    rw [reviseShown shows] at revised
    split at revised
    · cases revised
    · split at revised
      · cases revised
      · split at revised
        · cases revised
        · cases revised
          exact ⟨previous, rfl⟩

namespace Submission

def Writes (c : Submission) (next : Value) : Prop :=
  ∃ branch revision, c.edit = .write branch next revision

def Legible (c : Submission) : Prop := ∃ next : Value, c.Writes next ∧ next.Legible

theorem writtenChanges {c : Submission} {next : Value} (writes : c.Writes next) {v : Version}
    (added : v ∈ c.versions) : ∃ previous : Value, v.changeset = previous.changes next := by
  obtain ⟨branch, revision, edit⟩ := writes
  rw [versions, planned, edit] at added
  dsimp only at added
  -- Whatever the cache answers, some document is revised.
  obtain ⟨parents, merged, answer⟩ : ∃ parents merged,
      ((Cache.reviseDocument c.graph branch next revision).run c.cache).1 =
        revise branch parents merged next revision := ⟨_, _, rfl⟩
  rw [answer] at added
  cases revised : revise branch parents merged next revision with
  | error e =>
    rw [revised] at added
    cases added
  | ok version? =>
    rw [revised] at added
    obtain rfl := Option.mem_toList.1 added
    exact reviseChanges revised

end Submission

theorem surfacedFrom {id : DocumentId} {calls : List Submission} {v : Version}
    (shown : v ∈ surfaced id calls) : ∃ c ∈ calls, v ∈ c.versions := by
  induction calls with
  | nil => cases shown
  | cons c calls ih =>
    rcases List.mem_append.1 shown with own | later
    · split at own
      · rw [Submission.versionsFor] at own
        split at own
        · exact ⟨c, List.mem_cons_self, own⟩
        · cases own
      · cases own
    · obtain ⟨d, member, added⟩ := ih later
      exact ⟨d, List.mem_cons_of_mem _ member, added⟩

theorem loadedFrom {id : DocumentId} {calls : List Submission} {versions : List Version}
    (loaded : (after .empty calls).load id = .ok versions) {v : Version} (listed : v ∈ versions) :
    ∃ c ∈ calls, v ∈ c.versions := by
  rw [loadsSurfaced] at loaded
  have shown : v ∈ surfaced id calls := by
    generalize surfaced id calls = shown at loaded
    cases shown with
    | nil => cases loaded
    | cons w shown =>
      cases loaded
      exact listed
  exact surfacedFrom shown

section
variable {calls : List Submission} (written : ∀ c ∈ calls, c.Legible)
include written

theorem writtenFrom {id : DocumentId} {versions : List Version}
    (loaded : (after .empty calls).load id = .ok versions) {v : Version} (listed : v ∈ versions) :
    ∃ c ∈ calls, ∃ previous next : Value, c.Writes next ∧ next.Legible ∧
      v.changeset = previous.changes next := by
  obtain ⟨c, member, added⟩ := loadedFrom loaded listed
  obtain ⟨next, writes, legible⟩ := written c member
  obtain ⟨previous, changes⟩ := Submission.writtenChanges writes added
  exact ⟨c, member, previous, next, writes, legible, changes⟩

theorem writtenRead : Store.restore (after .empty calls).dump =
    .ok (after .empty calls).forgetNulls := by
  refine Store.dumpRead fun id versions loaded v listed => ?_
  obtain ⟨_, _, _, _, _, legible, changes⟩ := writtenFrom written loaded listed
  exact Version.changesWritable changes legible 122

theorem writtenNullFree (free : ∀ c ∈ calls, ∀ next, c.Writes next → next.NullFree)
    (id : DocumentId) : ¬ (after .empty calls).WritesNull id := by
  rintro ⟨versions, loaded, v, listed, null⟩
  obtain ⟨c, member, _, next, writes, _, changes⟩ := writtenFrom written loaded listed
  exact Version.changesNullFree changes (free c member next writes) null

end

theorem dumpRestores (calls : List Submission) (written : ∀ c ∈ calls, c.Legible) :
    ∃ t, Store.restore (after .empty calls).dump = .ok t ∧ Restored (after .empty calls) t ∧
      ((∀ c ∈ calls, ∀ next, c.Writes next → next.NullFree) →
        t.committed = (after .empty calls).committed) := by
  refine ⟨_, writtenRead written, restoredForgets _, fun free => Store.loadsSame fun id => ?_⟩
  exact Store.forgetNullsSame.2 (writtenNullFree written free id)

def nulling : Submission :=
  { id := .ofNat 1, edit := .write defaultBranch (.object [("x", .null)]) (.ofTime 1), fresh := 1,
    graph := Graph.empty {} 0 }

theorem nullingLegible : nulling.Legible :=
  ⟨.object [("x", .null)], ⟨_, _, rfl⟩, List.forall_mem_singleton.2 nofun⟩

/-- The restored store has a deletion instead, and shows null instead of the document. -/
theorem nullForgotten : (nulling.answer .empty).1.toOption.isSome = true ∧
    ∃ t, Store.restore (after .empty [nulling]).dump = .ok t ∧
      t.load (.ofNat 1) ≠ (after .empty [nulling]).load (.ofNat 1) ∧
      reread {} (.ofNat 1) 1 [defaultBranch] (after .empty [nulling]) =
        .ok (.object [("x", .null)]) ∧
      reread {} (.ofNat 1) 1 [defaultBranch] t = .ok .null := by
  have written : ∀ c ∈ [nulling], c.Legible := List.forall_mem_singleton.2 nullingLegible
  refine ⟨rfl, _, writtenRead written, fun same => ?_, rfl, rfl⟩
  have writes : (after .empty [nulling]).WritesNull (.ofNat 1) :=
    ⟨_, rfl, _, List.mem_singleton_self _, Path.root.property "x", rfl⟩
  exact Store.forgetNullsSame.1 same writes

def scoring : Submission :=
  { id := .ofNat 2, edit := .write defaultBranch (.object [("x", .number (.int 1))]) (.ofTime 2),
    fresh := 2, graph := Graph.empty {} 0 }

theorem scoringLegible : scoring.Legible := by
  refine ⟨.object [("x", .number (.int 1))], ⟨_, _, rfl⟩, List.forall_mem_singleton.2 ?_⟩
  intro n number
  cases number
  exact ⟨by decide, by decide⟩

theorem scoreRestored : (∀ c ∈ [nulling, scoring], c.Legible) ∧
    ∃ t, Store.restore (after .empty [nulling, scoring]).dump = .ok t ∧
      t.load (.ofNat 2) = (after .empty [nulling, scoring]).load (.ofNat 2) ∧
      reread {} (.ofNat 2) 2 [defaultBranch] t = .ok (.object [("x", .number (.int 1))]) := by
  have written : ∀ c ∈ [nulling, scoring], c.Legible :=
    List.forall_mem_cons.2 ⟨nullingLegible, List.forall_mem_singleton.2 scoringLegible⟩
  obtain ⟨t, read, restored, _⟩ := dumpRestores [nulling, scoring] written
  have quiet : ¬ (after .empty [nulling, scoring]).WritesNull (.ofNat 2) := by
    rintro ⟨_, loaded, v, listed, path, writes⟩
    cases loaded
    cases List.mem_singleton.1 listed
    cases List.mem_singleton.1 (SortedMap.getIff.1 writes)
  exact ⟨written, t, read, (restored.same _).2 quiet, (restored.reads _ quiet _ _ _).trans rfl⟩

end Repository
end DocHistory
