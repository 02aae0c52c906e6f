import DocHistory.Proofs.BranchWrites
import DocHistory.Proofs.CacheTransparency
import DocHistory.Proofs.ShownLeaves

/-! Documents that are written to a branch and read again, through the cache. Reading goes by the
heads of the branch, writing by its newest nodes. These are the same unless the branch is retired:
then it reads as null, and a document that its newest nodes show already adds no version that would
change this. -/
namespace DocHistory
open Node

theorem okMapError {ε ε' α : Type} {x : Except ε α} {f : ε → ε'} {a : α} :
    x.mapError f = .ok a ↔ x = .ok a := by
  cases x <;> simp [Except.mapError]

/-- When a document that is written is what the branch is read as: if its changes leave properties
that present it. A retired branch needs changes for that, unless the document is null. -/
structure Graph.Renews (g : Graph) (branch : String) (m : Properties) (previous next : Value) :
    Prop where
  presents : (m.apply (previous.changes next)).Presents next.json
  shows : g.isRetired branch = true → (previous == next) = true → next = .null

namespace Repository

theorem shownOk {ns : List Node} {d : Value} :
    shown ns = .ok d ↔ Properties.assemble (joined ns).properties = .ok d := okMapError

def written (g : Graph) (branch : String) (previous next : Value) : Except StoreError Value :=
  if (previous.changes next).isEmpty then shown (g.heads branch)
  else (Properties.assemble (Properties.apply (joined (g.frontier branch)).properties
    (previous.changes next))).mapError .oversizedIndex

theorem writtenChanged {g : Graph} {branch : String} {previous next d : Value}
    (changed : (previous.changes next).isEmpty = false) :
    written g branch previous next = .ok d ↔ Properties.assemble (Properties.apply
      (joined (g.frontier branch)).properties (previous.changes next)) = .ok d := by
  rw [written, changed, if_neg Bool.false_ne_true, okMapError]

section
variable {g : Graph} {branch : String} {previous next : Value}
  (assembled : Properties.assemble (joined (g.frontier branch)).properties = .ok previous)

include assembled in
theorem writtenActive (quiet : (previous.changes next).isEmpty = true)
    (active : g.isRetired branch = false) : written g branch previous next = .ok previous := by
  rw [written, quiet, if_pos rfl, ← Graph.frontierActive active]
  exact shownOk.2 assembled

theorem writtenRetired (quiet : (previous.changes next).isEmpty = true)
    (retired : g.isRetired branch = true) : written g branch previous next = .ok .null := by
  rw [written, quiet, if_pos rfl, Graph.retiredHeads retired]
  rfl

include assembled in
theorem changedSized (short : next.json.Short) :
    ∀ e ∈ (Properties.apply (joined (g.frontier branch)).properties
      (previous.changes next)).entries, e.1.oversized? = none := by
  intro e listed
  have held := SortedMap.getIff.2 listed
  rw [Properties.applyGet, Value.changesGet] at held
  split at held
  · rename_i written found
    split at found
    · cases found
    · cases found
      exact Json.outlineFits next.json short _ (Value.flattenFound held).2
  · exact (Properties.assembleOk.1 assembled).1 e (SortedMap.getIff.1 held)

include assembled in
theorem writtenIff (short : next.json.Short) :
    (∃ d, written g branch previous next = .ok d ∧ (d == next) = true) ↔
      g.Renews branch (joined (g.frontier branch)).properties previous next := by
  have quiet : (previous.changes next).isEmpty = true ↔ (previous == next) = true :=
    Value.changesNone short
  cases changed : (previous.changes next).isEmpty with
  | true =>
    have same := quiet.1 changed
    have presents : (Properties.apply (joined (g.frontier branch)).properties
        (previous.changes next)).Presents next.json := by
      rw [Properties.apply, List.isEmpty_iff.1 changed, List.foldl_nil, ← Properties.builtAlike short,
        (Properties.assembleOk.1 assembled).2]
      exact same
    cases retired : g.isRetired branch with
    | true =>
      rw [writtenRetired changed retired]
      constructor
      · rintro ⟨_, ⟨⟩, null⟩
        exact ⟨presents, fun _ _ => Value.ext (Json.likeNull (PartialEquivBEq.symm null))⟩
      · intro renews
        rw [renews.shows retired same]
        exact ⟨.null, rfl, BEq.rfl⟩
    | false =>
      rw [writtenActive assembled changed retired]
      refine iff_of_true ⟨previous, rfl, same⟩ ⟨presents, fun closed => ?_⟩
      rw [retired] at closed
      cases closed
  | false =>
    have apart : (previous == next) = false := Bool.eq_false_iff.2 fun same =>
      Bool.eq_false_iff.1 changed (quiet.2 same)
    simp only [writtenChanged changed, Properties.assembleOk]
    constructor
    · rintro ⟨_, ⟨_, rfl⟩, same⟩
      refine ⟨(Properties.builtAlike short).1 same, fun _ same => ?_⟩
      rw [apart] at same
      cases same
    · intro renews
      exact ⟨_, ⟨changedSized assembled short, rfl⟩, (Properties.builtAlike short).2 renews.presents⟩

end

end Repository

namespace Cache
variable {nodes : List Node} (identified : Identified nodes) {g : Graph} (sub : g.nodes ⊆ nodes)
include identified sub

theorem readsDocument (tracked : g.Tracked) (branches : List String) :
    Reads nodes (readDocument g branches) (Repository.read g branches) :=
  readsBind (readsMergeBranches identified sub tracked.heads branches) (readsPure _)

theorem readsWrite (outage : Outage) (id : DocumentId) (branch : String) (next : Value)
    (revision : Revision) (fresh : Nat) (s : Store) :
    Reads nodes (writeDocument outage id g branch next revision fresh s)
      (Repository.write outage id g branch next revision fresh s) :=
  readsBind (readsFrontier identified sub branch)
    (readsBind (readsMergeRevisions identified sub _) (readsPure _))

end Cache

namespace Lineage

namespace Sound
variable {s : Lineage} (sound : s.Sound) {g : Graph} (member : g ∈ s.graphs) {branch : String}
include sound member

theorem reads {d : Except StoreError Value} {c : Cache}
    (read : (Cache.readDocument g [branch]).run s.cache = (d, c)) :
    d = Repository.shown (g.heads branch) ∧ Sound { s with cache := c } := by
  have answered := Cache.readsDocument sound.identified (nodesOf member) (sound.tracked g member)
    [branch] s.cache sound.coherent
  rw [read, Repository.readShown] at answered
  exact ⟨answered.1, sound.tracked, sound.single, sound.below, answered.2⟩

variable {outage : Outage} {id : DocumentId} {next : Value} {revision : Revision} {store : Store}

theorem write : ((Cache.writeDocument outage id g branch next revision s.fresh store).run
    s.cache).1 = Repository.write outage id g branch next revision s.fresh store :=
  (Cache.readsWrite sound.identified (nodesOf member) outage id branch next revision s.fresh store
    s.cache sound.coherent).1

theorem writes {h : Graph} {t : Store} {c : Cache}
    (done : (Cache.writeDocument outage id g branch next revision s.fresh store).run s.cache =
      ((.ok h, t), c)) : Sound ⟨s.graphs ++ [h], c, s.fresh + 1⟩ := by
  have tracked := sound.tracked g member
  have below : ∀ n ∈ g.nodes, n.id < s.fresh := fun n inside => sound.below n (nodesOf member inside)
  have answered := Cache.readsWrite sound.identified (nodesOf member) outage id branch next revision
    s.fresh store s.cache sound.coherent
  rw [done] at answered
  have warm : Sound { s with cache := c } :=
    ⟨sound.tracked, sound.single, sound.below, answered.2⟩
  obtain ⟨previous, _, ⟨_, rfl, _⟩ | ⟨_, extended⟩⟩ := Repository.writeOk tracked answered.1.symm
  · refine warm.grow member tracked ⟨fun n inside => .inl inside, fun a ha _ _ late _ => ?_⟩
    exact absurd (below a ha) (Nat.not_lt.2 late)
  · have committed : (Change.commit _).apply g s.fresh = .ok h := extended
    exact warm.grow member (Graph.commitTracked tracked extended) (Change.grows below committed)

theorem readsWritten {previous : Value} (shows : Repository.shown (g.frontier branch) = .ok previous)
    {h : Graph} {t : Store} {c : Cache}
    (done : (Cache.writeDocument outage id g branch next revision s.fresh store).run s.cache =
      ((.ok h, t), c)) :
    ((Cache.readDocument h [branch]).run c).1 = Repository.written g branch previous next := by
  have tracked := sound.tracked g member
  have after := sound.writes member done
  have last : h ∈ s.graphs ++ [h] := List.mem_append_right _ (List.mem_singleton_self h)
  have answer : ((Cache.readDocument h [branch]).run c).1 = Repository.shown (h.heads branch) :=
    (after.reads last rfl).1
  obtain ⟨before, shown, outcome⟩ := Repository.writeOk tracked
    ((sound.write member).symm.trans (congrArg Prod.fst done))
  cases shows.symm.trans shown
  rw [answer, Repository.written]
  rcases outcome with ⟨quiet, rfl, _⟩ | ⟨changed, extended⟩
  · rw [quiet, if_pos rfl]
  · obtain ⟨n, continues, version⟩ := Graph.revisedContinues tracked extended
    have named : n.branch = branch := congrArg Version.branch version
    have changeset : n.changeset = previous.changes next := congrArg Version.changeset version
    subst named
    rw [changed, if_neg Bool.false_ne_true, Repository.shown,
      continues.shows tracked (after.tracked h last), changeset]

theorem writeSucceeds {previous : Value} (shows : Repository.shown (g.frontier branch) = .ok previous)
    (named : branch.isEmpty = false) (new : g.contains revision = false) (id : DocumentId)
    (next : Value) (store : Store) : ∃ h t c,
    (Cache.writeDocument [] id g branch next revision s.fresh store).run s.cache =
      ((.ok h, t), c) := by
  have tracked := sound.tracked g member
  have succeeds : ∃ h t, Repository.write [] id g branch next revision s.fresh store = (.ok h, t) := by
    rw [Repository.writeShown tracked shows, if_neg (Graph.frontierFree tracked new branch), named]
    split
    · exact ⟨g, store, rfl⟩
    · obtain ⟨h, _, extended, _⟩ :=
        Graph.commitRevised tracked new branch (previous.changes next) s.fresh
      exact ⟨h, _, Repository.commitStores extended⟩
  obtain ⟨h, t, answer⟩ := succeeds
  exact ⟨h, t, _, Prod.ext ((sound.write member).trans answer) rfl⟩

end Sound

def Returns (s : Lineage) (g : Graph) (branch : String) (revision : Revision) (next : Value) : Prop :=
  ∀ outage id store h t c,
    (Cache.writeDocument outage id g branch next revision s.fresh store).run s.cache =
      ((.ok h, t), c) →
    ∃ d, ((Cache.readDocument h [branch]).run c).1 = .ok d ∧ (d == next) = true

theorem writtenReads (config : Config) (calls : List Call) {g : Graph}
    (member : g ∈ ((start config).after calls).graphs) (branch : String) (revision : Revision) :
    ∃ m, Graph.mergeNodes (g.frontier branch) = .ok m ∧
      match Properties.assemble m.properties with
      | .error e => ∀ outage id next store,
          ((Cache.writeDocument outage id g branch next revision ((start config).after calls).fresh
            store).run ((start config).after calls).cache).1 = (.error (.oversizedIndex e), store)
      | .ok previous => ∀ next : Value, next.json.Short →
          (g.Renews branch m.properties previous next →
            ((start config).after calls).Returns g branch revision next) ∧
          (branch.isEmpty = false → g.contains revision = false →
            ((start config).after calls).Returns g branch revision next →
              g.Renews branch m.properties previous next) := by
  have sound := (startSound config).after calls
  generalize (start config).after calls = s at *
  have tracked := sound.tracked g member
  obtain ⟨m, merged, held⟩ : ∃ m, Graph.mergeNodes (g.frontier branch) = .ok m ∧
      m.properties = (joined (g.frontier branch)).properties := ⟨_, Graph.mergeNodesOk _, rfl⟩
  refine ⟨m, merged, ?_⟩
  rw [held]
  cases assembled : Properties.assemble (joined (g.frontier branch)).properties with
  | error e =>
    intro outage id next store
    have hidden : Repository.shown (g.frontier branch) = .error (.oversizedIndex e) := by
      rw [Repository.shown, assembled]
      rfl
    rw [sound.write member]
    exact Repository.writeHidden tracked hidden outage id next revision s.fresh store
  | ok previous =>
    have shows := Repository.shownOk.2 assembled
    intro next short
    constructor
    · intro renews outage id store h t c done
      obtain ⟨d, written, same⟩ := (Repository.writtenIff assembled short).2 renews
      exact ⟨d, (sound.readsWritten member shows done).trans written, same⟩
    · intro named new returns
      obtain ⟨h, t, c, done⟩ := sound.writeSucceeds member shows named new (.ofNat 0) next .empty
      obtain ⟨d, read, same⟩ := returns _ _ _ _ _ _ done
      exact (Repository.writtenIff assembled short).1
        ⟨d, (sound.readsWritten member shows done).symm.trans read, same⟩

def newest (s : Lineage) : Graph := s.graphs.getLastD (Graph.empty {} 0)

def flag (value : Bool) : Value := .object [("x", .bool value)]

def shaded : Lineage :=
  (start {}).after [.make 0 (.commit [.ofChanges 1 [] [(⟨[.index 1]⟩, some (.bool true)),
    (⟨[.index 1, .property "x"]⟩, some (.bool true))]])]

theorem shadedWritten : newest shaded ∈ shaded.graphs ∧ ∃ h t c,
    (Cache.writeDocument [] (.ofNat 1) (newest shaded) defaultBranch (.array [.null, flag false])
      (.ofTime 3) shaded.fresh .empty).run shaded.cache = ((.ok h, t), c) ∧
    ∃ d, ((Cache.readDocument h [defaultBranch]).run c).1 = .ok d ∧
      (d == .array [.null, flag false]) = true := by
  have member : newest shaded ∈ shaded.graphs := List.mem_of_getLast? rfl
  obtain ⟨h, t, c, done⟩ : ∃ h t c, (Cache.writeDocument [] (.ofNat 1) (newest shaded)
      defaultBranch (.array [.null, flag false]) (.ofTime 3) shaded.fresh .empty).run
        shaded.cache = ((.ok h, t), c) := ⟨_, _, _, rfl⟩
  have short : (Value.array [.null, flag false]).json.Short := by decide
  obtain ⟨m, merged, outcome⟩ := writtenReads {} _ member defaultBranch (.ofTime 3)
  rw [Graph.mergeNodesOk] at merged
  have assembled : Properties.assemble m.properties = .ok (.array [.null, flag true]) := by
    cases merged
    rfl
  have renews : (newest shaded).Renews defaultBranch m.properties (.array [.null, flag true])
      (.array [.null, flag false]) := by
    refine ⟨(Properties.builtAlike short).1 ?_, nofun⟩
    cases merged
    rfl
  rw [assembled] at outcome
  exact ⟨member, h, t, c, done, (outcome _ short).1 renews _ _ _ _ _ _ done⟩

def forsaken : Lineage :=
  (start {}).after [.make 0 (.commit [.ofChanges 1 [] [(.ofName "x", some (.bool true))],
    { Version.ofChanges 2 [1] [] with branch := "draft" }])]

def holed : Lineage :=
  (start {}).after [.make 0 (.commit [.ofChanges 1 [] [(⟨[.index 1]⟩, some (.bool true))]])]

/-- The newest nodes of a retired branch show the document already; and an array does not keep a null
that nobody wrote when the values after it are deleted. -/
theorem writtenUnread :
    (∃ g ∈ forsaken.graphs, ∃ h t c,
      (Cache.writeDocument [] (.ofNat 1) g defaultBranch (flag true) (.ofTime 3) forsaken.fresh
        .empty).run forsaken.cache = ((.ok h, t), c) ∧
      ((Cache.readDocument h [defaultBranch]).run c).1 = .ok .null) ∧
    ∃ g ∈ holed.graphs, ∃ h t c,
      (Cache.writeDocument [] (.ofNat 1) g defaultBranch (.array [.null]) (.ofTime 3) holed.fresh
        .empty).run holed.cache = ((.ok h, t), c) ∧
      ((Cache.readDocument h [defaultBranch]).run c).1 = .ok .null := by
  refine ⟨⟨newest forsaken, List.mem_of_getLast? rfl, _, _, _, rfl, rfl⟩,
    ⟨newest holed, List.mem_of_getLast? rfl, _, _, _, rfl, rfl⟩⟩

theorem writtenBack (config : Config) (calls : List Call) {g : Graph}
    (member : g ∈ ((start config).after calls).graphs) {branch : String} {d : Value} {c : Cache}
    (read : (Cache.readDocument g [branch]).run ((start config).after calls).cache = (.ok d, c))
    (outage : Outage) (id : DocumentId) (revision : Revision) (store : Store) :
    ∃ m, Graph.mergeNodes (g.frontier branch) = .ok m ∧
      (((Cache.writeDocument outage id g branch d revision ((start config).after calls).fresh
        store).run c).1 = (.ok g, store) ↔
          (g.isRetired branch = true → Properties.assemble m.properties = .ok .null)) ∧
      (g.isRetired branch = true → d = .null) := by
  have sound := (startSound config).after calls
  have tracked := sound.tracked g member
  obtain ⟨shows, warm⟩ := sound.reads member read
  have answer : ((Cache.writeDocument outage id g branch d revision
      ((start config).after calls).fresh store).run c).1 =
        Repository.write outage id g branch d revision ((start config).after calls).fresh store :=
    warm.write member
  have retiredNull : g.isRetired branch = true → d = .null := by
    intro retired
    rw [Graph.retiredHeads retired] at shows
    cases shows
    rfl
  refine ⟨_, Graph.mergeNodesOk _, ?_, retiredNull⟩
  rw [answer]
  change _ ↔ (_ → Properties.assemble (joined (g.frontier branch)).properties = .ok .null)
  rw [← Repository.shownOk]
  constructor
  · intro done retired
    obtain rfl := retiredNull retired
    obtain ⟨previous, before, ⟨quiet, _⟩ | ⟨_, extended⟩⟩ := Repository.writeOk tracked done
    · exact Value.changesNull quiet ▸ before
    · obtain ⟨n, continues, _⟩ := Graph.revisedContinues tracked extended
      exact absurd continues.nodes.symm (by simp)
  · intro nothing
    have before : Repository.shown (g.frontier branch) = .ok d := by
      cases retired : g.isRetired branch with
      | true => exact retiredNull retired ▸ nothing retired
      | false => exact Graph.frontierActive retired ▸ shows.symm
    rw [Repository.writeShown tracked before, if_pos (Value.changesSame d)]

theorem forsakenKept : ∃ c,
    (Cache.readDocument (newest forsaken) ["draft"]).run forsaken.cache = (.ok (flag true), c) ∧
    ((Cache.writeDocument [] (.ofNat 1) (newest forsaken) "draft" (flag true) (.ofTime 3)
      forsaken.fresh .empty).run c).1 = (.ok (newest forsaken), .empty) := by
  have member : newest forsaken ∈ forsaken.graphs := List.mem_of_getLast? rfl
  obtain ⟨c, read⟩ : ∃ c, (Cache.readDocument (newest forsaken) ["draft"]).run forsaken.cache =
      (.ok (flag true), c) := ⟨_, rfl⟩
  obtain ⟨_, _, same, _⟩ := writtenBack {} _ member read [] (.ofNat 1) (.ofTime 3) .empty
  have active : (newest forsaken).isRetired "draft" = false := rfl
  refine ⟨c, read, same.2 fun retired => ?_⟩
  rw [active] at retired
  cases retired

theorem forsakenEmptied : newest forsaken ∈ forsaken.graphs ∧ ∃ c h t c',
    (Cache.readDocument (newest forsaken) [defaultBranch]).run forsaken.cache = (.ok .null, c) ∧
    (Cache.writeDocument [] (.ofNat 1) (newest forsaken) defaultBranch .null (.ofTime 3)
      forsaken.fresh .empty).run c = ((.ok h, t), c') ∧
    (newest forsaken).size = 2 ∧ h.size = 3 ∧ t.size = 1 :=
  ⟨List.mem_of_getLast? rfl, _, _, _, _, rfl, rfl, rfl, rfl, rfl⟩

end Lineage
end DocHistory
