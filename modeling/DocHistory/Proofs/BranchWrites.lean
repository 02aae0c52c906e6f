import DocHistory.Proofs.CommitOutcome
import DocHistory.Proofs.CommitParts
import DocHistory.Proofs.DocumentChanges
import DocHistory.Proofs.EmptyMerge

/-! What writing a document does to a graph. The version that is added continues the newest nodes of
the branch. Its node is the only head that the branch has then, and shows what they showed together
with the changes on top. The heads of other branches stay. -/
namespace DocHistory
open Node

theorem Resolution.propertiesGet (r : Resolution) (path : Path) :
    r.properties.get? path = r.property? path := by
  rw [properties, SortedMap.getFilterMap, Merge.liveEntry, property?]
  cases r.entries.get? path with
  | none => rfl
  | some e =>
    obtain ⟨value, writer⟩ := e
    cases value <;> rfl

namespace Node

theorem propertiesUnfold (n : Node) :
    n.resolution.properties = Properties.apply (joined n.parents).properties n.changeset := by
  apply SortedMap.extGet
  intro path
  rw [Properties.applyGet, Resolution.propertiesGet, Resolution.propertiesGet, Resolution.property?,
    resolutionUnfold, Resolution.applyEntry, writeAt?]
  cases n.changeset.get? path <;> rfl

theorem joinedMembers {nodes ns ms : List Node} (history : History nodes) (sub : ns ⊆ nodes)
    (same : ∀ n, n ∈ ns ↔ n ∈ ms) : joined ns = joined ms := by
  refine joinedEq (survivorsMutual history sub ?_ ?_ ?_)
  · exact fun n member => sub ((same n).2 member)
  · exact fun n member => pastSelf ((same n).2 member)
  · exact fun n member => pastSelf ((same n).1 member)

end Node

namespace Graph

section
variable {g : Graph} (tracked : g.Tracked)
include tracked

theorem frontierMember {branch : String} {n : Node} (newest : n ∈ g.frontier branch) :
    n ∈ g.nodes ∧ n.branch = branch := by
  rw [frontier] at newest
  split at newest
  · have listed := distinctSubset (memMaximal.1 newest).1
    exact ⟨(List.mem_filter.1 listed).1, by simpa using (List.mem_filter.1 listed).2⟩
  · obtain ⟨leaf, named⟩ := (memHeads tracked).1 newest
    exact ⟨leaf.member, named⟩

theorem chosenOwn {ns : List Node} (sub : ns ⊆ g.nodes) :
    g.chosen (ns.map Node.revision) = ns := by
  have found : ∀ n ∈ ns, g.find? n.revision = some n := fun n member =>
    (findIff tracked.ordered.placed.history).2 ⟨sub member, rfl⟩
  rw [chosen, List.filterMap_map]
  exact (List.filterMap_congr found).trans List.filterMap_some

omit tracked in
theorem containsOwn {ns : List Node} (sub : ns ⊆ g.nodes) :
    ∀ r ∈ ns.map Node.revision, g.contains r = true := by
  intro r listed
  obtain ⟨n, member, rfl⟩ := List.mem_map.1 listed
  exact containsIff.2 ⟨n, sub member, rfl⟩

end

theorem frontierFree {g : Graph} (tracked : g.Tracked) {revision : Revision}
    (new : g.contains revision = false) (branch : String) :
    revision ∉ (g.frontier branch).map Node.revision := by
  intro listed
  obtain ⟨n, newest, rfl⟩ := List.mem_map.1 listed
  exact Bool.eq_false_iff.1 new (containsIff.2 ⟨n, (frontierMember tracked newest).1, rfl⟩)

theorem frontierActive {g : Graph} {branch : String} (active : g.isRetired branch = false) :
    g.frontier branch = g.heads branch := by
  rw [frontier, active]
  rfl

theorem retiredHeads {g : Graph} {branch : String} (retired : g.isRetired branch = true) :
    g.heads branch = [] := by
  rw [isRetired, Bool.and_eq_true] at retired
  exact List.isEmpty_iff.1 retired.1

structure Continues (g h : Graph) (n : Node) : Prop where
  nodes : h.nodes = g.nodes ++ [n]
  parents : ∀ m, m ∈ n.parents ↔ m ∈ g.frontier n.branch

namespace Continues
variable {g h : Graph} {n : Node} (continues : Continues g h n) (before : g.Tracked)
  (tracked : h.Tracked)
include continues before tracked

theorem memHeads {branch : String} {m : Node} : m ∈ h.heads branch ↔
    m.branch = branch ∧ (m = n ∨ m ∈ g.heads branch ∧ branch ≠ n.branch) := by
  have placed := tracked.ordered.placed
  rw [continues.nodes] at placed
  obtain ⟨_, _, new, parents⟩ := placed.splitLast
  have leaves := leafAppend (m := m) before.ordered.placed.history
    (fun old => new n old rfl) parents
  rw [Graph.memHeads tracked, continues.nodes, leaves, Graph.memHeads before, and_comm]
  refine and_congr_right fun named => or_congr_right ?_
  subst named
  rw [continues.parents]
  constructor
  · rintro ⟨leaf, apart⟩
    refine ⟨⟨leaf, rfl⟩, fun same => apart ?_⟩
    -- A branch that has a head goes by its heads.
    have head : m ∈ g.heads n.branch := (Graph.memHeads before).2 ⟨leaf, same⟩
    rw [frontierActive]
    · exact head
    · refine Bool.eq_false_iff.2 fun retired => ?_
      rw [retiredHeads retired] at head
      cases head
  · rintro ⟨⟨leaf, _⟩, apart⟩
    exact ⟨leaf, fun newest => apart (frontierMember before newest).2⟩

theorem heads : h.heads n.branch = [n] := by
  have only : ∀ m, m ∈ h.heads n.branch ↔ m ∈ [n] := by
    intro m
    rw [continues.memHeads before tracked, List.mem_singleton]
    constructor
    · rintro ⟨_, same | ⟨_, apart⟩⟩
      · exact same
      · exact absurd rfl apart
    · rintro rfl
      exact ⟨rfl, .inl rfl⟩
  exact ascendingEq Node.revision (headsAscend tracked _) (List.pairwise_singleton _ _) only

theorem otherHeads {branch : String} (other : branch ≠ n.branch) :
    h.heads branch = g.heads branch := by
  refine ascendingEq Node.revision (headsAscend tracked _) (headsAscend before _) fun m => ?_
  rw [continues.memHeads before tracked]
  constructor
  · rintro ⟨named, rfl | ⟨head, _⟩⟩
    · exact absurd named.symm other
    · exact head
  · intro head
    exact ⟨((Graph.memHeads before).1 head).2, .inr ⟨head, other⟩⟩

theorem shows : (joined (h.heads n.branch)).properties =
    Properties.apply (joined (g.frontier n.branch)).properties n.changeset := by
  have sub : n.parents ⊆ g.nodes := fun m parent =>
    (frontierMember before ((continues.parents m).1 parent)).1
  rw [continues.heads before tracked, joinedSingle, propertiesUnfold,
    joinedMembers before.ordered.placed.history sub continues.parents]

end Continues

def revised (g : Graph) (branch : String) (changes : Changeset) (revision : Revision) : Version where
  revision := revision
  parents := SortedSet.ofList ((g.frontier branch).map Node.revision)
  branch := branch
  kind := .normal
  changeset := changes

theorem memRevisedParents {g : Graph} {branch : String} {changes : Changeset}
    {revision r : Revision} : r ∈ (g.revised branch changes revision).parents.toList ↔
      r ∈ (g.frontier branch).map Node.revision := by
  rw [SortedSet.toList, SortedMap.memKeys]
  exact SortedSet.containsOfList

theorem commitRevised {g : Graph} (tracked : g.Tracked) {revision : Revision}
    (new : g.contains revision = false) (branch : String) (changes : Changeset) (fresh : Nat) :
    ∃ h n, g.commit [g.revised branch changes revision] fresh = .ok h ∧ Continues g h n ∧
      n.version = g.revised branch changes revision := by
  have sub : g.frontier branch ⊆ g.nodes := fun n newest => (frontierMember tracked newest).1
  obtain ⟨h, n, done, nodes, version, parents⟩ := commitOne (v := g.revised branch changes revision)
    rfl new (fun r listed => containsOwn sub r (memRevisedParents.1 listed)) fresh
  have named : n.branch = branch := congrArg Version.branch version
  refine ⟨h, n, done, ⟨nodes, fun m => ?_⟩, version⟩
  rw [parents, named, memChosen]
  simp only [memRevisedParents]
  rw [← memChosen, chosenOwn tracked sub]

theorem commitNew {g h : Graph} {v : Version} {fresh : Nat} (done : g.commit [v] fresh = .ok h) :
    g.contains v.revision = false := by
  have accepted := (commitSucceeds fresh).1 ⟨h, done⟩
  rw [firstRefusal, Option.or_eq_none_iff, Version.refusal] at accepted
  obtain ⟨accepted, _⟩ := accepted
  split at accepted
  · cases accepted
  · split at accepted
    · cases accepted
    · rename_i new
      exact Bool.eq_false_iff.2 new

theorem revisedContinues {g h : Graph} (tracked : g.Tracked) {branch : String}
    {changes : Changeset} {revision : Revision} {fresh : Nat}
    (done : g.commit [g.revised branch changes revision] fresh = .ok h) :
    ∃ n, Continues g h n ∧ n.version = g.revised branch changes revision := by
  have new : g.contains revision = false := commitNew done
  obtain ⟨k, n, again, continues, version⟩ := commitRevised tracked new branch changes fresh
  rw [done] at again
  cases again
  exact ⟨n, continues, version⟩

end Graph

namespace Repository

def shown (ns : List Node) : Except StoreError Value :=
  (Properties.assemble (joined ns).properties).mapError .oversizedIndex

theorem documentShown (ns : List Node) : document (Graph.mergeNodes ns) = shown ns := by
  rw [Graph.mergeNodesOk]
  rfl

theorem readShown (g : Graph) (branch : String) : read g [branch] = shown (g.heads branch) := by
  rw [read, Graph.mergeBranches, List.flatMap_singleton, documentShown]

theorem frontierShown {g : Graph} (tracked : g.Tracked) (branch : String) :
    document (g.mergeRevisions ((g.frontier branch).map Node.revision)) =
      shown (g.frontier branch) := by
  have sub : g.frontier branch ⊆ g.nodes := fun n newest => (Graph.frontierMember tracked newest).1
  rw [Graph.mergeRevisionsOk (Graph.containsOwn sub), Graph.chosenOwn tracked sub]
  rfl

theorem reviseShown {branch : String} {parents : List Revision} {merged : Except GraphError Merge}
    {previous : Value} (shows : document merged = .ok previous) (next : Value)
    (revision : Revision) : revise branch parents merged next revision =
      if (previous.changes next).isEmpty then .ok none
      else if revision ∈ parents then .error (.graph (.version (.ownParent revision)))
      else if branch.isEmpty then .error (.graph (.version (.unnamedBranch revision)))
      else .ok (some ⟨revision, SortedSet.ofList parents, branch, .normal,
        previous.changes next⟩) := by
  have named : (SortedSet.ofList parents).contains revision = true ↔ revision ∈ parents :=
    SortedSet.containsOfList
  rw [revise, shows]
  change (if (previous.changes next).isEmpty then _ else _) = _
  refine if_congr Iff.rfl rfl ?_
  simp only [Draft.build, Option.getD_none, reduceCtorEq, false_and, if_false, named]
  split
  · rfl
  · split <;> rfl

theorem writeShown {g : Graph} (tracked : g.Tracked) {branch : String} {previous : Value}
    (shows : shown (g.frontier branch) = .ok previous) (outage : Outage) (id : DocumentId)
    (next : Value) (revision : Revision) (fresh : Nat) (s : Store) :
    write outage id g branch next revision fresh s =
      if (previous.changes next).isEmpty then (.ok g, s)
      else if revision ∈ (g.frontier branch).map Node.revision then
        (.error (.graph (.version (.ownParent revision))), s)
      else if branch.isEmpty then (.error (.graph (.version (.unnamedBranch revision))), s)
      else commit outage id g [g.revised branch (previous.changes next) revision] fresh s := by
  rw [write, reviseShown ((frontierShown tracked branch).trans shows)]
  split
  · rfl
  · split
    · rfl
    · split <;> rfl

theorem commitStores {id : DocumentId} {g h : Graph} {v : Version} {fresh : Nat} {s : Store}
    (extended : g.commit [v] fresh = .ok h) :
    commit [] id g [v] fresh s = (.ok h, (s.append id [v]).commit) := by
  rw [commit, extended]
  rfl

theorem writeHidden {g : Graph} (tracked : g.Tracked) {branch : String} {e : StoreError}
    (hidden : shown (g.frontier branch) = .error e) (outage : Outage) (id : DocumentId)
    (next : Value) (revision : Revision) (fresh : Nat) (s : Store) :
    write outage id g branch next revision fresh s = (.error e, s) := by
  rw [write, revise, frontierShown tracked, hidden]
  rfl

theorem writeOk {outage : Outage} {id : DocumentId} {g h : Graph} (tracked : g.Tracked)
    {branch : String} {next : Value} {revision : Revision} {fresh : Nat} {s t : Store}
    (done : write outage id g branch next revision fresh s = (.ok h, t)) :
    ∃ previous, shown (g.frontier branch) = .ok previous ∧
      ((previous.changes next).isEmpty = true ∧ h = g ∧ t = s ∨
        (previous.changes next).isEmpty = false ∧
          g.commit [g.revised branch (previous.changes next) revision] fresh = .ok h) := by
  cases shows : shown (g.frontier branch) with
  | error e =>
    rw [writeHidden tracked shows] at done
    cases done
  | ok previous =>
    refine ⟨previous, rfl, ?_⟩
    rw [writeShown tracked shows] at done
    split at done
    · rename_i quiet
      cases done
      exact .inl ⟨quiet, rfl, rfl⟩
    · rename_i changed
      split at done
      · cases done
      · split at done
        · cases done
        · cases commitOutcome done with
          | idle absent => cases absent
          | stored _ extended => exact .inr ⟨by simpa using changed, extended⟩

end Repository
end DocHistory
