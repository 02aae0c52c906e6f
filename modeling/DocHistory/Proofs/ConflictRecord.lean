import DocHistory.Proofs.GraphMerge

/-! What the list of conflicts at a path records, for every node and every merge of nodes: writes
of the merged past that lost against the last write and that no head's last write has seen. -/
namespace DocHistory
open Node

namespace Graph

structure ConflictRecord (g : Graph) (heads : List Node) (path : Path) (winner : Write)
    (ws : List Write) : Prop where
  nonempty : ws ≠ []
  ascending : ws.Pairwise fun a b => compare a.revision b.revision = .lt
  made : ∀ w ∈ ws, ∃ n, g.find? w.revision = some n ∧ n.writeAt? path = some w.value ∧
    ∃ h ∈ heads, h.descendsFrom w.revision = true
  lost : ∀ w ∈ ws, w.revision ≠ winner.revision ∧ (w.value == winner.value) = false
  unseen : ∀ w ∈ ws, ∀ h ∈ heads, ∀ u, h.resolution.lastWrite? path = some u →
    u.revision ≠ w.revision → ∀ n, g.find? u.revision = some n →
    n.descendsFrom w.revision = false

variable {g : Graph} {path : Path} {ws : List Write}

theorem ConflictRecord.onHeads {heads others : List Node} {winner : Write}
    (record : g.ConflictRecord heads path winner ws) (same : ∀ n, n ∈ others ↔ n ∈ heads) :
    g.ConflictRecord others path winner ws where
  nonempty := record.nonempty
  ascending := record.ascending
  made w member := by
    obtain ⟨n, found, wrote, h, head, seen⟩ := record.made w member
    exact ⟨n, found, wrote, h, (same h).2 head, seen⟩
  lost := record.lost
  unseen w member h head := record.unseen w member h ((same h).1 head)

theorem joinedRecord (reachable : g.Reachable) {ns : List Node} (sub : ns ⊆ g.nodes)
    (listed : (joined ns).conflicts.get? path = some ws) :
    ∃ winner, (joined ns).entries.get? path = some winner ∧
      g.ConflictRecord (survivors ns) path winner.toWrite ws := by
  have history := reachable.history
  have sound := nodesSound history sub path
  have joint := joinedSound history sub sound
  have listing : (joined ns).conflictsAt path = ws := by rw [Resolution.conflictsAt, listed]; rfl
  have nonempty : ws ≠ [] := fun empty => joint.listed (empty ▸ listed)
  obtain ⟨first, member⟩ := List.exists_mem_of_ne_nil ws nonempty
  obtain ⟨winner, found, _⟩ := joint.lost first (listing.symm ▸ member)
  have survives : ∀ w ∈ ws, Survives ((survivors ns).map head) path winner w := by
    intro w member
    obtain ⟨e, entry, loses⟩ := (joinedConflicts history sub sound).1 (listing.symm ▸ member)
    rw [found] at entry
    cases entry
    exact loses.survives
  refine ⟨winner, found, nonempty, listing ▸ joint.ascending, ?_, ?_, ?_⟩
  · intro w member
    obtain ⟨n, before, revision, wrote⟩ := joint.made w (listing.symm ▸ member)
    obtain ⟨h, survivor, reaches⟩ := (pastSurvivors history sub).2 before
    exact ⟨n, (findIff history).2 ⟨history.pastMember sub before, revision⟩, wrote, h, survivor,
      descendsFromIff.2 ⟨n, reaches, revision⟩⟩
  · intro w member
    exact ⟨(survives w member).other, (survives w member).differs⟩
  · intro w member h survivor u last other n writer
    obtain ⟨e, entry, rfl⟩ := Option.map_eq_some_iff.1 last
    have held := heldHeads.2 ⟨h, survivor, entry⟩
    have made := history.pastMember sub (heldPast sound held).1
    have same : n = e.writer :=
      history.single n (findSound writer).1 _ made (findSound writer).2
    exact same ▸ (survives w member).unseen e held other

theorem conflictsRecorded (reachable : g.Reachable) (path : Path) :
    (∀ n ∈ g.nodes, ∀ ws, n.resolution.conflicts.get? path = some ws →
      ∃ winner, n.resolution.lastWrite? path = some winner ∧
        g.ConflictRecord [n] path winner ws) ∧
    ∀ ns ⊆ g.nodes, ∃ m, mergeNodes ns = .ok m ∧ ∀ ws, m.conflicts.get? path = some ws →
      ∃ winner, (joined ns).lastWrite? path = some winner ∧ m.Reports path winner ∧
        g.ConflictRecord (g.headsOf m) path winner ws := by
  constructor
  · intro n member ws listed
    have sub : [n] ⊆ g.nodes := List.cons_subset.2 ⟨member, List.nil_subset _⟩
    rw [← joinedSingle] at listed ⊢
    obtain ⟨winner, found, record⟩ := joinedRecord reachable sub listed
    rw [survivorsSingle] at record
    exact ⟨_, Resolution.lastWriteOf found, record⟩
  · intro ns sub
    refine ⟨_, mergeNodesOk ns, fun ws listed => ?_⟩
    obtain ⟨winner, found, record⟩ := joinedRecord reachable sub listed
    exact ⟨_, Resolution.lastWriteOf found, Merge.ofResolutionReports found,
      record.onHeads fun _ => memHeadsOf reachable.history sub⟩

theorem twiceSeenRecorded : ∃ m ws winner,
    mergeNodes (twiceSeen.chosen [.ofTime 3, .ofTime 4]) = .ok m ∧
      m.conflicts.get? (.ofName "x") = some ws ∧ ws.map Write.revision = [.ofTime 1] ∧
      twiceSeen.ConflictRecord (twiceSeen.headsOf m) (.ofName "x") winner ws := by
  have reachable : twiceSeen.Reachable := ofVersionsReachable _
  obtain ⟨m, done, recorded⟩ := (conflictsRecorded reachable (.ofName "x")).2
    (twiceSeen.chosen [.ofTime 3, .ofTime 4]) (chosenSubset _ _)
  obtain rfl := Except.ok.inj ((mergeNodesOk _).symm.trans done)
  obtain ⟨winner, _, _, record⟩ := recorded _ rfl
  exact ⟨_, _, winner, done, rfl, rfl, record⟩

end Graph
end DocHistory
