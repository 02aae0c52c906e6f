import DocHistory.Proofs.Placement
import DocHistory.Proofs.ResolvedState

/-! What a graph answers when it merges revisions that it knows: the joint view of their nodes,
with the live values as properties, their writers as revisions and the listed conflicts. -/
namespace DocHistory
open Node

theorem Resolution.lastWriteOf {r : Resolution} {path : Path} {e : LastWrite}
    (found : r.entries.get? path = some e) : r.lastWrite? path = some e.toWrite := by
  rw [lastWrite?, found]
  rfl

namespace Merge

def Reports (m : Merge) (path : Path) (w : Write) : Prop :=
  m.properties.get? path = w.value ∧ m.revisions.get? path = w.value.map fun _ => w.revision

theorem liveEntry (r : Resolution) (path : Path) :
    r.live.get? path = (r.entries.get? path).bind fun e => e.value.map fun v => (e, v) :=
  SortedMap.getFilterMap _ _ _

theorem ofResolutionReports {heads : List Revision} {r : Resolution} {path : Path} {e : LastWrite}
    (found : r.entries.get? path = some e) : (ofResolution heads r).Reports path e.toWrite := by
  unfold Reports ofResolution
  simp only [SortedMap.getFilterMap, liveEntry, found, Option.bind_some, LastWrite.toWrite]
  cases e.value <;> exact ⟨rfl, rfl⟩

theorem ofResolutionConflicts (heads : List Revision) (r : Resolution) (path : Path) :
    (ofResolution heads r).conflictsAt path = r.conflictsAt path := rfl

theorem ofResolutionHeads {heads : List Revision} {r : Resolution} {s : Revision} :
    (ofResolution heads r).heads.contains s = true ↔ s ∈ heads :=
  SortedSet.containsOfList

end Merge

theorem Merge.ofNodesOk {ns : List Node} (nonempty : ns ≠ []) : Merge.ofNodes ns =
    .ok (Merge.ofResolution ((survivors ns).map Node.revision) (joined ns)) := by
  have filled : ns.isEmpty = false := by simpa using nonempty
  simp only [ofNodes, filled, (resolveHeads ns).1, List.map_map]
  rfl

namespace Graph

theorem mergeNodesOk (ns : List Node) : mergeNodes ns =
    .ok (Merge.ofResolution ((survivors ns).map Node.revision) (joined ns)) := by
  unfold mergeNodes
  split
  · rename_i empty
    rw [List.isEmpty_iff.1 empty]
    rfl
  · rename_i nonempty
    exact Merge.ofNodesOk fun empty => nonempty (List.isEmpty_iff.2 empty)

theorem mergeRevisionsOk {g : Graph} {revisions : List Revision}
    (known : ∀ r ∈ revisions, g.contains r = true) :
    g.mergeRevisions revisions = .ok (Merge.ofResolution
      ((survivors (g.chosen revisions)).map Node.revision) (joined (g.chosen revisions))) := by
  rw [mergeRevisions, chosenAll known]
  exact mergeNodesOk _

def headsOf (g : Graph) (m : Merge) : List Node :=
  g.nodes.filter fun n => m.heads.contains n.revision

theorem memHeadsOf {g : Graph} (history : History g.nodes) {ns : List Node} (sub : ns ⊆ g.nodes)
    {r : Resolution} {n : Node} :
    n ∈ g.headsOf (Merge.ofResolution ((survivors ns).map Node.revision) r) ↔ n ∈ survivors ns := by
  rw [headsOf, List.mem_filter, Merge.ofResolutionHeads, List.mem_map]
  constructor
  · intro h
    obtain ⟨member, k, survivor, same⟩ := h
    exact history.single k (sub (survivorsSubset ns survivor)) n member same ▸ survivor
  · intro survivor
    exact ⟨sub (survivorsSubset ns survivor), n, survivor, rfl⟩

end Graph
end DocHistory
