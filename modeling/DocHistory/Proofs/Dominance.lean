import DocHistory.Proofs.LastWriter

/-! Winners that a later write has seen. A winner has the greatest revision of the heads' last
writes, whoever has seen it. So it can only have been overwritten where some write that has seen
it has a smaller revision; elsewhere no listed conflict has seen it either. -/
namespace DocHistory
open Node

structure Overwrites (path : Path) (e : LastWrite) (w : Node) : Prop where
  wrote : (w.writeAt? path).isSome = true
  other : w.revision ≠ e.revision
  seen : w.descendsFrom e.revision = true

namespace Node
variable {nodes : List Node} (history : History nodes) {path : Path} {e : LastWrite} {n w : Node}
include history

theorem overwritesLater (member : n ∈ nodes) (reaches : n.Reaches w)
    (overwrites : Overwrites path e w) (wrote : (n.writeAt? path).isSome = true) :
    Overwrites path e n := by
  obtain ⟨m, path, same⟩ := descendsFromIff.1 overwrites.seen
  have before := reachesTrans reaches path
  refine ⟨wrote, fun equal => ?_, descendsFromIff.2 ⟨m, before, same⟩⟩
  obtain rfl := history.single m (history.reached member before) n member (same.trans equal.symm)
  exact overwrites.other (reachesAntisymm path reaches ▸ same)

theorem overwrittenRises (member : n ∈ nodes)
    (later : ∀ o, n.Reaches o → Overwrites path e o → compare e.revision o.revision = .lt)
    (reaches : n.Reaches w) (overwrites : Overwrites path e w) :
    ∃ f, n.resolution.entries.get? path = some f ∧ compare e.revision f.revision = .lt := by
  induction n using Node.induct with
  | step n ih =>
    have parents := history.parents member
    rw [resolutionUnfold]
    cases own : n.writeAt? path with
    | some u =>
      have wrote : (n.writeAt? path).isSome = true := by simp [own]
      exact ⟨⟨u, n⟩, (Resolution.applyWritten own).1, later n (reachesSelf n)
        (overwritesLater history member reaches overwrites wrote)⟩
    | none =>
      obtain ⟨v, wrote⟩ := Option.isSome_iff_exists.1 overwrites.wrote
      obtain ⟨p, parent, rest⟩ := reachesWriter reaches wrote own
      rw [(Resolution.applyUnwritten own).1]
      exact joinedRises history parents (P := fun r => compare e.revision r = .lt)
        (fun _ _ => Entries.belowUpTo)
        (fun q hq => ih q hq (parents hq) fun o path => later o (reachesThrough hq path))
        ⟨p, parent, rest⟩

theorem overwrittenBySmaller {ns : List Node} (sub : ns ⊆ nodes)
    (found : (joined ns).entries.get? path = some e) (before : Past ns w)
    (overwrites : Overwrites path e w) :
    ∃ o, Past ns o ∧ Overwrites path e o ∧ compare o.revision e.revision = .lt := by
  by_contra none
  have later : ∀ o, Past ns o → Overwrites path e o → compare e.revision o.revision = .lt := by
    intro o past undone
    rcases Entries.compareCases o.revision e.revision with less | same | more
    · exact absurd ⟨o, past, undone, less⟩ none
    · exact absurd same undone.other
    · exact more
  obtain ⟨f, again, less⟩ := joinedRises history sub (P := fun r => compare e.revision r = .lt)
    (fun _ _ => Entries.belowUpTo)
    (fun n member reaches => overwrittenRises history (sub member)
      (fun o path => later o ⟨n, member, path⟩) reaches overwrites) before
  rw [found] at again
  cases again
  exact Entries.neOfLt less rfl

end Node

namespace Graph

theorem winnerOverwritten {g : Graph} (reachable : g.Reachable) (revisions : List Revision)
    (known : ∀ r ∈ revisions, g.contains r = true) (path : Path) :
    ∃ m, g.mergeRevisions revisions = .ok m ∧
      ∀ winner, (joined (g.chosen revisions)).entries.get? path = some winner →
        m.Reports path winner.toWrite ∧
        ((∃ w, Past (g.chosen revisions) w ∧ Overwrites path winner w) ↔
          ∃ w, Past (g.chosen revisions) w ∧ Overwrites path winner w ∧
            compare w.revision winner.revision = .lt) ∧
        ((∀ w, Past (g.chosen revisions) w → Overwrites path winner w →
            compare w.revision winner.revision ≠ .lt) →
          ∀ c ∈ m.conflictsAt path, ∀ n, g.find? c.revision = some n →
            n.descendsFrom winner.revision = false) := by
  have history := reachable.history
  have sub := g.chosenSubset revisions
  refine ⟨_, mergeRevisionsOk known, fun winner found => ⟨Merge.ofResolutionReports found, ?_, ?_⟩⟩
  · constructor
    · rintro ⟨w, before, overwrites⟩
      exact overwrittenBySmaller history sub found before overwrites
    · rintro ⟨w, before, overwrites, _⟩
      exact ⟨w, before, overwrites⟩
  · intro absent c listed n writer
    have joint := joinedSound history sub (nodesSound history sub path)
    obtain ⟨m, before, revision, wrote⟩ := joint.made c listed
    obtain ⟨e, entry, less, _⟩ := joint.lost c listed
    rw [found] at entry
    obtain rfl := Option.some.inj entry
    have same : n = m := history.single n (findSound writer).1 m (history.pastMember sub before)
      ((findSound writer).2.trans revision.symm)
    subst same
    rw [← revision] at less
    refine Bool.eq_false_iff.2 fun seen => absent n before ⟨?_, Entries.neOfLt less, seen⟩ less
    rw [wrote]
    rfl

/-- The second version has seen the first but has a smaller revision. The third still holds the first
write, which wins against the second. -/
def skewed : Graph :=
  ofVersions [.ofChanges 5 [] [(.ofName "x", some .null)],
    .ofChanges 3 [5] [(.ofName "x", some (.bool true))],
    .ofChanges 6 [5] [(.ofName "y", some .null)]]

theorem overwrittenWins : skewed.Reachable ∧ ∃ m n,
    skewed.mergeRevisions [.ofTime 3, .ofTime 6] = .ok m ∧
      m.revisions.get? (.ofName "x") = some (.ofTime 5) ∧
      (m.conflictsAt (.ofName "x")).map Write.revision = [.ofTime 3] ∧
      skewed.find? (.ofTime 3) = some n ∧ (n.writeAt? (.ofName "x")).isSome = true ∧
      n.descendsFrom (.ofTime 5) = true :=
  ⟨ofVersionsReachable _, _, _, rfl, rfl, rfl, rfl, rfl, rfl⟩

theorem skewedBySmaller : ∃ m w, skewed.mergeRevisions [.ofTime 3, .ofTime 6] = .ok m ∧
    m.revisions.get? (.ofName "x") = some (.ofTime 5) ∧
    Past (skewed.chosen [.ofTime 3, .ofTime 6]) w ∧ w.descendsFrom (.ofTime 5) = true ∧
    compare w.revision (.ofTime 5) = .lt := by
  have reachable : skewed.Reachable := ofVersionsReachable _
  obtain ⟨m, done, overwritten⟩ := winnerOverwritten reachable [.ofTime 3, .ofTime 6] (by decide)
    (.ofName "x")
  obtain ⟨⟨_, revision⟩, smaller, _⟩ := overwritten _ rfl
  have second : skewed.nodes.get ⟨1, by decide⟩ ∈ skewed.chosen [.ofTime 3, .ofTime 6] :=
    memChosen.2 ⟨.ofTime 3, by decide, rfl⟩
  obtain ⟨w, before, overwrites, less⟩ := smaller.1 ⟨_, pastSelf second, rfl, by decide, rfl⟩
  exact ⟨m, w, done, revision, before, overwrites.seen, less⟩

end Graph
end DocHistory
