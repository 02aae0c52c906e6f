import DocHistory.Proofs.GraphMerge

/-! When one listed loser has seen another. A loser that is some head's last write has seen no
listed loser, since losers that a last write has seen are left out. So the later loser of such a
pair is carried by heads and no head's last write; what it has seen is not left out. -/
namespace DocHistory
open Node

structure CarriedPair (hs : List Node) (path : Path) (winner : LastWrite) (a b : Write) : Prop where
  first : Loses hs path winner a
  second : Survives (hs.map head) path winner b
  carried : Carried (hs.map head) path b
  unheld : ∀ e, Held (hs.map head) path e → e.revision ≠ b.revision

namespace Graph

def Concurrent (g : Graph) (a b : Write) : Prop :=
  a.revision ≠ b.revision → ∀ n, g.find? b.revision = some n → n.descendsFrom a.revision = false

theorem listedConcurrent {g : Graph} (reachable : g.Reachable) (revisions : List Revision)
    (known : ∀ r ∈ revisions, g.contains r = true) (path : Path) :
    ∃ m, g.mergeRevisions revisions = .ok m ∧
      ((∀ a ∈ m.conflictsAt path, ∀ b ∈ m.conflictsAt path, g.Concurrent a b) ↔
        ∀ winner a b, (joined (g.chosen revisions)).entries.get? path = some winner →
          CarriedPair (survivors (g.chosen revisions)) path winner a b → g.Concurrent a b) := by
  have history := reachable.history
  have sub := g.chosenSubset revisions
  have sound := nodesSound history sub path
  have listed := fun w => joinedConflicts history sub sound (w := w)
  refine ⟨_, mergeRevisionsOk known, ?_⟩
  constructor
  · intro concurrent winner a b found pair
    have ha := (listed a).2 ⟨winner, found, pair.first⟩
    have hb := (listed b).2 ⟨winner, found, pair.second, .inl pair.carried⟩
    exact concurrent a ha b hb
  · intro concurrent a ha b hb
    obtain ⟨winner, found, first⟩ := (listed a).1 ha
    obtain ⟨other, again, second⟩ := (listed b).1 hb
    rw [found] at again
    obtain rfl := Option.some.inj again
    by_cases held : ∃ e, Held ((survivors (g.chosen revisions)).map head) path e ∧
        e.revision = b.revision
    · obtain ⟨e, last, same⟩ := held
      intro apart n writer
      have made := history.pastMember sub (heldPast sound last).1
      have equal : n = e.writer := history.single n (findSound writer).1 _ made
        ((findSound writer).2.trans same.symm)
      exact equal ▸ first.survives.unseen e last fun back => apart (back.symm.trans same)
    · have unheld : ∀ e, Held ((survivors (g.chosen revisions)).map head) path e →
          e.revision ≠ b.revision := fun e last same => held ⟨e, last, same⟩
      have carried := second.source.resolve_right fun fresh => by
        obtain ⟨⟨e, last, rfl⟩, _⟩ := fresh
        exact unheld e last rfl
      exact concurrent winner a b found ⟨first, second.survives, carried, unheld⟩

/-- The second version overwrites the first and loses against the third in their merge, the fourth
version. The fifth version still holds the first write, and the sixth wins. -/
def overwrittenLoser : Graph :=
  ofVersions [.ofChanges 1 [] [(.ofName "x", some .null)],
    .ofChanges 2 [1] [(.ofName "x", some (.bool false))],
    .ofChanges 3 [] [(.ofName "x", some (.bool true))], .ofChanges 4 [2, 3] [],
    .ofChanges 5 [1] [(.ofName "y", some .null)],
    .ofChanges 6 [] [(.ofName "x", some (.string ""))]]

theorem overwrittenLoserConflicts : ∃ m,
    overwrittenLoser.mergeRevisions [.ofTime 4, .ofTime 5, .ofTime 6] = .ok m ∧
      (m.conflictsAt (.ofName "x")).map Write.revision =
        [.ofTime 1, .ofTime 2, .ofTime 3] := by
  refine ⟨_, mergeRevisionsOk (by decide), ?_⟩
  rw [Merge.ofResolutionConflicts]
  decide +kernel

theorem overwrittenLoserListed : ∃ m a b,
    overwrittenLoser.mergeRevisions [.ofTime 4, .ofTime 5, .ofTime 6] = .ok m ∧
      a ∈ m.conflictsAt (.ofName "x") ∧ b ∈ m.conflictsAt (.ofName "x") ∧
      ¬ overwrittenLoser.Concurrent a b := by
  obtain ⟨m, done, revisions⟩ := overwrittenLoserConflicts
  obtain ⟨a, ha, first⟩ : ∃ a ∈ m.conflictsAt (.ofName "x"), a.revision = .ofTime 1 :=
    List.mem_map.1 (by simp [revisions])
  obtain ⟨b, hb, second⟩ : ∃ b ∈ m.conflictsAt (.ofName "x"), b.revision = .ofTime 2 :=
    List.mem_map.1 (by simp [revisions])
  refine ⟨m, a, b, done, ha, hb, fun concurrent => ?_⟩
  obtain ⟨n, found, seen⟩ : ∃ n, overwrittenLoser.find? (.ofTime 2) = some n ∧
      n.descendsFrom (.ofTime 1) = true := ⟨_, rfl, rfl⟩
  have unseen := concurrent (by rw [first, second]; decide) n (second ▸ found)
  rw [first, seen] at unseen
  cases unseen

theorem listedNotConcurrent : ¬ ∀ g : Graph, g.Reachable → ∀ revisions m,
    g.mergeRevisions revisions = .ok m → ∀ path, ∀ a ∈ m.conflictsAt path,
      ∀ b ∈ m.conflictsAt path, g.Concurrent a b := by
  intro concurrent
  obtain ⟨m, a, b, done, ha, hb, ordered⟩ := overwrittenLoserListed
  exact ordered (concurrent _ (ofVersionsReachable _) _ m done _ a ha b hb)

theorem overwrittenLoserPair : ∃ winner a b,
    CarriedPair (survivors (overwrittenLoser.chosen [.ofTime 4, .ofTime 5, .ofTime 6]))
      (.ofName "x") winner a b ∧ ¬ overwrittenLoser.Concurrent a b := by
  obtain ⟨m, a, b, done, ha, hb, ordered⟩ := overwrittenLoserListed
  have reachable : overwrittenLoser.Reachable := ofVersionsReachable _
  obtain ⟨k, again, concurrentIff⟩ := listedConcurrent reachable
    [.ofTime 4, .ofTime 5, .ofTime 6] (by decide) (.ofName "x")
  obtain rfl := Except.ok.inj (done.symm.trans again)
  by_contra absent
  have concurrent := concurrentIff.2 fun winner a b _ pair => by_contra fun order =>
    absent ⟨winner, a, b, pair, order⟩
  exact ordered (concurrent a ha b hb)

end Graph
end DocHistory
