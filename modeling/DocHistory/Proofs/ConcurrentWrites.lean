import DocHistory.Proofs.GraphMerge

/-! No concurrent write is lost. A write that no later write has seen survives every merge of its
past, as the winner or among the conflicts, unless a winner of greater revision holds the same
value. A head that holds the winner may have the write in its past without holding it; then that
head carries it. -/
namespace DocHistory
open Node

structure Outstanding (past : Node → Prop) (path : Path) (w : Node) (v : Option Value) : Prop where
  reached : past w
  wrote : w.writeAt? path = some v
  unseen : ∀ o u, past o → o.writeAt? path = some u → o ≠ w → ¬ o.Reaches w
  unrepeated : ∀ o u, past o → o.writeAt? path = some u →
    compare w.revision o.revision = .lt → (v == u) = false

theorem Outstanding.narrow {past narrower : Node → Prop} {path : Path} {w : Node}
    {v : Option Value} (outstanding : Outstanding past path w v)
    (sub : ∀ n u, n.writeAt? path = some u → narrower n → past n) (reached : narrower w) :
    Outstanding narrower path w v where
  reached := reached
  wrote := outstanding.wrote
  unseen o u before wrote := outstanding.unseen o u (sub o u wrote before) wrote
  unrepeated o u before wrote := outstanding.unrepeated o u (sub o u wrote before) wrote

def Resolution.Keeps (r : Resolution) (path : Path) (w : Node) (v : Option Value) : Prop :=
  r.entries.get? path = some ⟨v, w⟩ ∨ ⟨w.revision, v⟩ ∈ r.conflictsAt path

theorem Resolution.Keeps.covers {past : Node → Prop} {r : Resolution} {path : Path} {w : Node}
    {v : Option Value} (keeps : r.Keeps path w v) (sound : r.Sound past path) :
    r.Covers path w := by
  rcases keeps with entry | listed
  · exact ⟨⟨v, w⟩, entry, .inl rfl⟩
  · obtain ⟨e, entry, less, _⟩ := sound.lost _ listed
    exact ⟨e, entry, .inr less⟩

namespace Node
variable {nodes : List Node} (history : History nodes) {path : Path} {w : Node} {v : Option Value}
include history

theorem outstandingSurvives {ns : List Node} (sub : ns ⊆ nodes)
    (outstanding : Outstanding (Past ns) path w v) {winner : LastWrite}
    (found : (joined ns).entries.get? path = some winner)
    (less : compare w.revision winner.revision = .lt) :
    Survives ((survivors ns).map head) path winner ⟨w.revision, v⟩ where
  other := Entries.neOfLt less
  differs := by
    obtain ⟨before, wrote⟩ := (joinedSound history sub (nodesSound history sub path)).entry _ found
    exact outstanding.unrepeated winner.writer winner.value before wrote less
  unseen f other apart := by
    obtain ⟨past, written⟩ := heldPast (nodesSound history sub path) other
    exact history.notDescends (history.pastMember sub past)
      (history.pastMember sub outstanding.reached)
      (outstanding.unseen f.writer f.value past written fun equal => apart (equal ▸ rfl))

theorem joinedKeeps {ns : List Node} (sub : ns ⊆ nodes)
    (keeps : ∀ n ∈ ns, Outstanding n.Reaches path w v → n.resolution.Keeps path w v)
    (outstanding : Outstanding (Past ns) path w v) : (joined ns).Keeps path w v := by
  have sound := nodesSound history sub path
  have here : w ∈ nodes := history.pastMember sub outstanding.reached
  have atHead : ∀ h ∈ ns, h.Reaches w → h.resolution.Keeps path w v := fun h member reaches =>
    keeps h member (outstanding.narrow (fun n _ _ before => ⟨h, member, before⟩) reaches)
  obtain ⟨winner, found, upTo⟩ := joinedCovers history sub
    (fun h member reaches => (atHead h member reaches).covers (sound h member)) outstanding.reached
  rcases upTo with same | less
  · obtain ⟨before, wrote⟩ := (joinedSound history sub sound).entry winner found
    have equal : (⟨v, w⟩ : LastWrite) = winner := sameWrite history ⟨here, outstanding.wrote⟩
      ⟨history.pastMember sub before, wrote⟩ same
    exact .inl (equal ▸ found)
  · have survives := outstandingSurvives history sub outstanding found less
    refine .inr ((joinedConflicts history sub sound).2 ⟨winner, found, survives, ?_⟩)
    by_cases carried : Carried ((survivors ns).map head) path ⟨w.revision, v⟩
    · exact .inl carried
    -- No head carries the write, so each head with the write in its past still holds it.
    · have holds : ∀ h ∈ survivors ns, h.Reaches w →
          h.resolution.entries.get? path = some ⟨v, w⟩ := by
        intro h survivor reaches
        rcases atHead h (survivorsSubset ns survivor) reaches with entry | listed
        · exact entry
        · exact absurd (carriedHeads.2 ⟨h, survivor, listed⟩) carried
      obtain ⟨h, survivor, reaches⟩ := (pastSurvivors history sub).2 outstanding.reached
      have held := heldHeads.2 ⟨h, survivor, holds h survivor reaches⟩
      refine .inr ⟨⟨⟨v, w⟩, held, rfl⟩, fun k member entry => ?_⟩
      refine history.notDescends (sub (survivorsSubset ns member)) here fun seen => ?_
      have both := (holds k member seen).symm.trans entry
      exact survives.other (congrArg LastWrite.revision (Option.some.inj both))

theorem nodeKeeps {n : Node} (member : n ∈ nodes) (outstanding : Outstanding n.Reaches path w v) :
    n.resolution.Keeps path w v := by
  induction n using Node.induct with
  | step n ih =>
    have parents := history.parents member
    rw [resolutionUnfold]
    cases written : n.writeAt? path with
    | some u =>
      obtain ⟨entry, _⟩ := Resolution.applyWritten (r := joined n.parents) written
      by_cases own : n = w
      · subst own
        have value := written.symm.trans outstanding.wrote
        exact .inl (by rw [entry, Option.some.inj value])
      · exact absurd outstanding.reached (outstanding.unseen n u (reachesSelf n) written own)
    | none =>
      obtain ⟨entries, conflicts⟩ := Resolution.applyUnwritten (r := joined n.parents) written
      obtain ⟨p, parent, rest⟩ := reachesWriter outstanding.reached outstanding.wrote written
      have kept := joinedKeeps history parents (fun q hq => ih q hq (parents hq))
        (outstanding.narrow (fun m _ _ ⟨q, hq, path⟩ => reachesThrough hq path) ⟨p, parent, rest⟩)
      simpa only [Resolution.Keeps, Resolution.conflictsAt, entries, conflicts] using kept

theorem joinedKeepsOutstanding {ns : List Node} (sub : ns ⊆ nodes)
    (outstanding : Outstanding (Past ns) path w v) : (joined ns).Keeps path w v :=
  joinedKeeps history sub (fun _ member => nodeKeeps history (sub member)) outstanding

end Node

structure Unrivalled (past : Node → Prop) (path : Path) (w : Node) (v : Option Value) : Prop where
  reached : past w
  wrote : w.writeAt? path = some v
  unseen : ∀ o u, past o → o.writeAt? path = some u → o.revision ≠ w.revision →
    o.descendsFrom w.revision = false
  distinct : ∀ o u, past o → o.writeAt? path = some u → o.revision ≠ w.revision →
    (v == u) = false

theorem Unrivalled.outstanding {nodes : List Node} (history : History nodes)
    {past : Node → Prop} (sub : ∀ n, past n → n ∈ nodes) {path : Path} {w : Node}
    {v : Option Value} (unrivalled : Unrivalled past path w v) : Outstanding past path w v where
  reached := unrivalled.reached
  wrote := unrivalled.wrote
  unseen o u before wrote apart reaches := by
    have here := sub w unrivalled.reached
    have other : o.revision ≠ w.revision := fun same =>
      apart (history.single o (sub o before) w here same)
    have seen := (history.descendsIff (sub o before) here).2 reaches
    rw [unrivalled.unseen o u before wrote other] at seen
    cases seen
  unrepeated o u before wrote less :=
    unrivalled.distinct o u before wrote (Ne.symm (Entries.neOfLt less))

namespace Graph

theorem concurrentWritesKept {g : Graph} (reachable : g.Reachable) (revisions : List Revision)
    (known : ∀ r ∈ revisions, g.contains r = true) (path : Path) :
    (∃ m, g.mergeRevisions revisions = .ok m ∧
      ∀ w v, Unrivalled (Past (g.chosen revisions)) path w v →
        (joined (g.chosen revisions)).lastWrite? path = some ⟨w.revision, v⟩ ∧
          m.Reports path ⟨w.revision, v⟩ ∨
        ⟨w.revision, v⟩ ∈ m.conflictsAt path) ∧
    ∀ n ∈ g.nodes, ∀ w v, Unrivalled n.Reaches path w v →
      n.resolution.lastWrite? path = some ⟨w.revision, v⟩ ∨
        ⟨w.revision, v⟩ ∈ n.resolution.conflictsAt path := by
  have history := reachable.history
  constructor
  · refine ⟨_, mergeRevisionsOk known, fun w v unrivalled => ?_⟩
    have sub := g.chosenSubset revisions
    have outstanding := unrivalled.outstanding history fun _ => history.pastMember sub
    rcases joinedKeepsOutstanding history sub outstanding with entry | kept
    · exact .inl ⟨Resolution.lastWriteOf entry, Merge.ofResolutionReports entry⟩
    · exact .inr kept
  · intro n member w v unrivalled
    have outstanding := unrivalled.outstanding history fun _ => history.reached member
    rcases nodeKeeps history member outstanding with entry | kept
    · exact .inl (Resolution.lastWriteOf entry)
    · exact .inr kept

theorem twiceSeenKept : ∃ m, twiceSeen.mergeRevisions [.ofTime 3, .ofTime 4] = .ok m ∧
    ⟨.ofTime 1, some .null⟩ ∈ m.conflictsAt (.ofName "x") := by
  have reachable : twiceSeen.Reachable := ofVersionsReachable _
  obtain ⟨⟨m, done, kept⟩, _⟩ := concurrentWritesKept reachable
    [.ofTime 3, .ofTime 4] (by decide) (.ofName "x")
  let w : Node := twiceSeen.nodes.head (by decide)
  have first : Unrivalled (Past (twiceSeen.chosen [.ofTime 3, .ofTime 4])) (.ofName "x") w
      (some .null) := by
    have others : ∀ o ∈ twiceSeen.nodes, o.revision ≠ w.revision → ∀ u ∈ o.writeAt? (.ofName "x"),
        o.descendsFrom w.revision = false ∧ (some .null == u) = false := by decide
    have sub := twiceSeen.chosenSubset [.ofTime 3, .ofTime 4]
    have requested : twiceSeen.nodes.getLast (by decide) ∈
        twiceSeen.chosen [.ofTime 3, .ofTime 4] := memChosen.2 ⟨.ofTime 4, by decide, rfl⟩
    refine ⟨⟨_, requested, reachesThrough (List.mem_singleton_self w) (reachesSelf w)⟩, rfl, ?_, ?_⟩
    · intro o u before wrote apart
      exact (others o (reachable.history.pastMember sub before) apart u wrote).1
    · intro o u before wrote apart
      exact (others o (reachable.history.pastMember sub before) apart u wrote).2
  rcases kept w (some .null) first with ⟨won, _⟩ | listed
  · have winner : some (Revision.ofTime 2) = some (.ofTime 1) :=
      congrArg (Option.map Write.revision) won
    cases winner
  · exact ⟨m, done, listed⟩

end Graph
end DocHistory
