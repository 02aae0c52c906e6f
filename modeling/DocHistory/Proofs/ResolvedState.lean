import DocHistory.Proofs.MergeHeads
import DocHistory.Proofs.PathContest

/-! What a node knows about one path, for every node of a history and every joint view of nodes.
`Sound` is the invariant: the last write and the listed conflicts are writes of the past, and a
conflict has a smaller revision than the last write, another value, and was not seen by it. -/
namespace DocHistory
open Node

namespace Resolution

structure Sound (past : Node → Prop) (path : Path) (r : Resolution) : Prop where
  entry : ∀ e, r.entries.get? path = some e →
    past e.writer ∧ e.writer.writeAt? path = some e.value
  made : ∀ w ∈ r.conflictsAt path, ∃ n, past n ∧ n.revision = w.revision ∧
    n.writeAt? path = some w.value
  lost : ∀ w ∈ r.conflictsAt path, ∃ e, r.entries.get? path = some e ∧
    compare w.revision e.revision = .lt ∧ (w.value == e.value) = false ∧
    e.writer.descendsFrom w.revision = false
  ascending : (r.conflictsAt path).Pairwise fun a b => compare a.revision b.revision = .lt
  listed : r.conflicts.get? path ≠ some []

theorem soundEmpty (past : Node → Prop) (path : Path) : Sound past path {} where
  entry _ found := by cases found
  made _ member := absurd member List.not_mem_nil
  lost _ member := absurd member List.not_mem_nil
  ascending := List.Pairwise.nil
  listed := by intro found; cases found

theorem Sound.mono {past wider : Node → Prop} {path : Path} {r : Resolution}
    (sound : Sound past path r) (wide : ∀ n, past n → wider n) : Sound wider path r where
  entry e found := ⟨wide _ (sound.entry e found).1, (sound.entry e found).2⟩
  made w member := by
    obtain ⟨n, before, rest⟩ := sound.made w member
    exact ⟨n, wide n before, rest⟩
  lost := sound.lost
  ascending := sound.ascending
  listed := sound.listed

def Covers (r : Resolution) (path : Path) (w : Node) : Prop :=
  ∃ e, r.entries.get? path = some e ∧
    (w.revision = e.revision ∨ compare w.revision e.revision = .lt)

theorem applyEntry (r : Resolution) (n : Node) (path : Path) :
    (r.applyChanges n).entries.get? path = match n.writeAt? path with
      | some v => some ⟨v, n⟩
      | none => r.entries.get? path := by
  refine (Entries.foldAt (fun r : Resolution => r.entries.get? path) (fun v _ => some ⟨v, n⟩) path
    (fun change _ r => ?_) n.changeset.ascending r).trans ?_
  · exact r.entries.getInsert change.1 path _
  · change ((n.writeAt? path).elim _ _) = _
    cases n.writeAt? path <;> rfl

theorem applyConflicts (r : Resolution) (n : Node) (path : Path) :
    (r.applyChanges n).conflicts.get? path =
      if (n.writeAt? path).isSome then none else r.conflicts.get? path := by
  refine (Entries.foldAt (fun r : Resolution => r.conflicts.get? path) (fun _ _ => none) path
    (fun change _ r => ?_) n.changeset.ascending r).trans ?_
  · exact r.conflicts.getErase change.1 path
  · change ((n.writeAt? path).elim _ _) = _
    cases n.writeAt? path <;> rfl

theorem applyWritten {r : Resolution} {n : Node} {path : Path} {v : Option Value}
    (wrote : n.writeAt? path = some v) :
    (r.applyChanges n).entries.get? path = some ⟨v, n⟩ ∧
      (r.applyChanges n).conflicts.get? path = none := by
  rw [applyEntry, applyConflicts, wrote]
  exact ⟨rfl, rfl⟩

theorem applyUnwritten {r : Resolution} {n : Node} {path : Path} (quiet : n.writeAt? path = none) :
    (r.applyChanges n).entries.get? path = r.entries.get? path ∧
      (r.applyChanges n).conflicts.get? path = r.conflicts.get? path := by
  rw [applyEntry, applyConflicts, quiet]
  exact ⟨rfl, rfl⟩

end Resolution

namespace Node
variable {path : Path}

theorem heldHeads {hs : List Node} {e : LastWrite} :
    Held (hs.map head) path e ↔ ∃ h ∈ hs, h.resolution.entries.get? path = some e := by
  simp only [Held, List.mem_map, exists_exists_and_eq_and, Head.last?, head]

theorem carriedHeads {hs : List Node} {w : Write} :
    Carried (hs.map head) path w ↔ ∃ h ∈ hs, w ∈ h.resolution.conflictsAt path := by
  simp only [Carried, List.mem_map, exists_exists_and_eq_and, head]

theorem joinedSome {ns : List Node} {e : LastWrite} (held : Held ((survivors ns).map head) path e) :
    ∃ winner, (joined ns).entries.get? path = some winner := by
  have form := (resolveHeads ns).2
  split at form
  · rename_i empty
    rw [empty] at held
    obtain ⟨_, member, _⟩ := held
    exact absurd member List.not_mem_nil
  · rename_i h alone
    rw [alone] at held
    obtain ⟨_, member, found⟩ := heldHeads.1 held
    obtain rfl := List.mem_singleton.1 member
    exact ⟨e, form ▸ found⟩
  · rw [form, Resolution.mergeEntry]
    cases found : Contest.at? ((survivors ns).map head) path with
    | none => exact absurd held (Contest.contestNone.1 found e)
    | some c => exact ⟨c.winner, rfl⟩

theorem joinedHeld {ns : List Node} {e : LastWrite}
    (found : (joined ns).entries.get? path = some e) : Held ((survivors ns).map head) path e := by
  have form := (resolveHeads ns).2
  split at form <;> rw [form] at found
  · cases found
  · rename_i h alone
    rw [alone]
    exact heldHeads.2 ⟨h, List.mem_singleton_self h, found⟩
  · rw [Resolution.mergeEntry, Option.map_eq_some_iff] at found
    obtain ⟨c, contest, rfl⟩ := found
    exact Contest.winnerHeld contest

theorem entryReached {n : Node} {e : LastWrite} (found : n.resolution.entries.get? path = some e) :
    n.Reaches e.writer := by
  induction n using Node.induct with
  | step n ih =>
    rw [resolutionUnfold, Resolution.applyEntry] at found
    split at found
    · cases found
      exact reachesSelf n
    · obtain ⟨p, survivor, entry⟩ := heldHeads.1 (joinedHeld found)
      have parent := survivorsSubset n.parents survivor
      exact reachesThrough parent (ih p parent entry)

/-- What a merge of heads lists against the winner: the surviving writes that heads carry, and the
surviving last writes that no holder of the winner has in its past. -/
structure Loses (hs : List Node) (path : Path) (winner : LastWrite) (w : Write) : Prop where
  survives : Survives (hs.map head) path winner w
  source : Carried (hs.map head) path w ∨
    (∃ e, Held (hs.map head) path e ∧ e.toWrite = w) ∧
      ∀ h ∈ hs, h.resolution.entries.get? path = some winner → h.descendsFrom w.revision = false

-- By its own soundness all that a lone head carries survives.
theorem loneConflicts {h : Node} {past : Node → Prop} (sound : h.resolution.Sound past path)
    {w : Write} : w ∈ h.resolution.conflictsAt path ↔
      ∃ winner, h.resolution.entries.get? path = some winner ∧ Loses [h] path winner w := by
  have held : ∀ e, Held ([h].map head) path e ↔ h.resolution.entries.get? path = some e := by
    intro e
    rw [heldHeads]
    simp
  constructor
  · intro member
    obtain ⟨e, found, less, differs, unseen⟩ := sound.lost w member
    refine ⟨e, found, ⟨Entries.neOfLt less, differs, fun f last _ => ?_⟩, .inl ?_⟩
    · rw [held, found] at last
      cases last
      exact unseen
    · exact carriedHeads.2 ⟨h, List.mem_singleton_self h, member⟩
  · intro loses
    obtain ⟨winner, found, survives, source⟩ := loses
    rcases source with carried | ⟨⟨e, last, rfl⟩, _⟩
    · obtain ⟨k, member, kept⟩ := carriedHeads.1 carried
      exact List.mem_singleton.1 member ▸ kept
    · rw [held, found] at last
      cases last
      exact absurd rfl survives.other

theorem unknownToHolder {hs : List Node} (agree : Agree (hs.map head) path) {c : Contest}
    (found : Contest.at? (hs.map head) path = some c) {r : Revision} :
    c.knownToHolder r = false ↔
      ∀ h ∈ hs, h.resolution.entries.get? path = some c.winner → h.descendsFrom r = false := by
  rw [← Bool.not_eq_true, Contest.knownToHolderIff found]
  constructor
  · intro unknown h member holds
    refine Bool.eq_false_iff.2 fun seen => unknown ?_
    exact ⟨h.head, List.mem_map_of_mem member, ⟨c.winner, holds, rfl⟩, seen⟩
  · intro apart known
    obtain ⟨k, member, ⟨e, holds, same⟩, seen⟩ := known
    obtain ⟨h, here, rfl⟩ := List.mem_map.1 member
    have held : Held (hs.map head) path e := ⟨h.head, member, holds⟩
    obtain rfl := agree.held _ _ held (Contest.winnerHeld found) same
    exact Bool.eq_false_iff.1 (apart h here holds) seen

theorem mergedConflicts {hs : List Node} (agree : Agree (hs.map head) path) {w : Write} :
    w ∈ (Resolution.merge (hs.map head)).conflictsAt path ↔
      ∃ winner, (Resolution.merge (hs.map head)).entries.get? path = some winner ∧
        Loses hs path winner w := by
  rw [Resolution.conflictsAt, Resolution.mergeConflicts, Resolution.mergeEntry]
  cases found : Contest.at? (hs.map head) path with
  | none => simp
  | some c =>
    have listed : w ∈ (if c.conflicts.isEmpty then none else some c.conflicts).getD [] ↔
        w ∈ c.conflicts := by
      by_cases empty : c.conflicts = [] <;> simp [empty]
    simp only [Option.bind_some, Option.map_some, Option.some.injEq, exists_eq_left', listed]
    rw [Contest.memConflicts agree found, unknownToHolder agree found]
    exact ⟨fun h => ⟨h.1, h.2⟩, fun h => ⟨h.survives, h.source⟩⟩

section InHistory
variable {nodes : List Node} (history : History nodes)
include history

theorem sameWrite {e f : LastWrite} (he : e.writer ∈ nodes ∧ e.writer.writeAt? path = some e.value)
    (hf : f.writer ∈ nodes ∧ f.writer.writeAt? path = some f.value)
    (same : e.revision = f.revision) : e = f := by
  have writers := history.single _ he.1 _ hf.1 same
  have values := he.2
  rw [writers, hf.2] at values
  cases e
  cases f
  simp_all

theorem agreeHeads {hs : List Node} (sub : hs ⊆ nodes)
    (sound : ∀ h ∈ hs, h.resolution.Sound h.Reaches path) : Agree (hs.map head) path := by
  have entry : ∀ e, Held (hs.map head) path e →
      e.writer ∈ nodes ∧ e.writer.writeAt? path = some e.value := by
    intro e held
    obtain ⟨h, member, found⟩ := heldHeads.1 held
    obtain ⟨before, wrote⟩ := (sound h member).entry e found
    exact ⟨history.reached (sub member) before, wrote⟩
  have made : ∀ w, Carried (hs.map head) path w →
      ∃ n ∈ nodes, n.revision = w.revision ∧ n.writeAt? path = some w.value := by
    intro w carried
    obtain ⟨h, member, kept⟩ := carriedHeads.1 carried
    obtain ⟨n, before, rest⟩ := (sound h member).made w kept
    exact ⟨n, history.reached (sub member) before, rest⟩
  constructor
  · intro e f he hf same
    exact sameWrite history (entry e he) (entry f hf) same
  · intro v w hv hw same
    obtain ⟨n, hn, revision, value⟩ := made v hv
    obtain ⟨m, hm, revision', value'⟩ := made w hw
    obtain rfl := history.single n hn m hm (revision.trans (same.trans revision'.symm))
    cases v
    cases w
    simp_all
  · intro e w he hw same
    obtain ⟨n, hn, revision, value⟩ := made w hw
    obtain rfl := history.single e.writer (entry e he).1 n hn (same.trans revision.symm)
    have values := (entry e he).2
    cases w
    simp_all [LastWrite.toWrite, LastWrite.revision]

variable {ns : List Node} (sub : ns ⊆ nodes)
  (sound : ∀ n ∈ ns, n.resolution.Sound n.Reaches path)
include sub sound

theorem agreeSurvivors : Agree ((survivors ns).map head) path :=
  agreeHeads history (fun _ member => sub (survivorsSubset ns member))
    fun h member => sound h (survivorsSubset ns member)

theorem joinedEntry {e : LastWrite} :
    (joined ns).entries.get? path = some e ↔ Held ((survivors ns).map head) path e ∧
      ∀ f, Held ((survivors ns).map head) path f →
        f.revision = e.revision ∨ compare f.revision e.revision = .lt := by
  have agree := agreeSurvivors history sub sound
  have form := (resolveHeads ns).2
  split at form
  · rename_i empty
    rw [form, empty]
    constructor
    · intro found
      cases found
    · intro h
      obtain ⟨_, member, _⟩ := h.1
      exact absurd member List.not_mem_nil
  · rename_i h alone
    rw [form, alone]
    simp only [heldHeads, List.mem_singleton, exists_eq_left]
    refine ⟨fun found => ⟨found, fun f other => ?_⟩, fun h => h.1⟩
    rw [found] at other
    cases other
    exact .inl rfl
  · rw [form, Resolution.mergeEntry, Option.map_eq_some_iff]
    constructor
    · intro h
      obtain ⟨c, found, rfl⟩ := h
      exact ⟨Contest.winnerHeld found, fun f held => Contest.winnerGreatest found held⟩
    · intro h
      obtain ⟨held, greatest⟩ := h
      cases found : Contest.at? ((survivors ns).map head) path with
      | none => exact absurd held (Contest.contestNone.1 found e)
      | some c =>
        refine ⟨c, rfl, agree.held _ _ (Contest.winnerHeld found) held ?_⟩
        exact Entries.upToAntisymm (greatest _ (Contest.winnerHeld found))
          (Contest.winnerGreatest found held)

theorem joinedConflicts {w : Write} :
    w ∈ (joined ns).conflictsAt path ↔ ∃ winner, (joined ns).entries.get? path = some winner ∧
      Loses (survivors ns) path winner w := by
  have form := (resolveHeads ns).2
  split at form
  · rw [form]
    constructor
    · intro member
      exact absurd member List.not_mem_nil
    · intro h
      obtain ⟨_, found, _⟩ := h
      cases found
  · rename_i h alone
    rw [form, alone]
    exact loneConflicts (sound h (survivorsSubset ns (by simp [alone])))
  · rw [form]
    exact mergedConflicts (agreeSurvivors history sub sound)

omit history sub in
theorem joinedShape : (joined ns).conflicts.get? path ≠ some [] ∧
    ((joined ns).conflictsAt path).Pairwise fun a b => compare a.revision b.revision = .lt := by
  have form := (resolveHeads ns).2
  split at form
  · rw [form]
    exact ⟨(Resolution.soundEmpty (Past ns) path).listed, List.Pairwise.nil⟩
  · rename_i h alone
    have here : h ∈ ns := survivorsSubset ns (by simp [alone])
    rw [form]
    exact ⟨(sound h here).listed, (sound h here).ascending⟩
  · rw [Resolution.conflictsAt, form, Resolution.mergeConflicts]
    cases Contest.at? ((survivors ns).map head) path with
    | none => exact ⟨by simp, List.Pairwise.nil⟩
    | some c =>
      have ascends : c.conflicts.Pairwise fun a b => compare a.revision b.revision = .lt :=
        Contest.collectAscends _ _
      by_cases empty : c.conflicts = []
      · simp [empty]
      · simpa [empty] using ascends

omit history sub in
theorem heldPast {e : LastWrite} (held : Held ((survivors ns).map head) path e) :
    Past ns e.writer ∧ e.writer.writeAt? path = some e.value := by
  obtain ⟨h, member, found⟩ := heldHeads.1 held
  obtain ⟨before, wrote⟩ := (sound h (survivorsSubset ns member)).entry e found
  exact ⟨⟨h, survivorsSubset ns member, before⟩, wrote⟩

theorem joinedSound : (joined ns).Sound (Past ns) path := by
  obtain ⟨listed, ascending⟩ := joinedShape sound
  refine ⟨?_, ?_, ?_, ascending, listed⟩
  · intro e found
    exact heldPast sound ((joinedEntry history sub sound).1 found).1
  · intro w member
    obtain ⟨_, _, _, carried | ⟨⟨e, held, rfl⟩, _⟩⟩ := (joinedConflicts history sub sound).1 member
    · obtain ⟨h, survivor, kept⟩ := carriedHeads.1 carried
      obtain ⟨n, before, rest⟩ := (sound h (survivorsSubset ns survivor)).made w kept
      exact ⟨n, ⟨h, survivorsSubset ns survivor, before⟩, rest⟩
    · exact ⟨e.writer, (heldPast sound held).1, rfl, (heldPast sound held).2⟩
  · intro w member
    obtain ⟨winner, found, survives, source⟩ := (joinedConflicts history sub sound).1 member
    obtain ⟨held, greatest⟩ := (joinedEntry history sub sound).1 found
    have unseen := survives.unseen winner held (Ne.symm survives.other)
    refine ⟨winner, found, ?_, survives.differs, unseen⟩
    have upTo : w.revision = winner.revision ∨ compare w.revision winner.revision = .lt := by
      rcases source with carried | ⟨⟨e, other, rfl⟩, _⟩
      · obtain ⟨h, survivor, kept⟩ := carriedHeads.1 carried
        obtain ⟨e, entry, less, _⟩ := (sound h (survivorsSubset ns survivor)).lost w kept
        exact Entries.upToTrans (.inr less) (greatest e (heldHeads.2 ⟨h, survivor, entry⟩))
      · exact greatest e other
    exact upTo.resolve_left survives.other

end InHistory

theorem nodeSound {nodes : List Node} (history : History nodes) {n : Node} (member : n ∈ nodes)
    (path : Path) : n.resolution.Sound n.Reaches path := by
  induction n using Node.induct with
  | step n ih =>
    have parents := history.parents member
    have before : (joined n.parents).Sound n.Reaches path :=
      (joinedSound history parents fun p parent => ih p parent (parents parent)).mono
        fun m ⟨p, parent, rest⟩ => reachesThrough parent rest
    rw [resolutionUnfold]
    cases written : n.writeAt? path with
    | none =>
      obtain ⟨entries, conflicts⟩ := Resolution.applyUnwritten (r := joined n.parents) written
      constructor <;> simp only [Resolution.conflictsAt, entries, conflicts]
      · exact before.entry
      · exact before.made
      · exact before.lost
      · exact before.ascending
      · exact before.listed
    | some v =>
      obtain ⟨entries, conflicts⟩ := Resolution.applyWritten (r := joined n.parents) written
      constructor <;> simp [Resolution.conflictsAt, entries, conflicts, written, reachesSelf]

theorem nodesSound {nodes ns : List Node} (history : History nodes) (sub : ns ⊆ nodes)
    (path : Path) : ∀ n ∈ ns, n.resolution.Sound n.Reaches path :=
  fun _ member => nodeSound history (sub member) path

theorem joinedRises {nodes ns : List Node} (history : History nodes) (sub : ns ⊆ nodes) {w : Node}
    {P : Revision → Prop} (up : ∀ r s, P r → r = s ∨ compare r s = .lt → P s)
    (last : ∀ n ∈ ns, n.Reaches w → ∃ e, n.resolution.entries.get? path = some e ∧ P e.revision)
    (before : Past ns w) : ∃ e, (joined ns).entries.get? path = some e ∧ P e.revision := by
  have sound := nodesSound history sub path
  obtain ⟨h, survivor, reaches⟩ := (pastSurvivors history sub).2 before
  obtain ⟨e, entry, high⟩ := last h (survivorsSubset ns survivor) reaches
  have held := heldHeads.2 ⟨h, survivor, entry⟩
  obtain ⟨winner, found⟩ := joinedSome held
  obtain ⟨_, greatest⟩ := (joinedEntry history sub sound).1 found
  exact ⟨winner, found, up _ _ high (greatest e held)⟩

theorem joinedCovers {nodes ns : List Node} (history : History nodes) (sub : ns ⊆ nodes) {w : Node}
    (covers : ∀ n ∈ ns, n.Reaches w → n.resolution.Covers path w) (before : Past ns w) :
    (joined ns).Covers path w :=
  joinedRises history sub (fun _ _ => Entries.upToTrans) covers before

end Node
end DocHistory
