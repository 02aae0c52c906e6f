import DocHistory.Proofs.ConcurrentWrites

/-! The last writer wins where revisions ascend. The last write to a path then has the greatest
revision of all writes of the past, and a past decides it: how the past was merged on the way does
not matter. Where a write has a smaller revision than one it has seen, the way matters. -/
namespace DocHistory
open Node

def WritesAscend (past : Node → Prop) (path : Path) : Prop :=
  ∀ a b u v, past a → past b → a.writeAt? path = some u → b.writeAt? path = some v →
    a.Reaches b → a ≠ b → compare b.revision a.revision = .lt

theorem WritesAscend.narrow {past narrower : Node → Prop} {path : Path}
    (ascend : WritesAscend past path)
    (sub : ∀ n u, n.writeAt? path = some u → narrower n → past n) :
    WritesAscend narrower path := by
  intro a b u v ha hb hu hv
  exact ascend a b u v (sub a u hu ha) (sub b v hv hb) hu hv

structure Newest (past : Node → Prop) (path : Path) (e : LastWrite) : Prop where
  reached : past e.writer
  wrote : e.writer.writeAt? path = some e.value
  greatest : ∀ w v, past w → w.writeAt? path = some v →
    w.revision = e.revision ∨ compare w.revision e.revision = .lt

namespace Node
variable {nodes : List Node} (history : History nodes) {path : Path} {w : Node} {v : Option Value}
include history

theorem nodeCovers {n : Node} (member : n ∈ nodes) (ascend : WritesAscend n.Reaches path)
    (reaches : n.Reaches w) (wrote : w.writeAt? path = some v) : n.resolution.Covers path w := by
  induction n using Node.induct with
  | step n ih =>
    have parents := history.parents member
    rw [resolutionUnfold]
    cases written : n.writeAt? path with
    | some u =>
      refine ⟨⟨u, n⟩, (Resolution.applyWritten written).1, ?_⟩
      by_cases own : n = w
      · exact .inl (own ▸ rfl)
      · exact .inr (ascend n w u v (reachesSelf n) reaches written wrote reaches own)
    | none =>
      obtain ⟨p, parent, rest⟩ := reachesWriter reaches wrote written
      have covers : (joined n.parents).Covers path w := by
        refine joinedCovers history parents (fun q hq seen => ?_) ⟨p, parent, rest⟩
        exact ih q hq (parents hq) (ascend.narrow fun m _ _ => reachesThrough hq) seen
      unfold Resolution.Covers
      rw [(Resolution.applyUnwritten written).1]
      exact covers

theorem joinedNewest {ns : List Node} (sub : ns ⊆ nodes) (ascend : WritesAscend (Past ns) path)
    {e : LastWrite} : (joined ns).entries.get? path = some e ↔ Newest (Past ns) path e := by
  have joint := joinedSound history sub (nodesSound history sub path)
  have covers : ∀ w v, Past ns w → w.writeAt? path = some v → (joined ns).Covers path w := by
    intro w v before wrote
    refine joinedCovers history sub (fun n member reaches => ?_) before
    have narrow : WritesAscend n.Reaches path :=
      ascend.narrow fun m _ _ later => ⟨n, member, later⟩
    exact nodeCovers history (sub member) narrow reaches wrote
  constructor
  · intro found
    obtain ⟨before, wrote⟩ := joint.entry e found
    refine ⟨before, wrote, fun w v past written => ?_⟩
    obtain ⟨f, again, upTo⟩ := covers w v past written
    rw [found] at again
    cases again
    exact upTo
  · intro newest
    obtain ⟨f, found, upTo⟩ := covers e.writer e.value newest.reached newest.wrote
    obtain ⟨before, wrote⟩ := joint.entry f found
    have revision := Entries.upToAntisymm upTo (newest.greatest f.writer f.value before wrote)
    have same : e = f := sameWrite history ⟨history.pastMember sub newest.reached, newest.wrote⟩
      ⟨history.pastMember sub before, wrote⟩ revision
    exact same ▸ found

end Node

theorem Merge.ofResolutionProperty {heads : List Revision} {r : Resolution} {path : Path}
    {v : Value} : (ofResolution heads r).properties.get? path = some v ↔
      ∃ e, r.entries.get? path = some e ∧ e.value = some v := by
  simp only [ofResolution, SortedMap.getFilterMap, liveEntry]
  cases r.entries.get? path with
  | none => simp
  | some e => cases h : e.value <;> simp [h]

theorem Merge.ofResolutionRevision {heads : List Revision} {r : Resolution} {path : Path}
    {s : Revision} : (ofResolution heads r).revisions.get? path = some s ↔
      ∃ e, r.entries.get? path = some e ∧ e.value.isSome = true ∧ e.revision = s := by
  simp only [ofResolution, SortedMap.getFilterMap, liveEntry]
  cases r.entries.get? path with
  | none => simp
  | some e => cases h : e.value <;> simp [h]

namespace Graph

def Ascends (g : Graph) : Prop :=
  ∀ n ∈ g.nodes, ∀ r ∈ n.version.parents.toList, compare r n.revision = .lt

instance (g : Graph) : Decidable g.Ascends :=
  inferInstanceAs (Decidable (∀ n ∈ g.nodes, ∀ r ∈ n.version.parents.toList,
    compare r n.revision = .lt))

variable {g : Graph} (reachable : g.Reachable) (ascends : g.Ascends)
include reachable ascends

theorem reachedEarlier {n m : Node} (member : n ∈ g.nodes) (reaches : n.Reaches m) :
    n = m ∨ compare m.revision n.revision = .lt := by
  induction n using Node.induct with
  | step n ih =>
    rcases reachesCases reaches with same | ⟨p, parent, rest⟩
    · exact .inl same
    · have named := reachable.ordered.placed.named n member
      have less := ascends n member p.revision (named ▸ List.mem_map_of_mem parent)
      rcases ih p parent (reachable.history.closed n member p parent) rest with rfl | below
      · exact .inr less
      · exact .inr (Entries.ltTrans below less)

theorem writesAscend {past : Node → Prop} (inside : ∀ n, past n → n ∈ g.nodes) (path : Path) :
    WritesAscend past path :=
  fun a _ _ _ before _ _ _ reaches apart =>
    (reachedEarlier reachable ascends (inside a before) reaches).resolve_left apart

theorem lastWriterWins (path : Path) :
    (∀ n ∈ g.nodes,
      (∀ w, n.resolution.lastWrite? path = some w ↔
        ∃ e, Newest n.Reaches path e ∧ e.toWrite = w) ∧
      (n.resolution.lastWrite? path = none ↔ ∀ m, n.Reaches m → m.writeAt? path = none)) ∧
    ∀ ns ⊆ g.nodes, ns ≠ [] → ∃ m, Merge.ofNodes ns = .ok m ∧
      (∀ v, m.properties.get? path = some v ↔
        ∃ e, Newest (Past ns) path e ∧ e.value = some v) ∧
      ∀ r, m.revisions.get? path = some r ↔
        ∃ e, Newest (Past ns) path e ∧ e.value.isSome = true ∧ e.revision = r := by
  have history := reachable.history
  constructor
  · intro n member
    have alone : [n] ⊆ g.nodes := List.cons_subset.2 ⟨member, List.nil_subset _⟩
    have past : Past [n] = n.Reaches := funext fun m => propext pastSingle
    have ascend := writesAscend reachable ascends (fun _ => history.pastMember alone) path
    have entry : ∀ e, n.resolution.entries.get? path = some e ↔ Newest n.Reaches path e := by
      intro e
      rw [← joinedSingle, joinedNewest history alone ascend, past]
    constructor
    · intro w
      simp only [Resolution.lastWrite?, Option.map_eq_some_iff, entry]
    · rw [Resolution.lastWrite?, Option.map_eq_none_iff]
      constructor
      · intro absent m reaches
        by_contra wrote
        obtain ⟨v, wrote⟩ := Option.ne_none_iff_exists'.1 wrote
        obtain ⟨e, found, _⟩ := nodeCovers history member (past ▸ ascend) reaches wrote
        rw [absent] at found
        cases found
      · intro unwritten
        refine Option.eq_none_iff_forall_ne_some.2 fun e found => ?_
        have newest := (entry e).1 found
        have wrote := newest.wrote
        rw [unwritten e.writer newest.reached] at wrote
        cases wrote
  · intro ns sub nonempty
    have ascend := writesAscend reachable ascends (fun _ => history.pastMember sub) path
    refine ⟨_, Merge.ofNodesOk nonempty, ?_, ?_⟩
    · intro v
      simp only [Merge.ofResolutionProperty, joinedNewest history sub ascend]
    · intro r
      simp only [Merge.ofResolutionRevision, joinedNewest history sub ascend]

omit reachable ascends in
theorem twiceSeenWinner : ∃ m e,
    Merge.ofNodes (twiceSeen.chosen [.ofTime 3, .ofTime 4]) = .ok m ∧
      Newest (Past (twiceSeen.chosen [.ofTime 3, .ofTime 4])) (.ofName "x") e ∧
      e.revision = .ofTime 2 ∧ m.revisions.get? (.ofName "x") = some (.ofTime 2) := by
  have reachable : twiceSeen.Reachable := ofVersionsReachable _
  obtain ⟨_, merged⟩ := lastWriterWins reachable (by decide) (.ofName "x")
  obtain ⟨m, done, _, revisions⟩ := merged (twiceSeen.chosen [.ofTime 3, .ofTime 4])
    (chosenSubset _ _) (by decide)
  obtain rfl := Except.ok.inj ((Merge.ofNodesOk (by decide)).symm.trans done)
  obtain ⟨e, newest, _, same⟩ := (revisions (.ofTime 2)).1 rfl
  exact ⟨_, e, done, newest, same, rfl⟩

end Graph
end DocHistory
