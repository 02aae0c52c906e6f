import DocHistory.Graph.Merge
import DocHistory.Proofs.MapLookup

/-! The merge of several heads at one path. The winner is the last write of the greatest revision.
Listed are the last writes that no holder of the winner has in its past and the conflicts that
heads carry, as far as they survive: they differ from the winner and no other last write was made
after seeing them. The statements on membership assume that a revision stands for one write. -/
namespace DocHistory

namespace Resolution

def conflictsAt (r : Resolution) (path : Path) : List Write := (r.conflicts.get? path).getD []

end Resolution

namespace Head

def last? (path : Path) (h : Head) : Option LastWrite := h.view.entries.get? path

end Head

def Held (heads : List Head) (path : Path) (e : LastWrite) : Prop :=
  ∃ h ∈ heads, h.last? path = some e

def Carried (heads : List Head) (path : Path) (w : Write) : Prop :=
  ∃ h ∈ heads, w ∈ h.view.conflictsAt path

structure Survives (heads : List Head) (path : Path) (winner : LastWrite) (w : Write) : Prop where
  other : w.revision ≠ winner.revision
  differs : (w.value == winner.value) = false
  unseen : ∀ e, Held heads path e → e.revision ≠ w.revision →
    e.writer.descendsFrom w.revision = false

structure Agree (heads : List Head) (path : Path) : Prop where
  held : ∀ e f, Held heads path e → Held heads path f → e.revision = f.revision → e = f
  carried : ∀ v w, Carried heads path v → Carried heads path w → v.revision = w.revision → v = w
  mixed : ∀ e w, Held heads path e → Carried heads path w → e.revision = w.revision → e.toWrite = w

namespace Contest
variable {heads : List Head} {path : Path} {c : Contest}

theorem writesAtGet (heads : List Head) (path : Path) (r : Revision) :
    (writesAt path heads).get? r =
      (heads.filterMap (Head.last? path)).find? fun e => e.revision = r := by
  have fold := SortedMap.getFoldNew (Head.last? path) LastWrite.revision id heads ∅ r
  simp only [SortedMap.getEmpty, Option.none_or, Option.map_id, id_eq] at fold
  rw [← fold, writesAt]
  congr 2
  funext m h
  unfold Head.last?
  cases h.view.entries.get? path <;> rfl

theorem memHeld {e : LastWrite} : e ∈ heads.filterMap (Head.last? path) ↔ Held heads path e :=
  List.mem_filterMap

theorem writesAtSound {r : Revision} {e : LastWrite}
    (found : (writesAt path heads).get? r = some e) :
    Held heads path e ∧ e.revision = r := by
  rw [writesAtGet] at found
  exact ⟨memHeld.1 (List.mem_of_find?_eq_some found), by simpa using List.find?_some found⟩

theorem writesAtCovers {e : LastWrite} (held : Held heads path e) :
    ∃ f, (writesAt path heads).get? e.revision = some f := by
  rw [writesAtGet, ← Option.isSome_iff_exists, List.find?_isSome]
  exact ⟨e, memHeld.2 held, decide_eq_true rfl⟩

theorem contestNone : at? heads path = none ↔ ∀ e, ¬ Held heads path e := by
  rw [at?, Option.map_eq_none_iff, SortedMap.lastNone]
  constructor
  · intro empty e held
    obtain ⟨f, found⟩ := writesAtCovers held
    rw [empty] at found
    cases found
  · intro absent r
    cases found : (writesAt path heads).get? r with
    | none => rfl
    | some e => exact absurd (writesAtSound found).1 (absent e)

theorem contestLast (found : at? heads path = some c) :
    (writesAt path heads).last? = some (c.winner.revision, c.winner) ∧
      c.losers = (writesAt path heads).values.dropLast ∧
      c.holders = (heads.filter (holds path c.winner.revision)).map Head.ancestry ∧
      c.carried = heads.flatMap (carriedAt path) := by
  unfold at? at found
  obtain ⟨⟨r, e⟩, last, rfl⟩ := Option.map_eq_some_iff.1 found
  obtain rfl := (writesAtSound (SortedMap.lastGreatest last).1).2
  exact ⟨last, rfl, rfl, rfl⟩

theorem winnerHeld (found : at? heads path = some c) : Held heads path c.winner :=
  (writesAtSound (SortedMap.lastGreatest (contestLast found).1).1).1

theorem winnerGreatest (found : at? heads path = some c) {e : LastWrite}
    (held : Held heads path e) :
    e.revision = c.winner.revision ∨ compare e.revision c.winner.revision = .lt := by
  obtain ⟨f, listed⟩ := writesAtCovers held
  exact (SortedMap.lastGreatest (contestLast found).1).2 _ f listed

theorem memCarried (found : at? heads path = some c) {w : Write} :
    w ∈ c.carried ↔ Carried heads path w := by
  rw [(contestLast found).2.2.2]
  exact List.mem_flatMap

theorem knownToHolderIff (found : at? heads path = some c) {r : Revision} :
    c.knownToHolder r = true ↔ ∃ h ∈ heads, (∃ e, h.last? path = some e ∧
      e.revision = c.winner.revision) ∧ h.ancestry.contains r = true := by
  have holdsIff : ∀ h : Head, holds path c.winner.revision h = true ↔
      ∃ e, h.last? path = some e ∧ e.revision = c.winner.revision := by
    intro h
    unfold holds Head.last?
    cases h.view.entries.get? path <;> simp
  simp only [knownToHolder, (contestLast found).2.2.1, List.any_map, List.any_filter,
    List.any_eq_true, Function.comp_apply, Bool.and_eq_true, holdsIff]

theorem loserHeld (found : at? heads path = some c) {e : LastWrite} (lost : e ∈ c.losers) :
    Held heads path e ∧ compare e.revision c.winner.revision = .lt := by
  obtain ⟨last, losers, _⟩ := contestLast found
  rw [losers, SortedMap.memBeforeLast last] at lost
  obtain ⟨r, listed, less⟩ := lost
  obtain ⟨held, rfl⟩ := writesAtSound listed
  exact ⟨held, less⟩

theorem rivalHeld (found : at? heads path = some c) {e : LastWrite} (rival : e ∈ c.rivals) :
    Held heads path e := by
  rcases List.mem_cons.1 rival with rfl | lost
  · exact winnerHeld found
  · exact (loserHeld found lost).1

section Agreeing
variable (agree : Agree heads path) (found : at? heads path = some c)
include agree found

theorem memLosers {e : LastWrite} :
    e ∈ c.losers ↔ Held heads path e ∧ compare e.revision c.winner.revision = .lt := by
  refine ⟨loserHeld found, fun ⟨held, less⟩ => ?_⟩
  obtain ⟨last, losers, _⟩ := contestLast found
  obtain ⟨f, listed⟩ := writesAtCovers held
  obtain ⟨other, same⟩ := writesAtSound listed
  rw [losers, SortedMap.memBeforeLast last]
  exact ⟨e.revision, agree.held f e other held same ▸ listed, less⟩

theorem memRivals {e : LastWrite} : e ∈ c.rivals ↔ Held heads path e := by
  refine ⟨rivalHeld found, fun held => ?_⟩
  rw [rivals, List.mem_cons, memLosers agree found]
  rcases winnerGreatest found held with same | less
  · exact .inl (agree.held e c.winner held (winnerHeld found) same)
  · exact .inr ⟨held, less⟩

theorem overtakenFalse {r : Revision} :
    c.overtaken r = false ↔
      ∀ e, Held heads path e → e.revision ≠ r → e.writer.descendsFrom r = false := by
  simp only [overtaken, List.any_eq_false, Bool.and_eq_true, bne_iff_ne, ne_eq, not_and,
    Bool.not_eq_true, memRivals agree found]

theorem survivesIff {w : Write} : Survives heads path c.winner w ↔
    w.revision ≠ c.winner.revision ∧ (w.value == c.winner.value) = false ∧
      c.overtaken w.revision = false := by
  rw [overtakenFalse agree found]
  exact ⟨fun h => ⟨h.other, h.differs, h.unseen⟩, fun h => ⟨h.1, h.2.1, h.2.2⟩⟩

theorem isCarriedIff {w : Write} : c.isCarried w = true ↔ Survives heads path c.winner w := by
  rw [survivesIff agree found, isCarried]
  simp only [Bool.not_eq_true', Bool.or_eq_false_iff, beq_eq_false_iff_ne, and_assoc]

theorem isFreshIff {e : LastWrite} (lost : e ∈ c.losers) :
    c.isFresh e = true ↔
      Survives heads path c.winner e.toWrite ∧ c.knownToHolder e.revision = false := by
  have other : e.revision ≠ c.winner.revision :=
    Entries.neOfLt ((memLosers agree found).1 lost).2
  rw [survivesIff agree found, isFresh]
  simp only [Bool.not_eq_true', Bool.or_eq_false_iff, LastWrite.toWrite, ne_eq, other,
    not_false_eq_true, true_and]
  constructor
  · intro h
    exact ⟨⟨h.2, h.1.2⟩, h.1.1⟩
  · intro h
    exact ⟨⟨h.2, h.1.2⟩, h.1.1⟩

end Agreeing

theorem memCollect {fresh : List LastWrite} {carried : List Write} {w : Write} :
    w ∈ collect fresh carried ↔
      ((SortedMap.ofList (fresh.map fun e => (e.revision, e.value))).get? w.revision).or
        ((carried.find? fun v => v.revision = w.revision).map Write.value) = some w.value := by
  have fold := SortedMap.getFoldNew (some : Write → Option Write) Write.revision Write.value
    carried (SortedMap.ofList (fresh.map fun e => (e.revision, e.value))) w.revision
  rw [List.filterMap_some] at fold
  rw [← fold, SortedMap.getIff]
  obtain ⟨r, v⟩ := w
  simp only [collect, List.mem_map, Write.mk.injEq, Prod.exists]
  constructor
  · intro h
    obtain ⟨_, _, member, rfl, rfl⟩ := h
    exact member
  · intro member
    exact ⟨r, v, member, rfl, rfl⟩

theorem collectAscends (fresh : List LastWrite) (carried : List Write) :
    (collect fresh carried).Pairwise fun a b => compare a.revision b.revision = .lt :=
  List.pairwise_map.2 (SortedMap.ascending _)

theorem collectSound {fresh : List LastWrite} {carried : List Write} {w : Write}
    (member : w ∈ collect fresh carried) : (∃ e ∈ fresh, e.toWrite = w) ∨ w ∈ carried := by
  rcases Option.or_eq_some_iff.1 (memCollect.1 member) with first | ⟨_, later⟩
  · obtain ⟨e, listed, same⟩ := List.mem_map.1 (SortedMap.memOfGetOfList first)
    cases w
    cases same
    exact .inl ⟨e, listed, rfl⟩
  · obtain ⟨v, seen, value⟩ := Option.map_eq_some_iff.1 later
    have revision : v.revision = w.revision := by simpa using List.find?_some seen
    have same : v = w := by
      cases v
      cases w
      simp_all
    exact .inr (same ▸ List.mem_of_find?_eq_some seen)

theorem collectCovers {fresh : List LastWrite} {carried : List Write} {w : Write}
    (listed : (∃ e ∈ fresh, e.toWrite = w) ∨ w ∈ carried) :
    ∃ v ∈ collect fresh carried, v.revision = w.revision := by
  let start := SortedMap.ofList (fresh.map fun e => (e.revision, e.value))
  have present : ∃ a, (start.get? w.revision).or
      ((carried.find? fun v => v.revision = w.revision).map Write.value) = some a := by
    rw [← Option.isSome_iff_exists, Option.isSome_or, Bool.or_eq_true]
    rcases listed with ⟨e, member, rfl⟩ | member
    · refine .inl (SortedMap.containsOfList.2 ?_)
      rw [List.map_map]
      exact List.mem_map.2 ⟨e, member, rfl⟩
    · refine .inr ?_
      rw [Option.isSome_map, List.find?_isSome]
      exact ⟨w, member, decide_eq_true rfl⟩
  obtain ⟨a, value⟩ := present
  exact ⟨⟨w.revision, a⟩, memCollect.2 value, rfl⟩

section Listed
variable (agree : Agree heads path) (found : at? heads path = some c) {w : Write}
include agree found

theorem freshIff : (∃ e ∈ c.losers.filter c.isFresh, e.toWrite = w) ↔
    Survives heads path c.winner w ∧ (∃ e, Held heads path e ∧ e.toWrite = w) ∧
      c.knownToHolder w.revision = false := by
  constructor
  · intro h
    obtain ⟨e, member, rfl⟩ := h
    obtain ⟨lost, fresh⟩ := List.mem_filter.1 member
    obtain ⟨survives, unknown⟩ := (isFreshIff agree found lost).1 fresh
    exact ⟨survives, ⟨e, ((memLosers agree found).1 lost).1, rfl⟩, unknown⟩
  · intro h
    obtain ⟨survives, ⟨e, held, rfl⟩, unknown⟩ := h
    have less := (winnerGreatest found held).resolve_left survives.other
    have lost := (memLosers agree found).2 ⟨held, less⟩
    exact ⟨e, List.mem_filter.2 ⟨lost, (isFreshIff agree found lost).2 ⟨survives, unknown⟩⟩, rfl⟩

theorem keptIff :
    w ∈ c.carried.filter c.isCarried ↔ Carried heads path w ∧ Survives heads path c.winner w := by
  rw [List.mem_filter, memCarried found, isCarriedIff agree found]

theorem conflictSource (member : w ∈ c.conflicts) : Survives heads path c.winner w ∧
    (Carried heads path w ∨
      (∃ e, Held heads path e ∧ e.toWrite = w) ∧ c.knownToHolder w.revision = false) := by
  rcases collectSound member with fresh | kept
  · obtain ⟨survives, source⟩ := (freshIff agree found).1 fresh
    exact ⟨survives, .inr source⟩
  · obtain ⟨carried, survives⟩ := (keptIff agree found).1 kept
    exact ⟨survives, .inl carried⟩

-- Whatever is collected under the revision of `w` is `w`, from either source.
theorem memConflicts : w ∈ c.conflicts ↔ Survives heads path c.winner w ∧
    (Carried heads path w ∨
      (∃ e, Held heads path e ∧ e.toWrite = w) ∧ c.knownToHolder w.revision = false) := by
  refine ⟨conflictSource agree found, fun h => ?_⟩
  obtain ⟨survives, source⟩ := h
  have listed : (∃ e ∈ c.losers.filter c.isFresh, e.toWrite = w) ∨
      w ∈ c.carried.filter c.isCarried := by
    rcases source with kept | fresh
    · exact .inr ((keptIff agree found).2 ⟨kept, survives⟩)
    · exact .inl ((freshIff agree found).2 ⟨survives, fresh⟩)
  obtain ⟨v, member, same⟩ := collectCovers listed
  have equal : v = w := by
    rcases (conflictSource agree found member).2 with kept | ⟨⟨e, held, rfl⟩, _⟩
    · rcases source with other | ⟨⟨f, last, rfl⟩, _⟩
      · exact agree.carried v w kept other same
      · exact (agree.mixed f v last kept same.symm).symm
    · rcases source with other | ⟨⟨f, last, rfl⟩, _⟩
      · exact agree.mixed e w held other same
      · exact congrArg LastWrite.toWrite (agree.held e f held last same)
  exact equal ▸ member

end Listed

end Contest

namespace Resolution

theorem memPaths {heads : List Head} {path : Path} :
    path ∈ paths heads ↔ ∃ e, Held heads path e := by
  have fold : ∀ s : SortedSet Path, SortedMap.contains (heads.foldl (fun (s : SortedSet Path) h =>
      s.union (h.view.entries.filterMap fun _ _ => some ())) s) path = true ↔
      s.contains path = true ∨ ∃ e, Held heads path e := by
    induction heads with
    | nil => simp [Held]
    | cons h hs ih =>
      intro s
      rw [List.foldl_cons, ih, SortedSet.containsUnion, or_assoc]
      have here : SortedMap.contains (h.view.entries.filterMap fun _ _ => some ()) path = true ↔
          ∃ e, h.last? path = some e := by
        rw [SortedMap.containsIff, Head.last?]
        simp only [SortedMap.getFilterMap]
        cases h.view.entries.get? path <;> simp
      rw [here]
      simp only [Held, List.mem_cons, or_and_right, exists_or, exists_eq_left]
  rw [paths, SortedMap.memKeys, fold]
  simp [SortedMap.contains]

theorem contestAbsent {heads : List Head} {path : Path} (absent : path ∉ paths heads) :
    Contest.at? heads path = none :=
  Contest.contestNone.2 fun e held => absent (memPaths.2 ⟨e, held⟩)

theorem mergeEntry (heads : List Head) (path : Path) :
    (merge heads).entries.get? path = (Contest.at? heads path).map Contest.winner := by
  have listing := SortedMap.getOfListFilterMap
    (fun p => (Contest.at? heads p).map Contest.winner) (paths heads) path
  simp only [merge, ofOutcomes, List.map_filterMap, Option.map_map, Function.comp_def] at listing ⊢
  rw [listing]
  split
  · rfl
  · rename_i absent
    rw [contestAbsent absent, Option.map_none]

theorem mergeConflicts (heads : List Head) (path : Path) :
    (merge heads).conflicts.get? path =
      (Contest.at? heads path).bind fun c =>
        if c.conflicts.isEmpty then none else some c.conflicts := by
  have listing := SortedMap.getOfListFilterMap
    (fun p => (Contest.at? heads p).bind fun c =>
      if c.conflicts.isEmpty then none else some c.conflicts) (paths heads) path
  have same : (merge heads).conflicts.get? path = if path ∈ paths heads then
      ((Contest.at? heads path).bind fun c =>
        if c.conflicts.isEmpty then none else some c.conflicts) else none := by
    rw [← listing]
    simp only [merge, ofOutcomes, List.filter_filterMap, List.map_filterMap]
    congr 2
    refine congrArg (fun f => List.filterMap f (paths heads)) (funext fun p => ?_)
    cases Contest.at? heads p with
    | none => rfl
    | some c => by_cases empty : c.conflicts = [] <;> simp [Option.filter, empty]
  rw [same]
  split
  · rfl
  · rename_i absent
    rw [contestAbsent absent, Option.bind_none]

end Resolution
end DocHistory
