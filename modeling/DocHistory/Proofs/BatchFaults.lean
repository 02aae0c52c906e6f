import DocHistory.Proofs.CommitParts

/-! Which lists of versions a commit takes in. Each version is judged at its place, by the revisions
of the graph and of the versions before it. The commit succeeds if none is at fault there;
otherwise it fails with what is wrong at the first place, and of several things wrong there the
least parent that is missing comes last. -/
namespace DocHistory

namespace Version

structure Admissible (held : Revision → Prop) (v : Version) : Prop where
  rooted : v.kind = .root → v.parents.toList = []
  new : ¬ held v.revision
  known : ∀ r ∈ v.parents.toList, held r

inductive Fault (held : Revision → Prop) (v : Version) : GraphError → Prop where
  | rooted (root : v.kind = .root) (filled : v.parents.toList ≠ []) :
      Fault held v (.version (.rootWithParents v.revision v.parents.toList.length))
  | repeated (free : v.kind = .root → v.parents.toList = []) (old : held v.revision) :
      Fault held v (.duplicateRevision v.revision)
  | missing {r : Revision} (free : v.kind = .root → v.parents.toList = [])
      (new : ¬ held v.revision) (named : r ∈ v.parents.toList) (absent : ¬ held r)
      (least : ∀ q ∈ v.parents.toList, ¬ held q → q = r ∨ compare r q = .lt) :
      Fault held v (.missingParent v.revision r)

theorem parentsAscend (v : Version) :
    v.parents.toList.Pairwise fun a b => compare a b = .lt :=
  List.pairwise_map.2 v.parents.ascending

theorem parentsEmpty (v : Version) : (!v.parents.isEmpty) = true ↔ v.parents.toList ≠ [] := by
  rw [SortedMap.isEmpty, SortedSet.toList, SortedMap.keys, Bool.not_eq_true', ne_eq,
    List.map_eq_nil_iff, ← Bool.not_eq_true, List.isEmpty_iff]

theorem parentsCount (v : Version) : v.parents.size = v.parents.toList.length := by
  rw [SortedMap.size, SortedSet.toList, SortedMap.keys, List.length_map]

theorem rootFree {v : Version} : ¬ (v.isRoot = true ∧ (!v.parents.isEmpty) = true) ↔
    (v.kind = .root → v.parents.toList = []) := by
  rw [parentsEmpty, isRoot, decide_eq_true_eq, not_and, not_not]

end Version

theorem findLeast {κ : Type} [Ord κ] [Std.TransOrd κ] [Std.LawfulEqOrd κ] {p : κ → Bool}
    {ks : List κ} (ascending : ks.Pairwise fun a b => compare a b = .lt) {k : κ} :
    ks.find? p = some k ↔
      k ∈ ks ∧ p k = true ∧ ∀ l ∈ ks, p l = true → l = k ∨ compare k l = .lt := by
  induction ks with
  | nil => simp
  | cons l ks ih =>
    obtain ⟨first, rest⟩ := List.pairwise_cons.1 ascending
    rw [List.find?_cons]
    cases here : p l with
    | true =>
      simp only [Option.some.injEq, List.mem_cons, forall_eq_or_imp]
      constructor
      · rintro rfl
        exact ⟨.inl rfl, here, fun _ => .inl rfl, fun m member _ => .inr (first m member)⟩
      · rintro ⟨rfl | later, _, least, _⟩
        · rfl
        · rcases least here with same | less
          · exact same
          · exact absurd less (Entries.notBelowItself (first k later))
    | false =>
      rw [ih rest]
      simp only [List.mem_cons, forall_eq_or_imp, here, Bool.false_eq_true, false_implies, true_and]
      constructor
      · rintro ⟨member, holds, least⟩
        exact ⟨.inr member, holds, least⟩
      · rintro ⟨rfl | member, holds, least⟩
        · rw [here] at holds
          cases holds
        · exact ⟨member, holds, least⟩

section
variable {held : Revision → Bool} {v : Version}

theorem faultIff {e : GraphError} :
    v.refusal held = some e ↔ v.Fault (fun r => held r = true) e := by
  unfold Version.refusal
  constructor
  · intro refused
    split at refused
    · rename_i rooted
      cases refused
      exact v.parentsCount ▸
        .rooted (of_decide_eq_true rooted.1) (v.parentsEmpty.1 rooted.2)
    · rename_i free
      rw [Version.rootFree] at free
      split at refused
      · rename_i old
        cases refused
        exact .repeated free old
      · rename_i new
        obtain ⟨r, found, rfl⟩ := Option.map_eq_some_iff.1 refused
        obtain ⟨named, absent, least⟩ := (findLeast v.parentsAscend).1 found
        simp only [Bool.not_eq_true', ← Bool.not_eq_true] at absent least
        exact .missing free new named absent least
  · rintro (⟨root, filled⟩ | ⟨free, old⟩ | ⟨free, new, named, absent, least⟩)
    · rw [if_pos ⟨decide_eq_true root, v.parentsEmpty.2 filled⟩, v.parentsCount]
    · rw [if_neg (Version.rootFree.2 free), if_pos old]
    · rw [if_neg (Version.rootFree.2 free), if_neg new, (findLeast v.parentsAscend).2
        ⟨named, by simpa using absent, fun q member => by simpa using least q member⟩]
      rfl

theorem admissibleIff :
    v.refusal held = none ↔ v.Admissible fun r => held r = true := by
  unfold Version.refusal
  constructor
  · intro accepted
    split at accepted
    · cases accepted
    · rename_i free
      split at accepted
      · cases accepted
      · rename_i new
        rw [Option.map_eq_none_iff, List.find?_eq_none] at accepted
        exact ⟨Version.rootFree.1 free, new, fun r named => by simpa using accepted r named⟩
  · intro admissible
    have absent : (v.parents.toList.find? fun r => !held r) = none :=
      List.find?_eq_none.2 fun r named => by simpa using admissible.known r named
    rw [if_neg (Version.rootFree.2 admissible.rooted), if_neg admissible.new, absent]
    rfl

theorem heldAfterIff {versions : List Version} {r : Revision} :
    heldAfter held versions r = true ↔
      held r = true ∨ r ∈ versions.map Version.revision := by
  simp [heldAfter]

end

theorem heldAtStart (held : Revision → Bool) (versions : List Version) :
    heldAfter held (versions.take 0) = held := heldAfterNil held

theorem heldAfterCons (held : Revision → Bool) (w : Version) (versions : List Version) (i : Nat) :
    heldAfter held ((w :: versions).take (i + 1)) =
      heldAfter (heldAfter held [w]) (versions.take i) := by
  rw [List.take_succ_cons, ← List.singleton_append, heldAfterAppend]

theorem firstRefusalNone {held : Revision → Bool} {versions : List Version} :
    firstRefusal held versions = none ↔ ∀ (i : Nat) (v : Version), versions[i]? = some v →
      v.refusal (heldAfter held (versions.take i)) = none := by
  induction versions generalizing held with
  | nil => simp [firstRefusal]
  | cons w versions ih =>
    rw [firstRefusal, Option.or_eq_none_iff, ih]
    constructor
    · rintro ⟨own, rest⟩ i v found
      cases i with
      | zero =>
        cases found
        rw [heldAtStart]
        exact own
      | succ i =>
        rw [heldAfterCons]
        exact rest i v found
    · intro all
      refine ⟨?_, fun i v found => ?_⟩
      · have own := all 0 w rfl
        rwa [heldAtStart] at own
      · rw [← heldAfterCons]
        exact all (i + 1) v found

theorem firstRefusalSome {held : Revision → Bool} {versions : List Version} {e : GraphError} :
    firstRefusal held versions = some e ↔ ∃ (i : Nat) (v : Version), versions[i]? = some v ∧
      (∀ (j : Nat) (w : Version), j < i → versions[j]? = some w →
        w.refusal (heldAfter held (versions.take j)) = none) ∧
      v.refusal (heldAfter held (versions.take i)) = some e := by
  induction versions generalizing held with
  | nil => simp [firstRefusal]
  | cons w versions ih =>
    rw [firstRefusal, Option.or_eq_some_iff, ih]
    constructor
    · rintro (own | ⟨accepted, i, v, found, before, fault⟩)
      · refine ⟨0, w, rfl, fun j _ less => absurd less (Nat.not_lt_zero j), ?_⟩
        rw [heldAtStart]
        exact own
      · refine ⟨i + 1, v, found, fun j u less place => ?_, ?_⟩
        · cases j with
          | zero =>
            cases place
            rw [heldAtStart]
            exact accepted
          | succ j =>
            rw [heldAfterCons]
            exact before j u (Nat.lt_of_succ_lt_succ less) place
        · rw [heldAfterCons]
          exact fault
    · rintro ⟨i, v, found, before, fault⟩
      cases i with
      | zero =>
        cases found
        rw [heldAtStart] at fault
        exact .inl fault
      | succ i =>
        have accepted := before 0 w (Nat.succ_pos i) rfl
        rw [heldAtStart] at accepted
        refine .inr ⟨accepted, i, v, found, fun j u less place => ?_, ?_⟩
        · rw [← heldAfterCons]
          exact before (j + 1) u (Nat.succ_lt_succ less) place
        · rw [← heldAfterCons]
          exact fault

namespace Graph

def HeldBefore (g : Graph) (versions : List Version) (i : Nat) (r : Revision) : Prop :=
  (∃ n ∈ g.nodes, n.revision = r) ∨ r ∈ (versions.take i).map Version.revision

theorem heldBefore (g : Graph) (versions : List Version) (i : Nat) :
    (fun r => heldAfter g.contains (versions.take i) r = true) = g.HeldBefore versions i := by
  funext r
  rw [heldAfterIff, containsIff]
  rfl

theorem commitAdmits (g : Graph) (versions : List Version) (fresh : Nat) :
    ((∃ h, g.commit versions fresh = .ok h) ↔
      ∀ (i : Nat) (v : Version), versions[i]? = some v →
        v.Admissible (g.HeldBefore versions i)) ∧
    (∀ e, g.commit versions fresh = .error e ↔
      ∃ (i : Nat) (v : Version), versions[i]? = some v ∧
        (∀ (j : Nat) (w : Version), j < i → versions[j]? = some w → w.Admissible (g.HeldBefore versions j)) ∧
        v.Fault (g.HeldBefore versions i) e) ∧
    g.commit [] fresh = .ok g := by
  refine ⟨?_, fun e => ?_, rfl⟩
  · rw [commitSucceeds, firstRefusalNone]
    simp only [admissibleIff, heldBefore]
  · rw [commitFails, firstRefusalSome]
    simp only [admissibleIff, faultIff, heldBefore]

example : continued.commit [.ofChanges 2 [9, 1] []] 2 =
    .error (.duplicateRevision (.ofTime 2)) := rfl

example : continued.commit [.ofChanges 3 [9, 3, 1] []] 2 =
    .error (.missingParent (.ofTime 3) (.ofTime 3)) := rfl

end Graph
end DocHistory
