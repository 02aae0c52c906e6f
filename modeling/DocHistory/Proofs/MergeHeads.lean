import Mathlib.Logic.Basic
import Mathlib.Data.Nat.Init
import Mathlib.Data.List.Sort
import DocHistory.Graph.Merge
import DocHistory.Proofs.Past

/-! Which of the requested nodes a merge starts from. They ascend by revision, none has another in
its past, and together they have every requested node in their past. The joint view of the
requested nodes is the view of a lone head or the merge of several. -/
namespace DocHistory

theorem distinctMap {α β : Type} (f : α → β) (revision : β → Revision) (as : List α) :
    distinct revision (as.map f) = (distinct (fun a => revision (f a)) as).map f := by
  have entries := Entries.ofListMap f (as.map fun a => (revision (f a), a))
  rw [List.map_map] at entries
  have values := congrArg (List.map Prod.snd) entries
  simpa [distinct, SortedMap.values, SortedMap.ofList, Function.comp_def] using values

theorem maximalMap {α β : Type} (f : α → β) (revision : β → Revision) (ancestry : β → Ancestry)
    (as : List α) :
    maximal revision ancestry (as.map f) =
      (maximal (fun a => revision (f a)) (fun a => ancestry (f a)) as).map f := by
  simp [maximal, List.filter_map, List.any_map, Function.comp_def]

theorem memMaximal {α : Type} {revision : α → Revision} {ancestry : α → Ancestry} {as : List α}
    {a : α} : a ∈ maximal revision ancestry as ↔
      a ∈ as ∧ ∀ b ∈ as, (ancestry b).contains (revision a) = true → revision b = revision a := by
  simp only [maximal, List.mem_filter, Bool.not_eq_true', List.any_eq_false, Bool.and_eq_true,
    bne_iff_ne, ne_eq, not_and, not_imp_not]

theorem distinctKeys {α : Type} {revision : α → Revision} {as : List α} {r : Revision} {a : α}
    (found : (SortedMap.ofList (as.map fun a => (revision a, a))).get? r = some a) :
    a ∈ as ∧ revision a = r := by
  obtain ⟨b, member, same⟩ := List.mem_map.1 (SortedMap.memOfGetOfList found)
  cases same
  exact ⟨member, rfl⟩

theorem distinctSubset {α : Type} {revision : α → Revision} {as : List α} {a : α}
    (member : a ∈ distinct revision as) : a ∈ as := by
  obtain ⟨r, found⟩ := SortedMap.memValues.1 member
  exact (distinctKeys found).1

theorem distinctCovers {α : Type} (revision : α → Revision) {as : List α} {a : α}
    (member : a ∈ as) : ∃ b ∈ distinct revision as, revision b = revision a := by
  have listed : (SortedMap.ofList (as.map fun a => (revision a, a))).contains (revision a) = true :=
    SortedMap.containsOfList.2 (by simpa using ⟨a, member, rfl⟩)
  obtain ⟨b, found⟩ := SortedMap.containsIff.1 listed
  exact ⟨b, SortedMap.memValues.2 ⟨_, found⟩, (distinctKeys found).2⟩

theorem distinctAscends {α : Type} (revision : α → Revision) (as : List α) :
    (distinct revision as).Pairwise fun a b => compare (revision a) (revision b) = .lt := by
  refine List.pairwise_map.2 (List.Pairwise.imp_of_mem ?_
    (SortedMap.ofList (as.map fun a => (revision a, a))).ascending)
  intro a b ha hb less
  rw [(distinctKeys (SortedMap.getIff.2 ha)).2,
    (distinctKeys (SortedMap.getIff.2 hb)).2]
  exact less

theorem ascendingEq {α κ : Type} [Ord κ] [Std.TransOrd κ] [Std.LawfulEqOrd κ] (key : α → κ)
    {as bs : List α} (first : as.Pairwise fun a b => compare (key a) (key b) = .lt)
    (second : bs.Pairwise fun a b => compare (key a) (key b) = .lt)
    (same : ∀ a, a ∈ as ↔ a ∈ bs) : as = bs := by
  let before : α → α → Prop := fun a b => compare (key a) (key b) = .lt
  have : Std.Antisymm before := ⟨fun a b less more => absurd more (Entries.notBelowItself less)⟩
  have : Std.Irrefl before := ⟨fun a less => Entries.neOfLt less rfl⟩
  exact List.Pairwise.eq_of_mem_iff first second same

namespace Node

def head (n : Node) : Head := ⟨n, n.ancestry, n.resolution⟩

theorem headsMap (ns : List Node) : Node.heads ns = ns.map Node.head := by
  induction ns with
  | nil => rfl
  | cons n ns ih => rw [Node.heads, ih, List.map_cons, head]

def survivors (ns : List Node) : List Node :=
  maximal Node.revision Node.ancestry (distinct Node.revision ns)

def joined (ns : List Node) : Resolution := (Resolution.resolve (Node.heads ns)).2

theorem resolveHeads (ns : List Node) :
    Resolution.resolve (Node.heads ns) = ((survivors ns).map head, joined ns) ∧
      joined ns = match survivors ns with
        | [] => {}
        | [h] => h.resolution
        | hs => Resolution.merge (hs.map head) := by
  have heads : maximal (fun h : Head => h.node.revision) Head.ancestry
      (distinct (fun h : Head => h.node.revision) (Node.heads ns)) = (survivors ns).map head := by
    rw [headsMap, distinctMap, maximalMap]
    rfl
  have outcome : Resolution.resolve (Node.heads ns) = ((survivors ns).map head,
      match survivors ns with
        | [] => {}
        | [h] => h.resolution
        | hs => Resolution.merge (hs.map head)) := by
    rw [Resolution.resolve, heads]
    cases survivors ns with
    | nil => rfl
    | cons h hs => cases hs <;> rfl
  exact ⟨Prod.ext (by rw [outcome]) rfl, congrArg Prod.snd outcome⟩

theorem survivorsSingle (n : Node) : survivors [n] = [n] := by
  have alone : distinct Node.revision [n] = [n] := rfl
  simp [survivors, alone, maximal]

theorem joinedSingle (n : Node) : joined [n] = n.resolution := by
  rw [(resolveHeads [n]).2, survivorsSingle]

theorem inheritJoined (ns : List Node) : Resolution.inherit (Node.heads ns) = joined ns := by
  cases ns with
  | nil => rfl
  | cons n ns =>
    cases ns with
    | nil => exact (joinedSingle n).symm
    | cons m ns => rfl

theorem resolutionUnfold (n : Node) : n.resolution = (joined n.parents).applyChanges n := by
  rw [← inheritJoined]
  cases n
  rfl

theorem survivorsAscend (ns : List Node) :
    (survivors ns).Pairwise fun a b => compare a.revision b.revision = .lt :=
  (distinctAscends Node.revision ns).filter _

theorem survivorsSubset (ns : List Node) : survivors ns ⊆ ns :=
  fun _ member => distinctSubset (memMaximal.1 member).1

theorem survivorsEq {ns ms : List Node} (same : ∀ n, n ∈ survivors ns ↔ n ∈ survivors ms) :
    survivors ns = survivors ms :=
  ascendingEq Node.revision (survivorsAscend ns) (survivorsAscend ms) same

theorem joinedEq {ns ms : List Node} (same : survivors ns = survivors ms) :
    joined ns = joined ms := by
  rw [(resolveHeads ns).2, (resolveHeads ms).2, same]

section InHistory
variable {nodes ns : List Node} (history : History nodes) (sub : ns ⊆ nodes)
include history sub

theorem memDistinct {n : Node} : n ∈ distinct Node.revision ns ↔ n ∈ ns := by
  refine ⟨distinctSubset, fun member => ?_⟩
  obtain ⟨m, kept, same⟩ := distinctCovers Node.revision member
  exact history.single m (sub (distinctSubset kept)) n (sub member) same ▸ kept

theorem memSurvivors {n : Node} :
    n ∈ survivors ns ↔ n ∈ ns ∧ ∀ m ∈ ns, m.Reaches n → m = n := by
  rw [survivors, memMaximal]
  simp only [memDistinct history sub]
  refine and_congr_right fun member => forall₂_congr fun m other => ?_
  have seen := history.descendsIff (sub other) (sub member)
  constructor
  · intro h path
    exact history.single m (sub other) n (sub member) (h (seen.2 path))
  · intro h contained
    exact congrArg Node.revision (h (seen.1 contained))

-- Climbing to a node that has this one in its past makes nodes larger, so it ends.
theorem survivorsCover {n : Node} (member : n ∈ ns) : ∃ h ∈ survivors ns, h.Reaches n := by
  induction gap : sizeOf ns - sizeOf n using Nat.strong_induction_on generalizing n with
  | _ gap ih =>
    by_cases covered : ∃ m ∈ ns, m.Reaches n ∧ m ≠ n
    · obtain ⟨m, other, path, apart⟩ := covered
      have larger := (reachedSmaller path).resolve_left apart
      have bound : sizeOf m < sizeOf ns := List.sizeOf_lt_of_mem other
      obtain ⟨h, kept, rest⟩ := ih (sizeOf ns - sizeOf m) (by omega) other rfl
      exact ⟨h, kept, reachesTrans rest path⟩
    · have top : ∀ m ∈ ns, m.Reaches n → m = n := fun m other path =>
        by_contra fun apart => covered ⟨m, other, path, apart⟩
      exact ⟨n, (memSurvivors history sub).2 ⟨member, top⟩, reachesSelf n⟩

theorem pastSurvivors {m : Node} : Past (survivors ns) m ↔ Past ns m := by
  constructor
  · intro before
    obtain ⟨n, kept, path⟩ := before
    exact ⟨n, survivorsSubset ns kept, path⟩
  · intro before
    obtain ⟨n, member, path⟩ := before
    obtain ⟨h, kept, first⟩ := survivorsCover history sub member
    exact ⟨h, kept, reachesTrans first path⟩

theorem survivorKept {ms : List Node} (sub' : ms ⊆ nodes) (below : ∀ n ∈ ms, Past ns n)
    (above : ∀ n ∈ ns, Past ms n) {n : Node} (survivor : n ∈ survivors ns) : n ∈ survivors ms := by
  obtain ⟨member, top⟩ := (memSurvivors history sub).1 survivor
  have only : ∀ m ∈ ms, m.Reaches n → m = n := by
    intro m other path
    obtain ⟨k, here, rest⟩ := below m other
    obtain rfl := top k here (reachesTrans rest path)
    exact reachesAntisymm path rest
  obtain ⟨m, other, path⟩ := above n member
  exact (memSurvivors history sub').2 ⟨only m other path ▸ other, only⟩

theorem survivorsMutual {ms : List Node} (sub' : ms ⊆ nodes) (below : ∀ n ∈ ms, Past ns n)
    (above : ∀ n ∈ ns, Past ms n) : survivors ns = survivors ms :=
  survivorsEq fun _ => ⟨survivorKept history sub sub' below above,
    survivorKept history sub' sub above below⟩

end InHistory
end Node
end DocHistory
