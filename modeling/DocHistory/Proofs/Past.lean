import Mathlib.Logic.Relation
import DocHistory.Graph.Node
import DocHistory.Proofs.MapLookup

/-! The past of a node, read as reachability through parents. The computed ancestry lists exactly
the revisions of the past. A history holds the parents of its nodes and one node for each
revision, so within it a revision stands for its node. -/
namespace DocHistory
namespace Node

def Reaches : Node → Node → Prop :=
  Relation.ReflTransGen fun n p => p ∈ n.parents

theorem reachesSelf (n : Node) : n.Reaches n := Relation.ReflTransGen.refl

theorem reachesThrough {n p m : Node} (parent : p ∈ n.parents) (rest : p.Reaches m) :
    n.Reaches m :=
  Relation.ReflTransGen.head parent rest

theorem reachesCases {n m : Node} (path : n.Reaches m) :
    n = m ∨ ∃ p ∈ n.parents, p.Reaches m := by
  rcases Relation.ReflTransGen.cases_head path with same | ⟨p, parent, rest⟩
  · exact .inl same
  · exact .inr ⟨p, parent, rest⟩

theorem reachesTrans {a b c : Node} (first : a.Reaches b) (rest : b.Reaches c) : a.Reaches c :=
  Relation.ReflTransGen.trans first rest

theorem parentSmaller {n p : Node} (parent : p ∈ n.parents) : sizeOf p < sizeOf n := by
  obtain ⟨version, parents, sequence, id, pool⟩ := n
  have inside : sizeOf p < sizeOf parents := List.sizeOf_lt_of_mem parent
  simp only [Node.mk.sizeOf_spec]
  omega

theorem reachedSmaller {n m : Node} (path : n.Reaches m) : n = m ∨ sizeOf m < sizeOf n := by
  induction path using Relation.ReflTransGen.head_induction_on with
  | refl => exact .inl rfl
  | head parent rest ih =>
    have less := parentSmaller parent
    rcases ih with rfl | smaller
    · exact .inr less
    · exact .inr (Nat.lt_trans smaller less)

theorem reachesAntisymm {n m : Node} (forth : n.Reaches m) (back : m.Reaches n) : n = m := by
  rcases reachedSmaller forth with same | smaller
  · exact same
  · rcases reachedSmaller back with same | larger
    · exact same.symm
    · omega

theorem ancestryUnfold (n : Node) :
    n.ancestry = SortedSet.add (ancestryOfAll n.parents) n.revision := by
  cases n
  rfl

theorem ancestryOfAllFold (ps : List Node) :
    ancestryOfAll ps = ps.foldr (fun p (a : Ancestry) => p.ancestry.union a) ∅ := by
  induction ps with
  | nil => rfl
  | cons p ps ih => rw [ancestryOfAll, ih, List.foldr_cons]

theorem ancestryOfAllContains {ps : List Node} {r : Revision} :
    (ancestryOfAll ps).contains r = true ↔ ∃ p ∈ ps, p.ancestry.contains r = true := by
  induction ps with
  | nil => exact ⟨fun h => absurd h Bool.false_ne_true, fun ⟨_, h, _⟩ => absurd h List.not_mem_nil⟩
  | cons p ps ih =>
    rw [ancestryOfAll, SortedSet.containsUnion, ih]
    simp only [List.mem_cons, or_and_right, exists_or, exists_eq_left]

theorem descendsFromIff {n : Node} {r : Revision} :
    n.descendsFrom r = true ↔ ∃ m, n.Reaches m ∧ m.revision = r := by
  induction n using Node.induct with
  | step n ih =>
    rw [descendsFrom, ancestryUnfold, SortedSet.containsAdd, ancestryOfAllContains]
    constructor
    · rintro (rfl | ⟨p, parent, seen⟩)
      · exact ⟨n, reachesSelf n, rfl⟩
      · obtain ⟨m, path, same⟩ := (ih p parent).1 seen
        exact ⟨m, reachesThrough parent path, same⟩
    · rintro ⟨m, path, same⟩
      rcases reachesCases path with rfl | ⟨p, parent, rest⟩
      · exact .inl same.symm
      · exact .inr ⟨p, parent, (ih p parent).2 ⟨m, rest, same⟩⟩

def writeAt? (n : Node) (path : Path) : Option (Option Value) := n.changeset.get? path

theorem reachesWriter {n w : Node} {path : Path} {v : Option Value} (reaches : n.Reaches w)
    (wrote : w.writeAt? path = some v) (unwritten : n.writeAt? path = none) :
    ∃ p ∈ n.parents, p.Reaches w := by
  rcases reachesCases reaches with rfl | through
  · rw [wrote] at unwritten
    cases unwritten
  · exact through

end Node

open Node

def Past (ns : List Node) (m : Node) : Prop := ∃ n ∈ ns, n.Reaches m

theorem pastSingle {n m : Node} : Past [n] m ↔ n.Reaches m := by
  simp [Past]

theorem pastSelf {ns : List Node} {n : Node} (member : n ∈ ns) : Past ns n :=
  ⟨n, member, reachesSelf n⟩

structure History (nodes : List Node) : Prop where
  closed : ∀ n ∈ nodes, ∀ p ∈ n.parents, p ∈ nodes
  single : ∀ a ∈ nodes, ∀ b ∈ nodes, a.revision = b.revision → a = b

namespace History
variable {nodes : List Node}

theorem parents (history : History nodes) {n : Node} (member : n ∈ nodes) : n.parents ⊆ nodes :=
  fun p parent => history.closed n member p parent

theorem reached (history : History nodes) {n m : Node} (member : n ∈ nodes) (path : n.Reaches m) :
    m ∈ nodes := by
  induction path with
  | refl => exact member
  | tail _ parent ih => exact history.closed _ ih _ parent

theorem pastMember (history : History nodes) {ns : List Node} (sub : ns ⊆ nodes) {m : Node}
    (before : Past ns m) : m ∈ nodes := by
  obtain ⟨n, member, path⟩ := before
  exact history.reached (sub member) path

theorem findUnique (history : History nodes) {r : Revision} {found : Option Node}
    (sound : ∀ n, found = some n → n ∈ nodes ∧ n.revision = r)
    (complete : found = none → ∀ n ∈ nodes, n.revision ≠ r) :
    found = nodes.find? fun n => n.revision = r := by
  cases listed : nodes.find? fun n => n.revision = r with
  | none =>
    cases found with
    | none => rfl
    | some n =>
      obtain ⟨member, same⟩ := sound n rfl
      exact absurd same (by simpa using List.find?_eq_none.1 listed n member)
  | some m =>
    have member := List.mem_of_find?_eq_some listed
    have same : m.revision = r := by simpa using List.find?_some listed
    cases found with
    | none => exact absurd same (complete rfl m member)
    | some n =>
      obtain ⟨other, equal⟩ := sound n rfl
      exact congrArg some (history.single n other m member (equal.trans same.symm))

theorem descendsIff (history : History nodes) {n m : Node} (hn : n ∈ nodes) (hm : m ∈ nodes) :
    n.descendsFrom m.revision = true ↔ n.Reaches m := by
  rw [descendsFromIff]
  constructor
  · rintro ⟨k, path, same⟩
    obtain rfl := history.single k (history.reached hn path) m hm same
    exact path
  · intro path
    exact ⟨m, path, rfl⟩

theorem notDescends (history : History nodes) {n m : Node} (hn : n ∈ nodes) (hm : m ∈ nodes)
    (apart : ¬ n.Reaches m) : n.descendsFrom m.revision = false :=
  Bool.eq_false_iff.2 fun seen => apart ((history.descendsIff hn hm).1 seen)

end History
end DocHistory
