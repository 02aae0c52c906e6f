import DocHistory.Version

/-!
Nodes: versions joined to their parents. A node holds its parents, so a history is acyclic by
construction and whatever a node derives from its past follows by recursion on it. A sweep fills
what nodes lack, parents before children; what a fill does to other nodes is left open.
-/
namespace DocHistory

/-- Graphs grown from one empty graph share a pool: at most `capacity` of their nodes keep what
they derived; no bound is meant by zero. -/
structure Pool where
  id : Nat
  capacity : Nat
  deriving DecidableEq, Repr, BEq

structure Node where
  version : Version
  parents : List Node
  sequence : Nat
  id : Nat
  pool : Pool

abbrev Ancestry := SortedSet Revision

namespace Node

def revision (n : Node) : Revision := n.version.revision

def branch (n : Node) : String := n.version.branch

def kind (n : Node) : VersionKind := n.version.kind

def changeset (n : Node) : Changeset := n.version.changeset

theorem induct {P : Node → Prop} (step : ∀ n, (∀ p ∈ n.parents, P p) → P n) (n : Node) : P n :=
  Node.rec (motive_1 := P) (motive_2 := fun ps => ∀ p ∈ ps, P p)
    (fun version parents sequence id pool ih => step ⟨version, parents, sequence, id, pool⟩ ih)
    (fun _ h => absurd h List.not_mem_nil)
    (fun _ _ head tail _ h => (List.mem_cons.1 h).elim (fun e => e ▸ head) (tail _)) n

mutual

def ancestry : Node → Ancestry
  | ⟨version, parents, _, _, _⟩ => (ancestryOfAll parents).add version.revision

def ancestryOfAll : List Node → Ancestry
  | [] => ∅
  | p :: ps => p.ancestry.union (ancestryOfAll ps)

end

def descendsFrom (n : Node) (r : Revision) : Bool := n.ancestry.contains r

def describe (n : Node) : String :=
  "VersionNode \x7b revision: " ++ n.revision.describe ++
    ", branch: " ++ Text.quote n.branch ++
    ", kind: " ++ n.kind.name ++
    ", parents: [" ++ ", ".intercalate (n.parents.map fun p => p.revision.describe) ++
    "], sequence: " ++ toString n.sequence ++ " \x7d"

end Node

structure Sweep (σ : Type) where
  memory : σ
  visited : SortedSet Revision := ∅
  filled : List Node := []

namespace Sweep
variable {σ : Type}

def enter (n : Node) (s : Sweep σ) : Sweep σ := { s with visited := s.visited.add n.revision }

variable (isFilled : σ → Node → Bool) (fill : Node → σ → σ)

/-- A node may have been filled by what was visited since it was entered. -/
def leave (n : Node) (s : Sweep σ) : Sweep σ :=
  if isFilled s.memory n then s
  else { s with memory := fill n s.memory, filled := n :: s.filled }

mutual

def visit : Node → Sweep σ → Sweep σ
  | ⟨version, parents, sequence, id, pool⟩, s =>
    let n : Node := ⟨version, parents, sequence, id, pool⟩
    if isFilled s.memory n || s.visited.contains n.revision then s
    else leave isFilled fill n (visitUnfilled s.memory parents (enter n s))

def visitUnfilled (before : σ) : List Node → Sweep σ → Sweep σ
  | [], s => s
  | p :: ps, s => visitUnfilled before ps (if isFilled before p then s else visit p s)

end

def visitAll (ns : List Node) (s : Sweep σ) : Sweep σ :=
  ns.foldl (fun s n => visit isFilled fill n s) s

def run (roots : List Node) (memory : σ) : σ × List Node :=
  let s := visitAll isFilled fill roots { memory := memory }
  (s.memory, s.filled.reverse)

end Sweep
end DocHistory
