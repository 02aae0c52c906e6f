import DocHistory.Graph.Merge

/-!
Version graphs: immutable snapshots of a history. A commit adds a layer of nodes on top of the
layers before it, or joins all of them into one when they would become too many. All versions of
a commit are added or none. A view shows the graph as it was after one of its versions.
-/
namespace DocHistory

structure Config where
  /-- More layers than this are joined into one. -/
  maxLayers : Nat := 32
  /-- So many nodes keep what they derived; zero sets no bound. -/
  capacity : Nat := 16384
  deriving DecidableEq, Repr

abbrev HeadIndex := SortedMap String (SortedMap Revision Node)

def HeadIndex.update (index : HeadIndex) (n : Node) : HeadIndex :=
  let index := n.parents.foldl (fun (index : HeadIndex) p =>
    match index.get? p.branch with
    | some heads => index.insert p.branch (heads.erase p.revision)
    | none => index) index
  index.insert n.branch (((index.get? n.branch).getD ∅).insert n.revision n)

structure Graph where
  layers : List (List Node)
  depth : Nat
  headIndex : HeadIndex
  tip : Option Node
  size : Nat
  config : Config
  pool : Pool
  snapshot : Nat

namespace Graph

def empty (config : Config) (fresh : Nat) : Graph where
  layers := []
  depth := 0
  headIndex := ∅
  tip := none
  size := 0
  config := config
  pool := ⟨fresh, config.capacity⟩
  snapshot := fresh

def isEmpty (g : Graph) : Bool := g.size = 0

def nodes (g : Graph) : List Node := g.layers.reverse.flatten

def find? (g : Graph) (r : Revision) : Option Node :=
  g.layers.findSome? fun layer => layer.find? fun n => n.revision = r

def contains (g : Graph) (r : Revision) : Bool := (g.find? r).isSome

def find (g : Graph) (r : Revision) : Except GraphError Node :=
  match g.find? r with
  | some n => .ok n
  | none => .error (.notFound r)

def heads (g : Graph) (branch : String) : List Node :=
  match g.headIndex.get? branch with
  | some heads => heads.values
  | none => []

def branches (g : Graph) : List String := g.headIndex.keys

def same (g h : Graph) : Bool := g.snapshot = h.snapshot

def members (g : Graph) (branch : String) : List Node :=
  distinct Node.revision (g.nodes.filter fun n => n.branch = branch)

def isRetired (g : Graph) (branch : String) : Bool :=
  (g.heads branch).isEmpty && g.headIndex.contains branch

/-- The newest nodes of a branch: its heads, or if other branches continued all of them, its
nodes that no other node of it descends from. -/
def frontier (g : Graph) (branch : String) : List Node :=
  if g.isRetired branch then maximal Node.revision Node.ancestry (g.members branch)
  else g.heads branch

def ofNodes (nodes : List Node) (config : Config) (pool : Pool) (fresh : Nat) : Graph where
  layers := [nodes]
  depth := 1
  headIndex := nodes.foldl HeadIndex.update ∅
  tip := nodes.getLast?
  size := nodes.length
  config := config
  pool := pool
  snapshot := fresh

def view (g : Graph) (r : Revision) (fresh : Nat) : Except GraphError Graph := do
  let target ← g.find r
  if g.tip.map Node.revision = some r then .ok g
  else .ok (ofNodes (g.nodes.filter fun n => n.sequence ≤ target.sequence)
    g.config g.pool fresh)

structure Staging where
  base : Graph
  added : List Node := []
  headIndex : HeadIndex
  fresh : Nat

namespace Staging

def find? (s : Staging) (r : Revision) : Option Node :=
  (s.added.find? fun n => n.revision = r).or (s.base.find? r)

def parents (s : Staging) (v : Version) : Except GraphError (List Node) :=
  v.parents.toList.mapM fun parent =>
    match s.find? parent with
    | some n => .ok n
    | none => .error (.missingParent v.revision parent)

def add (s : Staging) (v : Version) : Except GraphError Staging :=
  if v.isRoot ∧ !v.parents.isEmpty then
    .error (.version (.rootWithParents v.revision v.parents.size))
  else if (s.find? v.revision).isSome then .error (.duplicateRevision v.revision)
  else do
    let parents ← s.parents v
    let n : Node :=
      { version := v
        parents := parents
        sequence := s.base.size + s.added.length
        id := s.fresh + s.added.length
        pool := s.base.pool }
    .ok { s with added := n :: s.added, headIndex := HeadIndex.update s.headIndex n }

def finish (s : Staging) : Graph :=
  match s.added with
  | [] => s.base
  | tip :: _ =>
    let layer := s.added.reverse
    let joins := s.base.depth + 1 > s.base.config.maxLayers
    { s.base with
      layers := if joins then [s.base.nodes ++ layer] else layer :: s.base.layers
      depth := if joins then 1 else s.base.depth + 1
      headIndex := s.headIndex
      tip := some tip
      size := s.base.size + s.added.length
      snapshot := s.fresh }

end Staging

/-- The graph with the versions added in their order. Identities are taken from `fresh` on, one
for each version. -/
def commit (g : Graph) (versions : List Version) (fresh : Nat) : Except GraphError Graph := do
  let s ← versions.foldlM Staging.add { base := g, headIndex := g.headIndex, fresh }
  .ok s.finish

def mergeNodes (nodes : List Node) : Except GraphError Merge :=
  if nodes.isEmpty then .ok .empty else Merge.ofNodes nodes

def mergeRevisions (g : Graph) (revisions : List Revision) : Except GraphError Merge := do
  let nodes ← revisions.mapM g.find
  mergeNodes nodes

def mergeBranches (g : Graph) (branches : List String) : Except GraphError Merge :=
  mergeNodes (branches.flatMap g.heads)

def describe (g : Graph) : String :=
  "VersionGraph \x7b len: " ++ toString g.size ++
    ", tip: " ++ (match g.tip with
      | some n => "Some(" ++ n.revision.describe ++ ")"
      | none => "None") ++
    ", branches: [" ++ ", ".intercalate (g.branches.map Text.quote) ++
    "], layer_depth: " ++ toString g.depth ++ " \x7d"

end Graph
end DocHistory
