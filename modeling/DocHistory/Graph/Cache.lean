import Std.Data.TreeMap
import DocHistory.Graph

/-!
What nodes derive from their past, kept until a pool runs over. A read answers from the cache or
fills it, ancestors first, and then admits the filled nodes to their pool, which lets go of the
nodes admitted longest ago. Which nodes are kept depends on the order of reads; what a read
answers does not.
-/
namespace DocHistory

structure Slots where
  ancestry : Option Ancestry := none
  view : Option Resolution := none

abbrev Residents := List Node

structure Cache where
  slots : Std.TreeMap Nat Slots := ∅
  residents : Std.TreeMap Nat Residents := ∅

namespace Cache

def empty : Cache := {}

def slotsOf (c : Cache) (n : Node) : Slots := (c.slots[n.id]?).getD {}

def residentsOf (c : Cache) (p : Pool) : Residents := (c.residents[p.id]?).getD []

def hasAncestry (c : Cache) (n : Node) : Bool := (c.slotsOf n).ancestry.isSome

def hasView (c : Cache) (n : Node) : Bool := (c.slotsOf n).view.isSome

def keeps (c : Cache) (n : Node) : Bool := c.hasAncestry n || c.hasView n

def storeAncestry (n : Node) (a : Ancestry) (c : Cache) : Cache :=
  { c with slots := c.slots.insert n.id { c.slotsOf n with ancestry := some a } }

def storeView (n : Node) (r : Resolution) (c : Cache) : Cache :=
  { c with slots := c.slots.insert n.id { c.slotsOf n with view := some r } }

def evict (n : Node) (c : Cache) : Cache := { c with slots := c.slots.erase n.id }

def evictGraph (g : Graph) (c : Cache) : Cache := g.nodes.foldl (fun c n => c.evict n) c

def kept (c : Cache) (g : Graph) : List Node := g.nodes.filter c.keeps

/-! Admission. -/

def push (capacity : Nat) (n : Node) (residents : Residents) : Residents × Option Node :=
  let all := n :: residents.filter fun m => m.revision ≠ n.revision
  if all.length ≤ capacity then (all, none) else (all.dropLast, all.getLast?)

def pushAll (capacity : Nat) : List Node → Residents → Residents × List Node
  | [], residents => (residents, [])
  | n :: ns, residents =>
    let (residents, left) := push capacity n residents
    let (residents, more) := pushAll capacity ns residents
    (residents, left.toList ++ more)

/-- Nodes that left and were not admitted again by the same batch lose what they derived. -/
def enroll (p : Pool) (batch : List Node) (c : Cache) : Cache :=
  if p.capacity = 0 then c
  else
    let (residents, left) := pushAll p.capacity batch (c.residentsOf p)
    let gone := left.filter fun n => !residents.any fun m => m.revision = n.revision
    gone.foldl (fun c n => c.evict n) { c with residents := c.residents.insert p.id residents }

/-! Ancestries. -/

def ancestryOf (c : Cache) (p : Node) : Ancestry :=
  match (c.slotsOf p).ancestry with
  | some a => a
  | none => p.ancestry

def computeAncestry (c : Cache) (n : Node) : Ancestry :=
  let past : Ancestry := n.parents.foldr (fun p a => (c.ancestryOf p).union a) ∅
  past.add n.revision

def fillAncestry (n : Node) (c : Cache) : Cache := c.storeAncestry n (c.computeAncestry n)

def ancestry (n : Node) : StateM Cache Ancestry := do
  match ((← get).slotsOf n).ancestry with
  | some a => return a
  | none =>
    let filled ← modifyGet fun c =>
      let (c, filled) := Sweep.run hasAncestry fillAncestry n.parents c
      (filled, c)
    let a := (← get).computeAncestry n
    modify fun c => (c.storeAncestry n a).enroll n.pool (filled ++ [n])
    return a

def descendsFrom (n : Node) (r : Revision) : StateM Cache Bool := do
  return (← ancestry n).contains r

/-! Merges. The reads stop as soon as the answer is known. -/

def overtaken (c : Contest) (r : Revision) : StateM Cache Bool :=
  c.rivals.anyM fun e => if e.revision = r then pure false else descendsFrom e.writer r

def isFresh (c : Contest) (e : LastWrite) : StateM Cache Bool := do
  if c.knownToHolder e.revision then return false
  else if ← overtaken c e.revision then return false
  else return !(e.value == c.winner.value)

def isCarried (c : Contest) (w : Write) : StateM Cache Bool := do
  if w.revision = c.winner.revision then return false
  else if w.value == c.winner.value then return false
  else return !(← overtaken c w.revision)

def conflicts (c : Contest) : StateM Cache (List Write) := do
  let fresh ← c.losers.filterM (isFresh c)
  let carried ← c.carried.filterM (isCarried c)
  return Contest.collect fresh carried

def outcomes (heads : List Head) : List Path → StateM Cache (List (Path × LastWrite × List Write))
  | [] => return []
  | path :: paths =>
    match Contest.at? heads path with
    | none => outcomes heads paths
    | some c => do
      let lost ← conflicts c
      let rest ← outcomes heads paths
      return (path, c.winner, lost) :: rest

def resolveBy (view : Node → StateM Cache Resolution) (requested : List Node) :
    StateM Cache (List Node × Resolution) := do
  let candidates ← (distinct Node.revision requested).mapM fun n => do return (n, ← ancestry n)
  let heads := (maximal (·.1.revision) (·.2) candidates).map (·.1)
  match heads with
  | [] => return (heads, {})
  | [n] => return (heads, ← view n)
  | _ =>
    let views ← heads.mapM view
    let ancestries ← heads.mapM ancestry
    let merged := (heads.zip (ancestries.zip views)).map fun h => ⟨h.1, h.2.1, h.2.2⟩
    return (heads, .ofOutcomes (← outcomes merged (Resolution.paths merged)))

/-! Views. -/

def computeView (view : Node → StateM Cache Resolution) (n : Node) : StateM Cache Resolution := do
  let start ← match n.parents with
    | [] => pure {}
    | [p] => view p
    | ps => (·.2) <$> resolveBy view ps
  return start.applyChanges n

/-- Reads the view of a node over at most `depth` generations; from there on it is derived
without the cache. -/
def viewWithin : Nat → Node → StateM Cache Resolution
  | 0, n => return n.resolution
  | depth + 1, n => do
    match ((← get).slotsOf n).view with
    | some r => return r
    | none =>
      let _ ← ancestry n
      let fillView (m : Node) (c : Cache) : Cache :=
        let (r, c) := (computeView (viewWithin depth) m).run c
        c.storeView m r
      let filled ← modifyGet fun c =>
        let (c, filled) := Sweep.run hasView fillView n.parents c
        (filled, c)
      let r ← computeView (viewWithin depth) n
      modify fun c => (c.storeView n r).enroll n.pool (filled ++ [n])
      return r

def view (n : Node) : StateM Cache Resolution := viewWithin (n.sequence + 1) n

def merge (nodes : List Node) : StateM Cache (Except GraphError Merge) :=
  if nodes.isEmpty then return .error .nothingToMerge
  else do
    let (heads, r) ← resolveBy view nodes
    return .ok (.ofResolution (heads.map Node.revision) r)

def mergeNodes (nodes : List Node) : StateM Cache (Except GraphError Merge) :=
  if nodes.isEmpty then return .ok .empty else merge nodes

def mergeRevisions (g : Graph) (revisions : List Revision) :
    StateM Cache (Except GraphError Merge) :=
  match revisions.mapM g.find with
  | .error e => return .error e
  | .ok nodes => mergeNodes nodes

def mergeBranches (g : Graph) (branches : List String) : StateM Cache (Except GraphError Merge) :=
  mergeNodes (branches.flatMap g.heads)

def frontier (g : Graph) (branch : String) : StateM Cache (List Node) := do
  if g.isRetired branch then
    let members ← (g.members branch).mapM fun n => do return (n, ← ancestry n)
    return (maximal (·.1.revision) (·.2) members).map (·.1)
  else return g.heads branch

end Cache
end DocHistory
