import DocHistory.Proofs.CacheCoherence
import DocHistory.Proofs.Chronicle
import DocHistory.Proofs.ReadDepth

/-! Calls on graphs that grow from one empty graph. A lineage answers them by layers, head indices
and a cache; a ledger answers the same calls by chronicles, and derives anew whatever it is asked
for. Apart from reports on layers, configuration and cache, the answers are the same. -/
namespace DocHistory
open Node

inductive Change where
  | commit (versions : List Version)
  | view (r : Revision)

inductive GraphQuery where
  | size
  | tip
  | nodes
  | branches
  | contains (r : Revision)
  | find (r : Revision)
  | heads (branch : String)
  | frontier (branch : String)
  | mergeRevisions (revisions : List Revision)
  | mergeBranches (branches : List String)

inductive NodeQuery where
  | ancestry
  | descendsFrom (r : Revision)
  | properties
  | versioned
  | conflicts
  | property (path : Path)
  | lastWrite (path : Path)

inductive Report where
  | config
  | depth
  | kept
  | keeps (r : Revision)
  | describe

/-- Graphs go by their place in the order in which they were made, nodes by graph and revision. -/
inductive Query where
  | graph (g : Nat) (query : GraphQuery)
  | node (g : Nat) (r : Revision) (query : NodeQuery)
  | sameGraph (g h : Nat)
  | sameNode (g h : Nat) (r : Revision)
  | merge (nodes : List (Nat × Revision))
  | evictGraph (g : Nat)
  | evictNode (g : Nat) (r : Revision)
  | report (g : Nat) (what : Report)

inductive Call where
  | make (g : Nat) (change : Change)
  | ask (query : Query)

def Call.isReport : Call → Bool
  | ask (.report _ _) => true
  | _ => false

inductive Answer where
  | absent
  | failed (error : GraphError)
  | done
  | flag (b : Bool)
  | number (n : Nat)
  | text (t : String)
  | texts (ts : List String)
  | config (c : Config)
  | node (n : Option Node)
  | nodes (ns : List Node)
  | ancestry (a : Ancestry)
  | properties (m : SortedMap Path Value)
  | versioned (m : SortedMap Path Write)
  | conflicts (m : SortedMap Path (List Write))
  | value (v : Option Value)
  | write (w : Option Write)
  | merge (m : Merge)

def Answer.ofExcept {α : Type} (answer : α → Answer) : Except GraphError α → Answer
  | .error e => .failed e
  | .ok a => answer a

namespace Change

def apply (g : Graph) (fresh : Nat) : Change → Except GraphError Graph
  | commit versions => g.commit versions fresh
  | view r => g.view r fresh

def enter (k : Chronicle) (fresh : Nat) : Change → Except GraphError Chronicle
  | commit versions => k.commit versions fresh
  | view r => k.view r fresh

def names : Change → Nat
  | commit versions => versions.length
  | view _ => 1

end Change

namespace GraphQuery

def ask (g : Graph) : GraphQuery → StateM Cache Answer
  | size => return .number g.size
  | tip => return .node (g.tip.map unpooled)
  | nodes => return .nodes (g.nodes.map unpooled)
  | branches => return .texts g.branches
  | contains r => return .flag (g.contains r)
  | find r => return .ofExcept (fun n => .node (some n.unpooled)) (g.find r)
  | heads branch => return .nodes ((g.heads branch).map unpooled)
  | frontier branch => do return .nodes ((← Cache.frontier g branch).map unpooled)
  | mergeRevisions revisions => do return .ofExcept .merge (← Cache.mergeRevisions g revisions)
  | mergeBranches names => do return .ofExcept .merge (← Cache.mergeBranches g names)

def tell (k : Chronicle) : GraphQuery → Answer
  | size => .number k.size
  | tip => .node k.tip
  | nodes => .nodes k.nodes
  | branches => .texts k.branches
  | contains r => .flag (k.contains r)
  | find r => .ofExcept (fun n => .node (some n)) (k.find r)
  | heads branch => .nodes (k.heads branch)
  | frontier branch => .nodes (k.frontier branch)
  | mergeRevisions revisions => .ofExcept .merge (k.mergeRevisions revisions)
  | mergeBranches names => .ofExcept .merge (k.mergeBranches names)

end GraphQuery

namespace NodeQuery

def ask (n : Node) : NodeQuery → StateM Cache Answer
  | ancestry => do return .ancestry (← Cache.ancestry n)
  | descendsFrom r => do return .flag (← Cache.descendsFrom n r)
  | properties => do return .properties (← Cache.view n).properties
  | versioned => do return .versioned (← Cache.view n).versioned
  | conflicts => do return .conflicts (← Cache.view n).conflicts
  | property path => do return .value ((← Cache.view n).property? path)
  | lastWrite path => do return .write ((← Cache.view n).lastWrite? path)

def tell (n : Node) : NodeQuery → Answer
  | ancestry => .ancestry n.ancestry
  | descendsFrom r => .flag (n.descendsFrom r)
  | properties => .properties n.resolution.properties
  | versioned => .versioned n.resolution.versioned
  | conflicts => .conflicts n.resolution.conflicts
  | property path => .value (n.resolution.property? path)
  | lastWrite path => .write (n.resolution.lastWrite? path)

theorem tellBare (marks : Marks) (query : NodeQuery) (n : Node) :
    query.tell (n.bare marks) = query.tell n := by
  cases query <;> simp only [tell, bareAncestry, bareDescends, bareResolution,
    Resolution.bareProperties, Resolution.bareVersioned, Resolution.bareProperty,
    Resolution.bareLastWrite]
  rfl

end NodeQuery

def Report.tell (g : Graph) (c : Cache) : Report → Answer
  | config => .config g.config
  | depth => .number g.depth
  | kept => .number (c.kept g).length
  | keeps r => .ofExcept (fun n => .flag (c.keeps n)) (g.find r)
  | describe => .text g.describe

structure Lineage where
  graphs : List Graph
  cache : Cache
  fresh : Nat

structure Ledger where
  chronicles : List Chronicle
  fresh : Nat

namespace Lineage

def start (config : Config) : Lineage := ⟨[Graph.empty config 0], {}, 1⟩

def locate (s : Lineage) (place : Nat × Revision) : Except Answer Node :=
  match s.graphs[place.1]? with
  | none => .error .absent
  | some g => (g.find place.2).mapError .failed

def respond (s : Lineage) : Query → StateM Cache Answer
  | .graph i query =>
    match s.graphs[i]? with
    | none => return .absent
    | some g => query.ask g
  | .node i r query =>
    match s.locate (i, r) with
    | .error a => return a
    | .ok n => query.ask n
  | .sameGraph i j =>
    match s.graphs[i]?, s.graphs[j]? with
    | some g, some h => return .flag (g.same h)
    | _, _ => return .absent
  | .sameNode i j r =>
    match s.locate (i, r), s.locate (j, r) with
    | .ok n, .ok m => return .flag (n.id = m.id)
    | .error a, _ => return a
    | _, .error a => return a
  | .merge places =>
    match places.mapM s.locate with
    | .error a => return a
    | .ok ns => do return .ofExcept .merge (← Cache.merge ns)
  | .evictGraph i =>
    match s.graphs[i]? with
    | none => return .absent
    | some g => do
      modify (Cache.evictGraph g)
      return .done
  | .evictNode i r =>
    match s.locate (i, r) with
    | .error a => return a
    | .ok n => do
      modify (Cache.evict n)
      return .done
  | .report i what =>
    match s.graphs[i]? with
    | none => return .absent
    | some g => do return what.tell g (← get)

def step (s : Lineage) : Call → Answer × Lineage
  | .make i change =>
    match s.graphs[i]? with
    | none => (.absent, s)
    | some g =>
      match change.apply g s.fresh with
      | .error e => (.failed e, s)
      | .ok h => (.done, { s with graphs := s.graphs ++ [h], fresh := s.fresh + change.names })
  | .ask query =>
    let (a, cache) := (s.respond query).run s.cache
    (a, { s with cache })

def answers (s : Lineage) : List Call → List Answer
  | [] => []
  | call :: calls => (s.step call).1 :: (s.step call).2.answers calls

def after (s : Lineage) : List Call → Lineage
  | [] => s
  | call :: calls => (s.step call).2.after calls

end Lineage

namespace Ledger

def start : Ledger := ⟨[⟨[], 0⟩], 1⟩

def locate (s : Ledger) (place : Nat × Revision) : Except Answer Node :=
  match s.chronicles[place.1]? with
  | none => .error .absent
  | some k => (k.find place.2).mapError .failed

def tell (s : Ledger) : Query → Answer
  | .graph i query =>
    match s.chronicles[i]? with
    | none => .absent
    | some k => query.tell k
  | .node i r query =>
    match s.locate (i, r) with
    | .error a => a
    | .ok n => query.tell n
  | .sameGraph i j =>
    match s.chronicles[i]?, s.chronicles[j]? with
    | some k, some l => .flag (k.snapshot = l.snapshot)
    | _, _ => .absent
  | .sameNode i j r =>
    match s.locate (i, r), s.locate (j, r) with
    | .ok n, .ok m => .flag (n.id = m.id)
    | .error a, _ => a
    | _, .error a => a
  | .merge places =>
    match places.mapM s.locate with
    | .error a => a
    | .ok ns => .ofExcept .merge (Merge.ofNodes ns)
  | .evictGraph i =>
    match s.chronicles[i]? with
    | none => .absent
    | some _ => .done
  | .evictNode i r =>
    match s.locate (i, r) with
    | .error a => a
    | .ok _ => .done
  | .report _ _ => .absent

def step (s : Ledger) : Call → Answer × Ledger
  | .make i change =>
    match s.chronicles[i]? with
    | none => (.absent, s)
    | some k =>
      match change.enter k s.fresh with
      | .error e => (.failed e, s)
      | .ok l => (.done, ⟨s.chronicles ++ [l], s.fresh + change.names⟩)
  | .ask query => (s.tell query, s)

def answers (s : Ledger) : List Call → List Answer
  | [] => []
  | call :: calls => (s.step call).1 :: (s.step call).2.answers calls

end Ledger
end DocHistory
