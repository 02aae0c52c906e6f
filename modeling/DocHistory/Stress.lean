import DocHistory.Document
import DocHistory.Graph.Cache

/-!
A stress test of the cache. A random history is committed version by version; then readers repeat
merges and views of it while they evict what was kept, and compare every answer with one that was
read before. The random numbers come from seeds, so a plan and its seed determine the history.
The figures of a run are a framed table.
-/
namespace DocHistory.Stress

structure Plan where
  readers : Nat := 8
  versions : Nat := 500
  branches : Nat := 4
  rounds : Nat := 200
  /-- A reader evicts everything after so many answers; zero stands for never. -/
  evictEvery : Nat := 25
  paths : Nat := 16
  seed : Option Nat := none
  graph : Config := {}
  deriving DecidableEq, Repr

/-! The history. -/

structure Edit where
  branch : Nat
  mergeFrom : Option Nat
  writes : List (Nat × Option Nat)

abbrev Chance := StateM StdGen

def below (n : Nat) : Chance Nat := modifyGet fun g => randNat g 0 (n - 1)

def percent (n : Nat) : Chance Bool := do return (← below 100) < n

def optional (condition : Bool) (value : Chance Nat) : Chance (Option Nat) := do
  if condition then return some (← value) else return none

def randomWrite (paths : Nat) : Chance (Nat × Option Nat) := do
  let path ← below paths
  let deleted ← percent 10
  return (path, ← optional (!deleted) (below 8))

def randomEdit (plan : Plan) : Chance Edit := do
  let branch ← below plan.branches
  let merging ← percent 15
  let mergeFrom ← optional merging (below plan.branches)
  let count ← below 3
  let writes ← (List.range (count + 1)).mapM fun _ => randomWrite plan.paths
  return { branch, mergeFrom, writes }

def branchName (n : Nat) : String :=
  if n = 0 then defaultBranch else "branch-" ++ toString n

def pathAt (n : Nat) : Path :=
  ((Path.root.property "fields").index (n % 4).toUInt64).property ("f" ++ toString n)

def headRevisions (g : Graph) (branch : Nat) : List Revision :=
  (g.heads (branchName branch)).map Node.revision

def Edit.draft (e : Edit) (g : Graph) : Draft :=
  let draft : Draft :=
    { branch := branchName e.branch
      parents := SortedSet.ofList (headRevisions g e.branch ++
        (e.mergeFrom.map (headRevisions g)).getD []) }
  draft.apply (e.writes.map fun w => (pathAt w.1, w.2.map fun n => .number (.int n)))

def extend (now : UInt64) (e : Edit) (state : Graph × RevisionClock) :
    Except GraphError (Graph × RevisionClock) := do
  let (g, clock) := state
  let (revision, clock) := clock.next now
  let v ← ((e.draft g).build revision).mapError .version
  let g ← g.commit [v] (g.size + 1)
  return (g, clock)

def history (plan : Plan) (seed : Nat) (clock : RevisionClock) (now : UInt64) :
    Except GraphError Graph := do
  let edits := ((List.range plan.versions).mapM fun _ => randomEdit plan).run (mkStdGen seed)
  let (g, _) ← edits.1.foldlM (fun state e => extend now e state) (Graph.empty plan.graph 0, clock)
  return g

/-! The readers. -/

structure Expected where
  branches : List String
  all : Merge
  perBranch : List (String × Merge)
  tip : Properties

abbrev Reader := ExceptT GraphError (StateM Cache)

def mergeOf (g : Graph) (branches : List String) : Reader Merge := Cache.mergeBranches g branches

def tipProperties (g : Graph) : Reader Properties :=
  match g.tip with
  | some n => (·.properties) <$> (Cache.view n : StateM Cache Resolution)
  | none => return ∅

def expect (g : Graph) : Reader Expected := do
  let perBranch ← g.branches.mapM fun b => do return (b, ← mergeOf g [b])
  let all ← mergeOf g g.branches
  return { branches := g.branches, all, perBranch, tip := ← tipProperties g }

def evictAll (g : Graph) : Reader Unit := modify (Cache.evictGraph g)

def agrees (g : Graph) (e : Expected) (question pick : Nat) : Reader Bool :=
  match question with
  | 0 => do return (← mergeOf g e.branches) == e.all
  | 1 =>
    match e.perBranch[pick]? with
    | some (branch, m) => do return (← mergeOf g [branch]) == m
    | none => return true
  | _ => do return (← tipProperties g) == e.tip

def readOnce (plan : Plan) (g : Graph) (e : Expected) (state : StdGen × Nat) (round : Nat) :
    Reader (StdGen × Nat) := do
  let (random, mismatches) := state
  let (question, random) := (below 3).run random
  let (pick, random) := (below e.branches.length).run random
  let agreed ← agrees g e question pick
  if 0 < plan.evictEvery ∧ round % plan.evictEvery = plan.evictEvery - 1 then evictAll g
  return (random, if agreed then mismatches else mismatches + 1)

def readAll (plan : Plan) (g : Graph) (e : Expected) (reader : Nat) : Reader Nat := do
  let (_, mismatches) ← (List.range plan.rounds).foldlM (readOnce plan g e) (mkStdGen reader, 0)
  return mismatches

def mismatches (plan : Plan) (g : Graph) (e : Expected) : Reader Nat := do
  (List.range plan.readers).foldlM (fun n reader => return n + (← readAll plan g e reader)) 0

open Text (Style)

structure Stats where
  readers : Nat
  versions : Nat
  conflicts : Nat
  operations : Nat
  mismatches : Nat
  buildTime : Nat
  totalTime : Nat
  rate : Double

def billion : Nat := 1000000000

def seconds (nanoseconds : Nat) : Double :=
  let whole := (Double.ofNat (nanoseconds / billion)).getD .zero
  let rest := (Double.ofRatio (nanoseconds % billion) billion).getD .zero
  (whole.plus rest).getD .zero

def rateOf (operations nanoseconds : Nat) : Double :=
  let time := seconds nanoseconds
  if time.isZero then .zero
  else (((Double.ofNat operations).getD .zero).divide time).getD .zero

def frameTop : String := "╔" ++ String.ofList (List.replicate 60 '═') ++ "╗"

def frameMiddle : String := "╠" ++ String.ofList (List.replicate 60 '═') ++ "╣"

def frameBottom : String := "╚" ++ String.ofList (List.replicate 60 '═') ++ "╝"

def row (name figure : String) : String :=
  "║  " ++ Text.alignLeft 27 (name ++ ":") ++ Text.alignRight 30 figure ++ " ║"

def timeText (nanoseconds : Nat) : String :=
  String.ofList ((seconds nanoseconds).fixed 3) ++ "s"

def Stats.verdict (s : Stats) (colored : Bool) : String :=
  if s.mismatches = 0 then
    "  " ++ (Style.strong .green).paint colored "✓" ++ " " ++
      (Style.plain .green).paint colored "every reader saw identical results"
  else
    "  " ++ (Style.strong .red).paint colored "✗" ++ " " ++
      (Style.strong .red).paint colored "readers disagreed"

def Stats.lines (s : Stats) (colored : Bool) : List String :=
  ["", frameTop,
    "║" ++ Text.alignLeft 60 "              Stress Test Statistics" ++ "║",
    frameMiddle,
    row "Readers" (toString s.readers),
    row "Versions" (toString s.versions),
    row "Conflicting paths" (toString s.conflicts),
    row "Reader operations" (toString s.operations),
    row "Mismatches" (toString s.mismatches),
    row "Build Time" (timeText s.buildTime),
    row "Total Time" (timeText s.totalTime),
    row "Operations/Second" (String.ofList (s.rate.fixed 0)),
    frameBottom, "", s.verdict colored]

end DocHistory.Stress
