import DocHistory.CommandLine
import DocHistory.Walkthrough

/-!
The program from its arguments to its exit code: 0 for success, 1 for a failed run and 2 for
arguments that do not fit. Whatever it needs from outside comes through a console.
-/
namespace DocHistory

structure Console (m : Type → Type) where
  colored : Bool
  print : String → m Unit
  complain : String → m Unit
  /-- The clock in nanoseconds. -/
  now : m Nat
  random : Nat → m Nat

namespace Program
variable {m : Type → Type} [Monad m] (console : Console m)

def printAll (lines : List String) : m Unit := lines.forM console.print

def fail (code : UInt32) (message : String) : m UInt32 := do
  console.complain ("error: " ++ message)
  return code

def milliseconds : m UInt64 := do return ((← console.now) / 1000000).toUInt64

def newClock : m RevisionClock := do
  let origin ← console.random UInt16.size
  return { origin := origin.toUInt16 }

def newDocumentId : m DocumentId := do
  let now ← milliseconds console
  let entropy ← console.random DocumentId.entropyBound
  return .ofClock now.toNat entropy

def runWalkthrough : m UInt32 := do
  let clock ← newClock console
  let id ← newDocumentId console
  match Walkthrough.lines console.colored clock (← milliseconds console) id with
  | .error e => fail console 1 e.message
  | .ok lines => do
    printAll console lines
    return 0

def stressBanner (plan : Stress.Plan) (seed : Nat) : List String :=
  ["", Stress.frameTop,
    "║" ++ Text.alignLeft 60 "        Version Graph Stress Test (Async)" ++ "║",
    "║  Readers: " ++ toString plan.readers ++ " | Versions: " ++ toString plan.versions ++
      " | Branches: " ++ toString plan.branches ++ " | Seed: " ++ toString seed,
    Stress.frameBottom, "", "[Phase 1/2] Committing random history..."]

/-- Reads concurrently in the sense that the readers share one cache. -/
def readConcurrently (plan : Stress.Plan) (g : Graph) (start : Nat) (e : Stress.Expected)
    (cache : Cache) : m UInt32 := do
  let built ← console.now
  printAll console ["[Phase 1/2] ✓ Completed", "[Phase 2/2] Reading concurrently..."]
  match ((Stress.mismatches plan g e).run cache).1 with
  | .error e => fail console 1 e.message
  | .ok mismatches => do
    let done ← console.now
    let operations := plan.readers * plan.rounds
    let stats : Stress.Stats :=
      { readers := plan.readers
        versions := g.size
        conflicts := e.all.conflicts.size
        operations
        mismatches
        buildTime := built - start
        totalTime := done - start
        rate := Stress.rateOf operations (done - built) }
    printAll console ("[Phase 2/2] ✓ Completed" :: stats.lines console.colored)
    if 0 < mismatches then fail console 1 (toString mismatches ++ " reader results differed")
    else return 0

def runStress (plan : Stress.Plan) : m UInt32 := do
  let seed ← match plan.seed with
    | some seed => pure seed
    | none => console.random UInt64.size
  printAll console (stressBanner plan seed)
  let start ← console.now
  let clock ← newClock console
  match Stress.history plan seed clock (← milliseconds console) with
  | .error e => fail console 1 e.message
  | .ok g =>
    match (Stress.expect g).run Cache.empty with
    | (.error e, _) => fail console 1 e.message
    | (.ok e, cache) => readConcurrently console plan g start e (cache.evictGraph g)

def run (args : List String) : m UInt32 :=
  match CommandLine.read args with
  | .error e => fail console 2 e.message
  | .ok .help => do
    printAll console CommandLine.usage
    return 0
  | .ok .version => do
    console.print (CommandLine.programName ++ " " ++ CommandLine.programVersion)
    return 0
  | .ok .walkthrough => runWalkthrough console
  | .ok (.stress plan) => runStress console plan

end Program

def terminal : IO (Console IO) := do
  let output ← IO.getStdout
  let colored := Text.Style.wanted (← IO.getEnv "CLICOLOR_FORCE") (← IO.getEnv "NO_COLOR")
    (← IO.getEnv "CLICOLOR") (← output.isTty)
  return {
    colored
    print := IO.println
    complain := IO.eprintln
    now := IO.monoNanosNow
    random := fun bound => IO.rand 0 (bound - 1) }

def Program.main (args : List String) : IO UInt32 := do
  Program.run (← terminal) args

end DocHistory

