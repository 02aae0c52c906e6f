import DocHistory.Stress

/-!
What the arguments of the program ask for. They are read from left to right, and the first that
does not fit is reported. No option may be given twice on one side of the command's name; a value
follows its option as the next argument or behind an equals sign.
-/
namespace DocHistory

inductive Request where
  | walkthrough
  | stress (plan : Stress.Plan)
  | help
  | version
  deriving DecidableEq, Repr

inductive UsageError where
  | missingCommand
  | unknownCommand (text : String)
  | unexpected (text : String)
  | repeated (option : String)
  | missingValue (option : String)
  | invalidValue (option value : String)
  deriving DecidableEq, Repr

def UsageError.message : UsageError → String
  | missingCommand => "a command is missing"
  | unknownCommand text => "unknown command '" ++ text ++ "'"
  | unexpected text => "unexpected argument '" ++ text ++ "'"
  | repeated option => "option '" ++ option ++ "' is given twice"
  | missingValue option => "option '" ++ option ++ "' lacks its value"
  | invalidValue option value => "invalid value '" ++ value ++ "' for option '" ++ option ++ "'"

namespace CommandLine

def programName : String := "lineage"

def programVersion : String := "0.1.0"

def usage : List String :=
  ["Branch-aware multi-version concurrency control for structured documents", "",
    "Usage: lineage [OPTIONS] <COMMAND>", "",
    "Commands:",
    "  scenario  Walk through a branching history, its merges and conflicts",
    "  stress    Read one random history from many concurrent tasks",
    "  help      Print this message", "",
    "Options:",
    "  -v, --verbose  Log graph and store internals",
    "  -h, --help     Print help",
    "  -V, --version  Print version", "",
    "Options of stress:",
    "  --readers <N>          Number of concurrent reader tasks [default: 8]",
    "  --versions <N>         Number of versions in the generated history [default: 500]",
    "  --branches <N>         Number of branches [default: 4]",
    "  --rounds <N>           Operations per reader [default: 200]",
    "  --evict-every <N>      Evict all caches every N operations, 0 for never [default: 25]",
    "  --seed <N>             Seed for the history generator",
    "  --max-layer-depth <N>  Layers before commits flatten the graph [default: 32]",
    "  --cache-capacity <N>   Nodes keeping cached state, 0 for unbounded [default: 16384]"]

def number? (s : String) : Option Nat :=
  let cs := s.toList
  let digits := match cs with
    | '+' :: rest => rest
    | _ => cs
  (Radix.read? 10 digits).filter (· < UInt64.size)

inductive Token where
  | separator
  | long (name : String) (value : Option String)
  | short (letters : List Char)
  | word (text : String)
  deriving DecidableEq, Repr

def Token.ofText (s : String) : Token :=
  match s.toList with
  | ['-', '-'] => separator
  | '-' :: '-' :: cs =>
    let name := String.ofList (cs.takeWhile (· ≠ '='))
    match cs.dropWhile (· ≠ '=') with
    | [] => long name none
    | _ :: value => long name (some (String.ofList value))
  | '-' :: c :: cs => short (c :: cs)
  | _ => word s

def Token.isValue : Token → Bool
  | word _ => true
  | _ => false

inductive Flags where
  | stop (request : Request)
  | go (verbose : Bool)

def Flags.andThen (flags : Except UsageError Flags) (next : Bool → Except UsageError Request) :
    Except UsageError Request :=
  match flags with
  | .error e => .error e
  | .ok (.stop request) => .ok request
  | .ok (.go verbose) => next verbose

def readLetters (versioned verbose : Bool) (text : String) : List Char →
    Except UsageError Flags
  | [] => .ok (.go verbose)
  | c :: cs =>
    if c = 'h' then .ok (.stop .help)
    else if c = 'V' ∧ versioned then .ok (.stop .version)
    else if c = 'v' then
      if verbose then .error (.repeated "--verbose") else readLetters versioned true text cs
    else .error (.unexpected text)

def readFlag (versioned verbose : Bool) (name : String) (value : Option String) :
    Except UsageError Flags :=
  match name, value with
  | "help", none => .ok (.stop .help)
  | "version", none =>
    if versioned then .ok (.stop .version) else .error (.unexpected "--version")
  | "verbose", none => if verbose then .error (.repeated "--verbose") else .ok (.go true)
  | name, _ => .error (.unexpected ("--" ++ name))

def readWalkthrough (verbose : Bool) : List String → Except UsageError Request
  | [] => .ok .walkthrough
  | arg :: args =>
    let next (flags : Except UsageError Flags) :=
      Flags.andThen flags fun verbose => readWalkthrough verbose args
    match Token.ofText arg with
    | .separator => match args with
      | [] => .ok .walkthrough
      | extra :: _ => .error (.unexpected extra)
    | .long name value => next (readFlag false verbose name value)
    | .short letters => next (readLetters false verbose arg letters)
    | .word text => .error (.unexpected text)

def setters : List (String × (Nat → Stress.Plan → Stress.Plan)) :=
  [("readers", fun n p => { p with readers := n }),
    ("versions", fun n p => { p with versions := n }),
    ("branches", fun n p => { p with branches := n }),
    ("rounds", fun n p => { p with rounds := n }),
    ("evict-every", fun n p => { p with evictEvery := n }),
    ("seed", fun n p => { p with seed := some n }),
    ("max-layer-depth", fun n p => { p with graph := { p.graph with maxLayers := n } }),
    ("cache-capacity", fun n p => { p with graph := { p.graph with capacity := n } })]

def setOption (given : List String) (option value : String)
    (change : Nat → Stress.Plan → Stress.Plan) (plan : Stress.Plan) :
    Except UsageError Stress.Plan :=
  match number? value with
  | none => .error (.invalidValue ("--" ++ option) value)
  | some n => if given.contains option then .error (.repeated ("--" ++ option))
    else .ok (change n plan)

def readStress (verbose : Bool) (given : List String) (plan : Stress.Plan) :
    List String → Except UsageError Request
  | [] => .ok (.stress plan)
  | arg :: args =>
    let next (flags : Except UsageError Flags) :=
      Flags.andThen flags fun verbose => readStress verbose given plan args
    match Token.ofText arg with
    | .separator => match args with
      | [] => .ok (.stress plan)
      | extra :: _ => .error (.unexpected extra)
    | .short letters => next (readLetters false verbose arg letters)
    | .word text => .error (.unexpected text)
    | .long name value =>
      match setters.lookup name with
      | none => next (readFlag false verbose name value)
      | some change =>
        match value, args with
        | some value, args => do
          let plan ← setOption given name value change plan
          readStress verbose (name :: given) plan args
        | none, [] => .error (.missingValue ("--" ++ name))
        | none, value :: args =>
          if (Token.ofText value).isValue then do
            let plan ← setOption given name value change plan
            readStress verbose (name :: given) plan args
          else .error (.missingValue ("--" ++ name))

def readHelp : List String → Except UsageError Request
  | [] => .ok .help
  | [command] =>
    if ["scenario", "stress", "help"].contains command then .ok .help
    else .error (.unknownCommand command)
  | command :: extra :: _ =>
    if ["scenario", "stress", "help"].contains command then .error (.unknownCommand extra)
    else .error (.unknownCommand command)

def readFrom (verbose : Bool) : List String → Except UsageError Request
  | [] => .error .missingCommand
  | arg :: args =>
    let next (flags : Except UsageError Flags) :=
      Flags.andThen flags fun verbose => readFrom verbose args
    match Token.ofText arg with
    | .separator => match args with
      | [] => .error .missingCommand
      | extra :: _ => .error (.unexpected extra)
    | .long name value => next (readFlag true verbose name value)
    | .short letters => next (readLetters true verbose arg letters)
    | .word "scenario" => readWalkthrough false args
    | .word "stress" => readStress false [] {} args
    | .word "help" => readHelp args
    | .word text => .error (.unknownCommand text)

def read (args : List String) : Except UsageError Request := readFrom false args

end CommandLine
end DocHistory
