import DocHistory.Repository

/-!
A guided tour of seven versions on two branches: they diverge, merge with a conflict, the
conflict is settled, and the history is reloaded from its store.
-/
namespace DocHistory.Walkthrough

open Text (Style Color)

/-! What the tour prints. The flag tells whether in colours. -/

def header (colored : Bool) (title : String) : List String :=
  let bar := (Style.plain .cyan).paint colored (String.ofList (List.replicate 60 '═'))
  ["", bar, "  " ++ (Style.strong .white).paint colored title, bar]

def heading (colored : Bool) (title : String) : List String :=
  ["", (Style.plain .yellow).paint colored "▸" ++ " " ++
    Style.paint { bold := true } colored title]

def step (colored : Bool) (text : String) : String :=
  "  " ++ (Style.plain .green).paint colored "•" ++ " " ++ text

def success (colored : Bool) (text : String) : String :=
  "  " ++ (Style.strong .green).paint colored "✓" ++ " " ++ (Style.plain .green).paint colored text

def failure (colored : Bool) (text : String) : String :=
  "  " ++ (Style.strong .red).paint colored "✗" ++ " " ++ (Style.strong .red).paint colored text

def propertyLines (colored : Bool) (properties : Properties) : List String :=
  properties.entries.map fun e =>
    "    " ++ (Style.plain .white).paint colored (Text.alignLeft 12 e.1.text) ++ " = " ++ e.2.render

abbrev Names := List (Revision × String)

def Names.of (names : Names) (r : Revision) : String := (names.lookup r).getD "?"

def loserText (names : Names) (w : Write) : String :=
  (match w.value with
    | some a => a.render
    | none => "<deleted>") ++ " from " ++ Names.of names w.revision

def conflictLine (colored : Bool) (names : Names) (conflict : Path × List Write) : String :=
  "  " ++ (Style.strong .red).paint colored "✗" ++ " conflict on " ++
    (Style.plain .white).paint colored conflict.1.text ++ ": " ++
    (Style.plain .red).paint colored (", ".intercalate (conflict.2.map (loserText names)))

def mergeLines (colored : Bool) (names : Names) (m : Merge) : List String :=
  let heads := ", ".intercalate (m.heads.toList.map (Names.of names))
  step colored ("merge heads: " ++ (Style.plain .magenta).paint colored heads) ::
    propertyLines colored m.properties ++
    (if m.hasConflicts then m.conflicts.entries.map (conflictLine colored names)
      else [success colored "no conflicts"])

/-! The versions. -/

def version (branch : String) (parents : List Version) (changes : List (String × Value))
    (r : Revision) : Except StoreError Version := do
  let writes ← changes.mapM fun c => do
    let path ← (Path.ofText c.1).mapError fun e => .graph (.version e)
    Except.ok (path, if c.2.isNull then none else some c.2)
  let draft : Draft := { branch, parents := SortedSet.ofList (parents.map Version.revision) }
  ((draft.apply writes).build r).mapError fun e => .graph (.version e)

def otherBranch : String := "alt"

def lines (colored : Bool) (clock : RevisionClock) (now : UInt64) (id : DocumentId) :
    Except StoreError (List String) := do
  let revisions := (clock.draw (List.replicate 7 now)).1
  let revision (n : Nat) : Revision := revisions.getD (n - 1) default
  let names : Names := revisions.zip ["V1", "V2", "V3", "V4", "V5", "V6", "V7"]
  let both := [defaultBranch, otherBranch]
  let v1 ← version defaultBranch []
    [("firstName", .string "John"), ("lastName", .string "Doe")] (revision 1)
  let v2 ← version defaultBranch [v1] [("status", .string "Single")] (revision 2)
  let v3 ← version otherBranch [v1] [("mood", .string "Lonely")] (revision 3)
  let v4 ← version otherBranch [v3]
    [("lastName", .string "Foe"), ("status", .string "Just married"),
      ("mood", .string "Ecstatic"), ("married", .string "2013-10-12")] (revision 4)
  let commit (g : Graph) (versions : List Version) (fresh : Nat) (s : Store) :=
    match Repository.commit [] id g versions fresh s with
    | (.ok g, s) => Except.ok (g, s)
    | (.error e, _) => .error e
  let (diverged, s) ← commit (Graph.empty {} 0) [v1, v2, v3, v4] 1 .empty
  let apart ← (diverged.mergeRevisions [v2.revision, v4.revision]).mapError .graph
  let v5 ← version defaultBranch [v2] [("mood", .string "Ecstatic")] (revision 5)
  let v6 ← version defaultBranch [v5, v4] [("mood", .null), ("married", .null)] (revision 6)
  let (merged, s) ← commit diverged [v5, v6] 5 s
  let node ← (merged.find v6.revision).mapError .graph
  let carried ← (merged.mergeBranches both).mapError .graph
  let v7 ← version defaultBranch [v6] [("status", .string "Married")] (revision 7)
  let (settled, s) ← commit merged [v7] 7 s
  let after ← (settled.mergeBranches both).mapError .graph
  let reloaded ← Repository.load {} id 8 s
  let document ← Repository.read reloaded both
  let again ← (reloaded.mergeBranches both).mapError .graph
  return header colored "SCENARIO — Branches, Merges and Conflicts" ++
    heading colored "Phase 1: Build a history with two branches" ++
    [step colored "V1 (default): firstName = John, lastName = Doe",
      step colored "V2 (default, parent V1): status = Single",
      step colored "V3 (alt, parent V1): mood = Lonely",
      step colored
        "V4 (alt, parent V3): lastName = Foe, status = Just married, mood = Ecstatic, married"] ++
    heading colored "Phase 2: Merge V2 with V4" ++
    mergeLines colored names apart ++
    [step colored "lastName: Doe was seen by V4 before it wrote Foe, so it is not a conflict"] ++
    heading colored "Phase 3: Merge the branches in a new version" ++
    [step colored "V5 (default, parent V2): mood = Ecstatic",
      step colored "V6 (default, parents V5 + V4): delete mood and married",
      step colored "V6 resolves to:"] ++
    propertyLines colored node.resolution.properties ++
    mergeLines colored names carried ++
    heading colored "Phase 4: Settle the conflict" ++
    [step colored "V7 (default, parent V6): status = Married"] ++
    mergeLines colored names after ++
    heading colored "Phase 5: Reload from the store" ++
    [step colored (toString reloaded.size ++ " versions reloaded"),
      step colored ("document: " ++ (Style.plain .white).paint colored document.render),
      if after == again then success colored "reloaded graph merges identically"
      else failure colored "reloaded graph differs"]

end DocHistory.Walkthrough
