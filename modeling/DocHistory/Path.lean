import DocHistory.Text

/-!
Paths into a document: lists of steps. A path comes before its extensions; between steps of
different kinds properties come first, then indexes, then keys. In text, as in
`customer.addresses[0]["zip code"]`, a backslash makes the next character part of the name or
key. Reading undoes printing for every path without an empty name, which prints as nothing.
-/
namespace DocHistory

inductive Segment where
  | property (name : String)
  | index (position : UInt64)
  | key (name : String)
  deriving DecidableEq, Repr

namespace Segment

def rank : Segment → Nat
  | property _ => 0
  | index _ => 1
  | key _ => 2

def name : Segment → String
  | property n => n
  | index _ => ""
  | key n => n

def position : Segment → UInt64
  | index i => i
  | _ => 0

instance : Ord Segment :=
  ⟨compareLex (compareOn rank) (compareLex (compareOn name) (compareOn position))⟩

instance : Std.TransOrd Segment :=
  inferInstanceAs (Std.TransCmp
    (compareLex (compareOn rank) (compareLex (compareOn name) (compareOn position))))

instance : Std.LawfulEqOrd Segment where
  eq_of_compare {a b} h := by
    have h : (compareOn rank a b).then
        ((compareOn name a b).then (compareOn position a b)) = .eq := h
    simp only [Ordering.then_eq_eq, compareOn, Std.LawfulEqCmp.compare_eq_iff_eq] at h
    obtain ⟨h₁, h₂, h₃⟩ := h
    cases a <;> cases b <;> simp_all [rank, name, position]

end Segment

structure Path where
  segments : List Segment
  deriving DecidableEq, Repr, Inhabited

namespace Path

instance : Ord Path := ⟨compareOn segments⟩

instance : Std.TransOrd Path := inferInstanceAs (Std.TransCmp (compareOn segments))

instance : Std.LawfulEqOrd Path where
  eq_of_compare {a b} h := by
    have h : compare a.segments b.segments = .eq := h
    cases a
    cases b
    exact congrArg _ (Std.LawfulEqCmp.eq_of_compare h)

def root : Path := ⟨[]⟩

def isRoot (p : Path) : Bool := p.segments.isEmpty

def length (p : Path) : Nat := p.segments.length

def push (p : Path) (s : Segment) : Path := ⟨p.segments ++ [s]⟩

def property (p : Path) (name : String) : Path := p.push (.property name)

def index (p : Path) (position : UInt64) : Path := p.push (.index position)

def key (p : Path) (name : String) : Path := p.push (.key name)

def parent? (p : Path) : Option Path :=
  if p.isRoot then none else some ⟨p.segments.dropLast⟩

def last? (p : Path) : Option Segment := p.segments.getLast?

def startsWith (p q : Path) : Bool := q.segments.isPrefixOf p.segments

end Path

inductive PathFault where
  | leadingDot
  | emptyName
  | danglingEscape
  | unterminatedKey
  | invalidIndex
  | unclosedBracket
  | missingSeparator
  deriving DecidableEq, Repr

def PathFault.message : PathFault → String
  | leadingDot => "leading '.'"
  | emptyName => "empty property name"
  | danglingEscape => "dangling '\\'"
  | unterminatedKey => "unterminated key"
  | invalidIndex => "invalid index"
  | unclosedBracket => "expected ']'"
  | missingSeparator => "expected '.' or '['"

namespace Segment

def escapeName (c : Char) : List Char :=
  if c = '.' ∨ c = '[' ∨ c = '\\' then ['\\', c] else [c]

def escapeKey (c : Char) : List Char :=
  if c = '"' ∨ c = '\\' then ['\\', c] else [c]

def chars : Segment → List Char
  | property name => name.toList.flatMap escapeName
  | index position => '[' :: Radix.text 10 position.toNat ++ [']']
  | key name => '[' :: '"' :: name.toList.flatMap escapeKey ++ ['"', ']']

def laterChars : Segment → List Char
  | property name => '.' :: chars (property name)
  | s => s.chars

end Segment

theorem okBind {ε α β : Type} {x : Except ε α} {f : α → Except ε β} {b : β} :
    x >>= f = .ok b ↔ ∃ a, x = .ok a ∧ f a = .ok b := by
  cases x <;> simp [bind, Except.bind]

namespace Path

def chars (p : Path) : List Char :=
  match p.segments with
  | [] => []
  | s :: rest => s.chars ++ rest.flatMap Segment.laterChars

def text (p : Path) : String := String.ofList p.chars

def describe (p : Path) : String := "Path(" ++ p.text ++ ")"

def scanName : List Char → Except PathFault (List Char × List Char)
  | [] => .ok ([], [])
  | '\\' :: c :: cs => do
    let (name, rest) ← scanName cs
    .ok (c :: name, rest)
  | c :: cs =>
    if c = '\\' then .error .danglingEscape
    else if c = '.' ∨ c = '[' then .ok ([], c :: cs)
    else do
      let (name, rest) ← scanName cs
      .ok (c :: name, rest)

def scanKey : List Char → Except PathFault (List Char × List Char)
  | [] => .error .unterminatedKey
  | '\\' :: c :: cs => do
    let (key, rest) ← scanKey cs
    .ok (c :: key, rest)
  | c :: cs =>
    if c = '\\' then .error .danglingEscape
    else if c = '"' then .ok ([], cs)
    else do
      let (key, rest) ← scanKey cs
      .ok (c :: key, rest)

def readName (cs : List Char) : Except PathFault (Segment × List Char) := do
  let (name, rest) ← scanName cs
  if name.isEmpty then .error .emptyName else .ok (.property (String.ofList name), rest)

def readIndex (cs : List Char) : Except PathFault (Segment × List Char) :=
  match (Radix.read? 10 (cs.takeWhile Radix.isDigit)).filter (· < UInt64.size) with
  | some n => .ok (.index n.toUInt64, cs.dropWhile Radix.isDigit)
  | none => .error .invalidIndex

def closeBracket (step : Segment × List Char) : Except PathFault (Segment × List Char) :=
  match step with
  | (s, ']' :: rest) => .ok (s, rest)
  | _ => .error .unclosedBracket

def readBracket : List Char → Except PathFault (Segment × List Char)
  | '"' :: cs => do
    let (key, rest) ← scanKey cs
    closeBracket (.key (String.ofList key), rest)
  | cs => readIndex cs >>= closeBracket

theorem scanNameLength {cs name rest} (h : scanName cs = .ok (name, rest)) :
    name.length + rest.length ≤ cs.length := by
  fun_induction scanName cs generalizing name rest with
  | case1 => cases h; simp
  | case2 c cs ih =>
    obtain ⟨_, scanned, same⟩ := okBind.1 h
    cases same
    have := ih scanned
    simp only [List.length_cons]
    omega
  | case3 => cases h
  | case4 => cases h; simp
  | case5 c cs _ _ _ ih =>
    obtain ⟨_, scanned, same⟩ := okBind.1 h
    cases same
    have := ih scanned
    simp only [List.length_cons]
    omega

theorem scanKeyLength {cs key rest} (h : scanKey cs = .ok (key, rest)) :
    rest.length ≤ cs.length := by
  fun_induction scanKey cs generalizing key rest with
  | case1 => cases h
  | case2 c cs ih =>
    obtain ⟨_, scanned, same⟩ := okBind.1 h
    cases same
    have := ih scanned
    simp only [List.length_cons]
    omega
  | case3 => cases h
  | case4 => cases h; simp
  | case5 c cs _ _ _ ih =>
    obtain ⟨_, scanned, same⟩ := okBind.1 h
    cases same
    have := ih scanned
    simp only [List.length_cons]
    omega

theorem readNameLength {cs s rest} (h : readName cs = .ok (s, rest)) :
    rest.length < cs.length := by
  unfold readName at h
  obtain ⟨p, scanned, done⟩ := okBind.1 h
  dsimp only at done
  split at done
  · cases done
  next filled =>
    have := scanNameLength scanned
    cases done
    have : 0 < p.1.length := List.length_pos_iff.2 (by simpa using filled)
    omega

theorem closeBracketLength {s : Segment} {cs s' rest} (h : closeBracket (s, cs) = .ok (s', rest)) :
    rest.length < cs.length := by
  unfold closeBracket at h
  split at h
  next e => cases e; cases h; simp
  · cases h

theorem readBracketLength {cs s rest} (h : readBracket cs = .ok (s, rest)) :
    rest.length < cs.length := by
  unfold readBracket at h
  split at h
  next cs =>
    obtain ⟨_, scanned, closed⟩ := okBind.1 h
    have := closeBracketLength closed
    have := scanKeyLength scanned
    simp only [List.length_cons]
    omega
  · unfold readIndex at h
    split at h
    · exact Nat.lt_of_lt_of_le (closeBracketLength h) (List.dropWhile_sublist Radix.isDigit).length_le
    · cases h

/-- Only the first step of a text may be a name without a dot before it. -/
def readStep (first : Bool) (c : Char) (cs : List Char) :
    Except PathFault (Segment × List Char) :=
  if c = '[' then readBracket cs
  else if c = '.' then if first then .error .leadingDot else readName cs
  else if first then readName (c :: cs) else .error .missingSeparator

theorem readStepLength {first : Bool} {c : Char} {cs s rest}
    (h : readStep first c cs = .ok (s, rest)) : rest.length < (c :: cs).length := by
  unfold readStep at h
  split at h
  · exact Nat.lt_succ_of_lt (readBracketLength h)
  · split at h
    · split at h
      · cases h
      · exact Nat.lt_succ_of_lt (readNameLength h)
    · split at h
      · exact readNameLength h
      · cases h

def readSegments (first : Bool) (cs : List Char) : Except PathFault (List Segment) :=
  match cs with
  | [] => .ok []
  | c :: cs =>
    match _h : readStep first c cs with
    | .error fault => .error fault
    | .ok (s, rest) => (readSegments false rest).map (s :: ·)
termination_by cs.length
decreasing_by exact readStepLength _h

def ofChars (cs : List Char) : Except PathFault Path := (readSegments true cs).map .mk

end Path
end DocHistory
