import DocHistory.Json

/-!
Serialized forms as trees: what JSON text says before it is given a type. Members of a record
keep their order and may repeat. A tree read from faulty text ends in `broken` at the fault, so
that whatever stands before it can still be interpreted first. Well-formed text that no value
has, such as a number past the finite ones, is `unreadable`; a record is `severed` at a name
that no member has, and holds the members before it.
-/
namespace DocHistory

inductive Wire where
  | null
  | bool (value : Bool)
  | number (value : Number)
  | text (value : String)
  | list (items : List Wire)
  | record (members : List (String × Wire))
  | severed (members : List (String × Wire))
  | unreadable
  | broken
  deriving Repr, Inhabited

mutual

def Json.toWire : Json → Wire
  | .null => .null
  | .bool b => .bool b
  | .number n => .number n
  | .string s => .text s
  | .array items => .list (Json.itemsToWire items)
  | .object members => .record (Json.membersToWire members)

def Json.itemsToWire : List Json → List Wire
  | [] => []
  | a :: as => a.toWire :: Json.itemsToWire as

def Json.membersToWire : List (String × Json) → List (String × Wire)
  | [] => []
  | (k, a) :: as => (k, a.toWire) :: Json.membersToWire as

end

mutual

def Wire.toValue? : Wire → Option Value
  | .null => some .null
  | .bool b => some (.bool b)
  | .number n => some (.number n)
  | .text s => some (.string s)
  | .list items => (Wire.itemsToValues? items).map .array
  | .record members => (Wire.membersToValues? members).map .object
  | .severed _ => none
  | .unreadable => none
  | .broken => none

def Wire.itemsToValues? : List Wire → Option (List Value)
  | [] => some []
  | w :: ws => do
    let a ← w.toValue?
    let as ← Wire.itemsToValues? ws
    some (a :: as)

def Wire.membersToValues? : List (String × Wire) → Option (List (String × Value))
  | [] => some []
  | (k, w) :: ws => do
    let a ← w.toValue?
    let as ← Wire.membersToValues? ws
    some ((k, a) :: as)

end

namespace Wire

def escapeChar (c : Char) : List Char :=
  if c = '"' ∨ c = '\\' then ['\\', c]
  else if c = '\n' then ['\\', 'n']
  else if c = '\r' then ['\\', 'r']
  else if c = '\t' then ['\\', 't']
  else if c = '\x08' then ['\\', 'b']
  else if c = '\x0c' then ['\\', 'f']
  else if c < ' ' then ['\\', 'u'] ++ Radix.padded 16 4 c.toNat
  else [c]

def textChars (s : String) : List Char := '"' :: s.toList.flatMap escapeChar ++ ['"']

mutual

def chars : Wire → List Char
  | null => ['n', 'u', 'l', 'l']
  | bool true => ['t', 'r', 'u', 'e']
  | bool false => ['f', 'a', 'l', 's', 'e']
  | number n => n.chars
  | text s => textChars s
  | list [] => ['[', ']']
  | list (w :: ws) => '[' :: w.chars ++ laterItems ws
  | record [] => ['\x7b', '\x7d']
  | record ((k, w) :: ws) => '\x7b' :: textChars k ++ ':' :: w.chars ++ laterMembers ws
  | severed _ => []
  | unreadable => []
  | broken => []

def laterItems : List Wire → List Char
  | [] => [']']
  | w :: ws => ',' :: w.chars ++ laterItems ws

def laterMembers : List (String × Wire) → List Char
  | [] => ['\x7d']
  | (k, w) :: ws => ',' :: textChars k ++ ':' :: w.chars ++ laterMembers ws

end

def render (w : Wire) : String := String.ofList w.chars

end Wire

def Value.toWire (a : Value) : Wire := a.json.toWire

def Value.render (a : Value) : String := a.toWire.render

namespace Wire

abbrev Rest := Option (List Char)

def skipBlanks : List Char → List Char :=
  List.dropWhile fun c => c = ' ' ∨ c = '\n' ∨ c = '\t' ∨ c = '\r'

/-! Numbers. -/

def ofFloat (negative : Bool) (d : Option Double) : Wire :=
  match d with
  | some d => number (.float { d with negative })
  | none => unreadable

/-- From behind the exponent's mark. An exponent past 31 bits leaves nothing, or too much. -/
def readExponent (negative : Bool) (significand : Nat) (exponent : Int) (cs : List Char) :
    Wire × Rest :=
  let (down, cs) := match cs with
    | '+' :: rest => (false, rest)
    | '-' :: rest => (true, rest)
    | _ => (false, cs)
  let ds := cs.takeWhile Radix.isDigit
  let e : Int := ds.foldl (fun v c => v * 10 + (c.toNat - 48)) 0
  if ds.isEmpty then (broken, none)
  else
    let d :=
      if e < 0x80000000 then Number.scale significand (if down then exponent - e else exponent + e)
      else if significand = 0 ∨ down then some .zero else none
    (ofFloat negative d, some (cs.dropWhile Radix.isDigit))

def readTail (negative : Bool) (significand : Nat) (exponent : Int) (cs : List Char) :
    Wire × Rest :=
  match cs with
  | 'e' :: rest => readExponent negative significand exponent rest
  | 'E' :: rest => readExponent negative significand exponent rest
  | _ => (ofFloat negative (Number.scale significand exponent), some cs)

def readFraction (negative : Bool) (significand : Nat) (exponent : Int) (cs : List Char) :
    Wire × Rest :=
  let ds := cs.takeWhile Radix.isDigit
  if ds.isEmpty then (broken, none)
  else
    let (significand, taken, _) := Number.takeDigits significand 0 ds
    readTail negative significand (exponent - taken) (cs.dropWhile Radix.isDigit)

def readNumber (negative : Bool) (cs : List Char) : Wire × Rest :=
  let ds := cs.takeWhile Radix.isDigit
  if ds.isEmpty ∨ (ds.head? = some '0' ∧ 1 < ds.length) then (broken, none)
  else
    let (significand, _, left) := Number.takeDigits 0 0 ds
    match cs.dropWhile Radix.isDigit with
    | '.' :: rest => readFraction negative significand left rest
    | rest =>
      if left = 0 ∧ rest.head? ≠ some 'e' ∧ rest.head? ≠ some 'E' then
        (number (.ofWhole negative significand), some rest)
      else readTail negative significand left rest

/-! Strings. -/

def readHex : List Char → Option (Nat × List Char)
  | a :: b :: c :: d :: rest => (Radix.read? 16 [a, b, c, d]).map fun n => (n, rest)
  | _ => none

def isHighSurrogate (n : Nat) : Bool := 0xd800 ≤ n ∧ n < 0xdc00

def isLowSurrogate (n : Nat) : Bool := 0xdc00 ≤ n ∧ n < 0xe000

def readUnit (n : Nat) (cs : List Char) : Option Char × List Char :=
  if isHighSurrogate n then
    match cs with
    | '\\' :: 'u' :: cs' =>
      match readHex cs' with
      | some (low, rest) =>
        if isLowSurrogate low then
          (some (Char.ofNat (0x10000 + (n - 0xd800) * 0x400 + (low - 0xdc00))), rest)
        else (none, cs)
      | none => (none, cs)
    | _ => (none, cs)
  else if isLowSurrogate n then (none, cs)
  else (some (Char.ofNat n), cs)

def letterEscape : Char → Option Char
  | '"' => some '"'
  | '\\' => some '\\'
  | '/' => some '/'
  | 'b' => some '\x08'
  | 'f' => some '\x0c'
  | 'n' => some '\n'
  | 'r' => some '\r'
  | 't' => some '\t'
  | _ => none

def readString : Nat → Bool → List Char → List Char → Option (Option String × List Char)
  | 0, _, _, _ => none
  | _ + 1, _, _, [] => none
  | _ + 1, whole, done, '"' :: cs =>
    some (if whole then some (String.ofList done.reverse) else none, cs)
  | n + 1, whole, done, '\\' :: 'u' :: cs =>
    match readHex cs with
    | none => none
    | some (unit, rest) =>
      match readUnit unit rest with
      | (some c, rest) => readString n whole (c :: done) rest
      | (none, rest) => readString n false done rest
  | n + 1, whole, done, '\\' :: c :: cs =>
    match letterEscape c with
    | some c => readString n whole (c :: done) cs
    | none => none
  | n + 1, whole, done, c :: cs =>
    if c < ' ' then none else readString n whole (c :: done) cs

/-! Values. The first argument bounds the number of steps; the second is the nesting that is
left. -/

def atDepth (depth : Nat) (w : Wire) : Wire := if depth = 0 then unreadable else w

def named : List (Option String × Wire) → List (String × Wire) × Bool
  | [] => ([], true)
  | (none, _) :: _ => ([], false)
  | (some name, w) :: rest =>
    let (members, whole) := named rest
    ((name, w) :: members, whole)

def ofMembers (members : List (Option String × Wire)) : Wire :=
  match named members with
  | (members, true) => record members
  | (members, false) => severed members

mutual

def readValue : Nat → Nat → List Char → Wire × Rest
  | 0, _, _ => (broken, none)
  | n + 1, depth, cs =>
    match skipBlanks cs with
    | 'n' :: 'u' :: 'l' :: 'l' :: rest => (null, some rest)
    | 't' :: 'r' :: 'u' :: 'e' :: rest => (bool true, some rest)
    | 'f' :: 'a' :: 'l' :: 's' :: 'e' :: rest => (bool false, some rest)
    | '"' :: rest =>
      match readString rest.length.succ true [] rest with
      | some (some s, rest) => (text s, some rest)
      | some (none, rest) => (unreadable, some rest)
      | none => (broken, none)
    | '-' :: rest => readNumber true rest
    | '[' :: rest =>
      match skipBlanks rest with
      | ']' :: rest => (atDepth depth (list []), some rest)
      | rest =>
        let (items, rest) := readItems n (depth - 1) [] rest
        (atDepth depth (list items), rest)
    | '\x7b' :: rest =>
      match skipBlanks rest with
      | '\x7d' :: rest => (atDepth depth (record []), some rest)
      | rest =>
        let (members, rest) := readMembers n (depth - 1) [] rest
        (atDepth depth (ofMembers members), rest)
    | rest => readNumber false rest

def readItems : Nat → Nat → List Wire → List Char → List Wire × Rest
  | 0, _, done, _ => ((broken :: done).reverse, none)
  | n + 1, depth, done, cs =>
    match readValue n depth cs with
    | (item, none) => ((item :: done).reverse, none)
    | (item, some rest) =>
      match skipBlanks rest with
      | ']' :: rest => ((item :: done).reverse, some rest)
      | ',' :: rest => readItems n depth (item :: done) rest
      | _ => ((broken :: item :: done).reverse, none)

/-- Members up to the closing brace. A name counts as read before its colon is. -/
def readMembers : Nat → Nat → List (Option String × Wire) → List Char →
    List (Option String × Wire) × Rest
  | 0, _, done, _ => (done.reverse, none)
  | n + 1, depth, done, cs =>
    match skipBlanks cs with
    | '"' :: rest =>
      match readString rest.length.succ true [] rest with
      | some (name, rest) =>
        match skipBlanks rest with
        | ':' :: rest =>
          match readValue n depth rest with
          | (value, none) => (((name, value) :: done).reverse, none)
          | (value, some rest) =>
            match skipBlanks rest with
            | '\x7d' :: rest => (((name, value) :: done).reverse, some rest)
            | ',' :: rest => readMembers n depth ((name, value) :: done) rest
            | _ => (((name, value) :: done).reverse, none)
        | _ => (((name, broken) :: done).reverse, none)
      | none => (done.reverse, none)
    | _ => (done.reverse, none)

end

def ofText (s : String) : Wire × Bool :=
  let cs := s.toList
  let (w, rest) := readValue (2 * cs.length + 2) 127 cs
  (w, match rest with
    | some rest => (skipBlanks rest).isEmpty
    | none => false)

end Wire

def Value.ofText? (s : String) : Option Value :=
  match Wire.ofText s with
  | (w, true) => w.toValue?
  | (_, false) => none

end DocHistory
