import DocHistory.Text

/-!
Numbers of JSON: integers and finite floats of 64 bits. A float is a sign, a mantissa and an
exponent; rounding and arithmetic go through exact quotients of naturals, so no digit of a text
comes from floating-point arithmetic.
-/
namespace DocHistory

/-- The number `± mantissa * 2 ^ exponent`. The mantissa has at most 53 bits, and exactly so many
unless the exponent is the least one, `-1074`. -/
structure Double where
  negative : Bool
  mantissa : Nat
  exponent : Int
  deriving DecidableEq, Repr

namespace Double

def leading : Nat := 0x10000000000000

def zero : Double := ⟨false, 0, -1074⟩

def isZero (d : Double) : Bool := d.mantissa == 0

def roundQuotient (num den : Nat) : Nat :=
  let q := num / den
  let r := num % den
  if 2 * r < den then q
  else if den < 2 * r then q + 1
  else if q % 2 = 0 then q else q + 1

def scaled (num den : Nat) (e : Int) : Nat × Nat :=
  if 0 ≤ e then (num, den * Nat.pow 2 e.toNat) else (num * Nat.pow 2 (-e).toNat, den)

def binade (num den : Nat) : Int :=
  let e : Int := (num.log2 : Int) - (den.log2 : Int) - 53
  let (n, d) := scaled num den e
  if n / d < 2 * leading then e else e + 1

def ofRatio (num den : Nat) : Option Double :=
  if num = 0 then some zero
  else
    let e := max (-1074) (binade num den)
    let (n, d) := scaled num den e
    let m := roundQuotient n d
    let (m, e) := if m = 2 * leading then (leading, e + 1) else (m, e)
    if e ≤ 971 then some ⟨false, m, e⟩ else none

def ratio (d : Double) : Nat × Nat := scaled d.mantissa 1 (-d.exponent)

def ofNat (n : Nat) : Option Double := ofRatio n 1

def times (a b : Double) : Option Double :=
  let (n, d) := a.ratio
  let (n', d') := b.ratio
  ofRatio (n * n') (d * d')

def divide (a b : Double) : Option Double :=
  let (n, d) := a.ratio
  let (n', d') := b.ratio
  ofRatio (n * d') (d * n')

def plus (a b : Double) : Option Double :=
  let (n, d) := a.ratio
  let (n', d') := b.ratio
  ofRatio (n * d' + n' * d) (d * d')

/-- The numbers `c * 10 ^ k` next to the magnitude on the grid of step `10 ^ k` that round to it,
the nearer one first; none if neither does. The bounds are halfway to the neighbours, and belong
to the number when its mantissa is even. -/
def onGrid (d : Double) (k : Int) : Option Nat :=
  let below := if d.mantissa = leading ∧ -1074 < d.exponent then 1 else 2
  let (two, two') := scaled 1 1 (2 - d.exponent)
  let (num, den) := if 0 ≤ k then (two, two' * Nat.pow 10 k.toNat) else (two * Nat.pow 10 (-k).toNat, two')
  let v := 4 * d.mantissa * num
  let low := (4 * d.mantissa - below) * num
  let high := (4 * d.mantissa + 2) * num
  let within (c : Nat) : Bool :=
    if d.mantissa % 2 = 0 then low ≤ c * den ∧ c * den ≤ high
    else low < c * den ∧ c * den < high
  let c := v / den
  let down := v - c * den
  let up := (c + 1) * den - v
  let upFirst := up < down ∨ (up = down ∧ c % 2 = 1)
  if within c ∧ (¬upFirst ∨ ¬within (c + 1)) then some c
  else if within (c + 1) then some (c + 1) else none

def shortestFrom (d : Double) : Nat → Int → Nat × Int
  | 0, k => (0, k)
  | n + 1, k =>
    match d.onGrid k with
    | some c => (c, k)
    | none => shortestFrom d n (k - 1)

def shortest (d : Double) : Nat × Int :=
  if d.isZero then (0, 0)
  else d.shortestFrom 25 ((d.exponent + d.mantissa.log2 + 1) * 30103 / 100000 + 2)

def fixed (places : Nat) (d : Double) : List Char :=
  let (num, den) := d.ratio
  let ds := Radix.padded 10 (places + 1) (roundQuotient (num * Nat.pow 10 places) den)
  let whole := ds.take (ds.length - places)
  let rest := ds.drop (ds.length - places)
  (if d.negative then ['-'] else []) ++ whole ++ (if rest.isEmpty then [] else '.' :: rest)

end Double

inductive Number where
  | int (value : Int)
  | float (value : Double)
  deriving DecidableEq, Repr

def Number.unsignedZero : Number → Number
  | int z => int z
  | float d => if d.isZero then float .zero else float d

def Number.alike (a b : Number) : Bool := a.unsignedZero == b.unsignedZero

namespace Number

def intChars (z : Int) : List Char :=
  (if z < 0 then ['-'] else []) ++ Radix.text 10 z.natAbs

def decimalChars (ds : List Char) (exponent : Int) : List Char :=
  let point := (ds.length : Int) + exponent
  if 0 ≤ exponent ∧ point ≤ 16 then
    ds ++ List.replicate exponent.toNat '0' ++ ['.', '0']
  else if 0 < point ∧ point ≤ 16 then
    ds.take point.toNat ++ '.' :: ds.drop point.toNat
  else if -5 < point ∧ point ≤ 0 then
    ['0', '.'] ++ List.replicate (-point).toNat '0' ++ ds
  else
    let mantissa := match ds with
      | d :: d' :: rest => d :: '.' :: d' :: rest
      | _ => ds
    mantissa ++ 'e' :: (if 0 < point then ['+'] else []) ++ intChars (point - 1)

def floatChars (d : Double) : List Char :=
  let (digits, exponent) := d.shortest
  (if d.negative then ['-'] else []) ++ decimalChars (Radix.text 10 digits) exponent

def chars : Number → List Char
  | int z => intChars z
  | float d => floatChars d

/-! Reading keeps the digits that fit 64 bits and scales them by a rounded power of ten, so the
result may differ from the nearest number in its last place. -/

def takeDigits (value taken : Nat) : List Char → Nat × Nat × Nat
  | [] => (value, taken, 0)
  | c :: cs =>
    let next := value * 10 + (c.toNat - 48)
    if next < UInt64.size then takeDigits next (taken + 1) cs else (value, taken, cs.length + 1)

def powerOfTen (k : Nat) : Double := (Double.ofNat (Nat.pow 10 k)).getD .zero

def scaleDown : Nat → Double → Nat → Double
  | 0, d, _ => d
  | n + 1, d, k =>
    if k ≤ 308 then (d.divide (powerOfTen k)).getD .zero
    else if d.isZero then d
    else scaleDown n ((d.divide (powerOfTen 308)).getD .zero) (k - 308)

def scale (significand : Nat) (exponent : Int) : Option Double := do
  let d ← Double.ofNat significand
  if exponent < 0 then some (scaleDown exponent.natAbs.succ d exponent.natAbs)
  else if exponent ≤ 308 then d.times (powerOfTen exponent.toNat)
  else if d.isZero then some d else none

def ofWhole (negative : Bool) (significand : Nat) : Number :=
  if !negative then int significand
  else if 0 < significand ∧ 2 * significand ≤ UInt64.size then int (-significand)
  else float { (Double.ofNat significand).getD .zero with negative := true }

end Number
end DocHistory
