import Mathlib.Data.List.Infix
import Mathlib.Data.List.TakeWhile
import DocHistory.Wire
import DocHistory.Proofs.NumeralText

/-! Texts of numbers. A number is read no further than to the comma or bracket behind it, so one
that is read back from its own text is read back inside a text. Integers of 64 bits always are. -/
namespace DocHistory

namespace Wire

def ValueEnds (rest : List Char) : Prop := ∀ c ∈ rest.head?, c = ',' ∨ c = ']' ∨ c = '\x7d'

theorem digitsEnd {rest : List Char} (ends : ValueEnds rest) (cs : List Char) :
    (cs ++ rest).takeWhile Radix.isDigit = cs.takeWhile Radix.isDigit ∧
      (cs ++ rest).dropWhile Radix.isDigit = cs.dropWhile Radix.isDigit ++ rest := by
  induction cs with
  | nil =>
    cases rest with
    | nil => exact ⟨rfl, rfl⟩
    | cons c rest =>
      have other : Radix.isDigit c = false := by
        rcases ends c rfl with rfl | rfl | rfl <;> decide
      simp [other]
  | cons c cs ih => cases digit : Radix.isDigit c <;> simp [digit, ih]

/-- The reader leaves an end of what it reads, and goes no further if something follows. -/
def HaltsOn (read : List Char → Wire × Rest) (cs : List Char) : Prop :=
  ∀ w left, read cs = (w, some left) → left <:+ cs ∧
    ∀ rest, ValueEnds rest → read (cs ++ rest) = (w, some (left ++ rest))

def Halts (read : List Char → Wire × Rest) : Prop := ∀ cs, HaltsOn read cs

theorem Halts.behind {read whole : List Char → Wire × Rest} (halts : Halts read) {c : Char}
    (skips : ∀ cs, whole (c :: cs) = read cs) (cs : List Char) : HaltsOn whole (c :: cs) := by
  intro w left done
  rw [skips] at done
  obtain ⟨suffix, follows⟩ := halts cs w left done
  refine ⟨suffix.trans (List.suffix_cons _ _), fun rest ends => ?_⟩
  rw [List.cons_append, skips]
  exact follows rest ends

theorem haltsAtOnce (w : Wire) : Halts fun cs => (w, some cs) := by
  intro cs v left done
  cases done
  exact ⟨List.suffix_refl _, fun _ _ => rfl⟩

theorem Halts.digits {next : List Char → List Char → Wire × Rest} (halts : ∀ ds, Halts (next ds))
    (bad : List Char → Prop) [DecidablePred bad] :
    Halts fun cs => if bad (cs.takeWhile Radix.isDigit) then (broken, none)
      else next (cs.takeWhile Radix.isDigit) (cs.dropWhile Radix.isDigit) := by
  intro cs w left done
  dsimp only at done
  split at done
  · cases done
  · rename_i fine
    obtain ⟨suffix, follows⟩ := halts _ _ w left done
    refine ⟨suffix.trans (List.dropWhile_suffix Radix.isDigit), fun rest ends => ?_⟩
    obtain ⟨taken, dropped⟩ := digitsEnd ends cs
    dsimp only
    rw [taken, dropped, if_neg fine]
    exact follows rest ends

theorem endsApart {rest : List Char} (ends : ValueEnds rest) {c : Char}
    (apart : c ≠ ',' ∧ c ≠ ']' ∧ c ≠ '\x7d') : rest.head? ≠ some c := by
  intro head
  rcases ends c head with same | same | same
  · exact apart.1 same
  · exact apart.2.1 same
  · exact apart.2.2 same

section Readers
variable (negative : Bool) (significand : Nat) (exponent : Int)

def powerValue (down : Bool) (ds : List Char) : Wire :=
  let e : Int := ds.foldl (fun v c => v * 10 + (c.toNat - 48)) 0
  ofFloat negative
    (if e < 0x80000000 then Number.scale significand (if down then exponent - e else exponent + e)
    else if significand = 0 ∨ down then some .zero else none)

def readPower (down : Bool) (cs : List Char) : Wire × Rest :=
  let ds := cs.takeWhile Radix.isDigit
  if ds.isEmpty then (broken, none)
  else (powerValue negative significand exponent down ds, some (cs.dropWhile Radix.isDigit))

theorem powerHalts (down : Bool) : Halts (readPower negative significand exponent down) :=
  Halts.digits (fun ds => haltsAtOnce (powerValue negative significand exponent down ds))
    fun ds => ds.isEmpty = true

theorem exponentUnsigned {c : Char} (plus : c ≠ '+') (minus : c ≠ '-') (cs : List Char) :
    readExponent negative significand exponent (c :: cs) =
      readPower negative significand exponent false (c :: cs) := by
  unfold readExponent
  dsimp only
  split
  · rename_i same
    exact absurd (List.cons.inj same).1 plus
  · rename_i same
    exact absurd (List.cons.inj same).1 minus
  · rfl

theorem exponentHalts : Halts (readExponent negative significand exponent) := by
  intro cs
  have power := powerHalts negative significand exponent
  cases cs with
  | nil => exact fun w left done => nomatch done
  | cons c cs =>
    by_cases plus : c = '+'
    · subst plus
      exact (power false).behind (fun _ => rfl) cs
    · by_cases minus : c = '-'
      · subst minus
        exact (power true).behind (fun _ => rfl) cs
      · intro w left done
        rw [exponentUnsigned _ _ _ plus minus] at done
        simp only [List.cons_append, exponentUnsigned _ _ _ plus minus]
        exact power false (c :: cs) w left done

theorem tailPlain {cs : List Char} (plain : cs.head? ≠ some 'e' ∧ cs.head? ≠ some 'E') :
    readTail negative significand exponent cs =
      (ofFloat negative (Number.scale significand exponent), some cs) := by
  unfold readTail
  split
  · exact absurd rfl plain.1
  · exact absurd rfl plain.2
  · rfl

theorem tailHalts : Halts (readTail negative significand exponent) := by
  intro cs
  have halts := exponentHalts negative significand exponent
  cases cs with
  | nil =>
    intro w left done
    cases done
    exact ⟨List.suffix_refl _, fun rest ends =>
      tailPlain _ _ _ ⟨endsApart ends (by decide), endsApart ends (by decide)⟩⟩
  | cons c cs =>
    by_cases small : c = 'e'
    · subst small
      exact halts.behind (fun _ => rfl) cs
    · by_cases large : c = 'E'
      · subst large
        exact halts.behind (fun _ => rfl) cs
      · intro w left done
        rw [tailPlain _ _ _ (by simp [small, large])] at done
        cases done
        refine ⟨List.suffix_refl _, fun rest _ => ?_⟩
        exact tailPlain _ _ _ (by simp [small, large])

theorem fractionHalts : Halts (readFraction negative significand exponent) :=
  Halts.digits (fun ds => tailHalts negative (Number.takeDigits significand 0 ds).1
    (exponent - (Number.takeDigits significand 0 ds).2.1)) fun ds => ds.isEmpty = true

def readRest (left : Nat) (cs : List Char) : Wire × Rest :=
  match cs with
  | '.' :: rest => readFraction negative significand left rest
  | rest =>
    if left = 0 ∧ rest.head? ≠ some 'e' ∧ rest.head? ≠ some 'E' then
      (number (.ofWhole negative significand), some rest)
    else readTail negative significand left rest

theorem restPlain {cs : List Char} (left : Nat) (point : cs.head? ≠ some '.') :
    readRest negative significand left cs =
      if left = 0 ∧ cs.head? ≠ some 'e' ∧ cs.head? ≠ some 'E' then
        (number (.ofWhole negative significand), some cs)
      else readTail negative significand left cs := by
  unfold readRest
  split
  · exact absurd rfl point
  · rfl

theorem restHalts (left : Nat) : Halts (readRest negative significand left) := by
  intro cs
  by_cases point : cs.head? = some '.'
  · obtain ⟨tail, rfl⟩ := List.head?_eq_some_iff.1 point
    exact (fractionHalts negative significand left).behind (fun _ => rfl) tail
  · intro w after done
    rw [restPlain _ _ _ point] at done
    have same : ∀ rest, ValueEnds rest → ∀ c, c ≠ ',' ∧ c ≠ ']' ∧ c ≠ '\x7d' →
        ((cs ++ rest).head? = some c ↔ cs.head? = some c) := by
      intro rest ends c apart
      cases cs with
      | nil => simpa using endsApart ends apart
      | cons d cs => exact Iff.rfl
    have plain : ∀ rest, ValueEnds rest → readRest negative significand left (cs ++ rest) =
        if left = 0 ∧ cs.head? ≠ some 'e' ∧ cs.head? ≠ some 'E' then
          (number (.ofWhole negative significand), some (cs ++ rest))
        else readTail negative significand left (cs ++ rest) := by
      intro rest ends
      rw [restPlain _ _ _ fun head => point ((same rest ends '.' (by decide)).1 head)]
      simp only [ne_eq, same rest ends 'e' (by decide), same rest ends 'E' (by decide)]
    split at done
    · rename_i whole
      cases done
      exact ⟨List.suffix_refl _, fun rest ends => by rw [plain rest ends, if_pos whole]⟩
    · rename_i part
      obtain ⟨suffix, follows⟩ := tailHalts negative significand left cs w after done
      refine ⟨suffix, fun rest ends => ?_⟩
      rw [plain rest ends, if_neg part]
      exact follows rest ends

theorem numberHalts : Halts (readNumber negative) :=
  Halts.digits (fun ds => restHalts negative (Number.takeDigits 0 0 ds).1
    (Number.takeDigits 0 0 ds).2.2) fun ds =>
      ds.isEmpty = true ∨ (ds.head? = some '0' ∧ 1 < ds.length)

end Readers

def Numeral (c : Char) : Prop := Radix.isDigit c = true ∨ c ∈ ['-', '+', '.', 'e']

instance (c : Char) : Decidable (Numeral c) := inferInstanceAs (Decidable (_ ∨ _))

theorem allNumeral {cs : List Char} (all : cs.all (fun c => decide (Numeral c)) = true) :
    ∀ c ∈ cs, Numeral c := fun c member => of_decide_eq_true (List.all_eq_true.1 all c member)

theorem numeralDigit : ∀ d < 10, Numeral (Radix.digitChar d) := by decide

theorem numeralApart {c : Char} (numeral : Numeral c) :
    c ∉ [' ', '\n', '\t', '\r'] ∧ c ∉ ['n', 't', 'f', '"', '[', '\x7b', ']'] := by
  have apart : ∀ cs : List Char, cs.any (fun c => decide (Numeral c)) = false → c ∉ cs := by
    intro cs absent member
    exact List.any_eq_false.1 absent c member (decide_eq_true numeral)
  exact ⟨apart _ (by decide), apart _ (by decide)⟩

theorem blanksKept {c : Char} (solid : c ∉ [' ', '\n', '\t', '\r']) (cs : List Char) :
    skipBlanks (c :: cs) = c :: cs := by
  simp only [List.mem_cons, List.not_mem_nil, or_false] at solid
  exact List.dropWhile_cons_of_neg (by simpa using solid)

theorem numeralRead {c : Char} (numeral : Numeral c) (n depth : Nat) (cs : List Char) :
    readValue (n + 1) depth (c :: cs) =
      if c = '-' then readNumber true cs else readNumber false (c :: cs) := by
  obtain ⟨solid, apart⟩ := numeralApart numeral
  rw [readValue, blanksKept solid]
  split
  case h_5 same =>
    obtain ⟨rfl, rfl⟩ := List.cons.inj same
    rfl
  case h_8 minus _ _ => rw [if_neg fun same => minus cs (by rw [same])]
  all_goals
    rename_i same
    exact absurd (List.cons.inj same).1 fun equal => apart (by simp [equal])

theorem Halts.inside {read : List Char → Wire × Rest} (halts : Halts read) {cs left : List Char}
    {w : Wire} (numeral : ∀ c ∈ cs, Numeral c) (done : read cs = (w, some left))
    (blank : (skipBlanks left).isEmpty = true) {rest : List Char} (ends : ValueEnds rest) :
    read (cs ++ rest) = (w, some rest) := by
  obtain ⟨suffix, follows⟩ := halts cs w left done
  have empty : left = [] := by
    rcases left with _ | ⟨c, left⟩
    · rfl
    · have solid := (numeralApart (numeral c (suffix.subset List.mem_cons_self))).1
      rw [blanksKept solid] at blank
      cases blank
  subst empty
  exact follows rest ends

theorem ofTextWhole {cs : List Char} {w : Wire} : ofText (String.ofList cs) = (w, true) ↔
    ∃ left, readValue (2 * cs.length + 2) 127 cs = (w, some left) ∧
      (skipBlanks left).isEmpty = true := by
  rw [ofText, String.toList_ofList]
  dsimp only
  generalize readValue (2 * cs.length + 2) 127 cs = read
  obtain ⟨v, left⟩ := read
  cases left <;> simp

theorem numberInside {cs : List Char} {n : Number} (numeral : ∀ c ∈ cs, Numeral c)
    (alone : ofText (String.ofList cs) = (number n, true)) {rest : List Char}
    (ends : ValueEnds rest) (m depth : Nat) :
    readValue (m + 1) depth (cs ++ rest) = (number n, some rest) := by
  obtain ⟨left, read, blank⟩ := ofTextWhole.1 alone
  cases cs with
  | nil => cases read
  | cons c cs =>
    obtain ⟨own, others⟩ := List.forall_mem_cons.1 numeral
    rw [numeralRead own] at read
    rw [List.cons_append, numeralRead own]
    by_cases minus : c = '-'
    · rw [if_pos minus] at read ⊢
      exact (numberHalts true).inside others read blank ends
    · rw [if_neg minus] at read ⊢
      exact (numberHalts false).inside numeral read blank ends

end Wire
namespace Number
open Wire

theorem digitsNumeral (n : Nat) : ∀ c ∈ Radix.text 10 n, Numeral c :=
  Radix.textDigit (by decide) numeralDigit n

theorem intNumeral (z : Int) : ∀ c ∈ intChars z, Numeral c := by
  refine List.forall_mem_append.2 ⟨?_, digitsNumeral _⟩
  split <;> exact allNumeral rfl

theorem decimalNumeral {ds : List Char} (digits : ∀ c ∈ ds, Numeral c) (exponent : Int) :
    ∀ c ∈ decimalChars ds exponent, Numeral c := by
  have zeros : ∀ k, ∀ c ∈ List.replicate k '0', Numeral c := by
    intro k c member
    rw [(List.mem_replicate.1 member).2]
    decide
  have point : Numeral '.' := by decide
  unfold decimalChars
  dsimp only
  split
  · refine List.forall_mem_append.2 ⟨List.forall_mem_append.2 ⟨digits, zeros _⟩, allNumeral rfl⟩
  · split
    · refine List.forall_mem_append.2 ⟨fun c member => digits c (List.mem_of_mem_take member), ?_⟩
      exact List.forall_mem_cons.2 ⟨point, fun c member => digits c (List.mem_of_mem_drop member)⟩
    · split
      · refine List.forall_mem_append.2 ⟨List.forall_mem_append.2 ⟨allNumeral rfl, zeros _⟩, digits⟩
      · have sign : ∀ c ∈ (if 0 < (ds.length : Int) + exponent then ['+'] else []), Numeral c := by
          split <;> exact allNumeral rfl
        refine List.forall_mem_append.2 ⟨List.forall_mem_append.2 ⟨?_, ?_⟩, intNumeral _⟩
        · split
          · obtain ⟨first, rest⟩ := List.forall_mem_cons.1 digits
            exact List.forall_mem_cons.2 ⟨first, List.forall_mem_cons.2 ⟨point, rest⟩⟩
          · exact digits
        · exact List.forall_mem_cons.2 ⟨by decide, sign⟩

theorem charsNumeral (n : Number) : ∀ c ∈ n.chars, Numeral c := by
  cases n with
  | int z => exact intNumeral z
  | float d =>
    refine List.forall_mem_append.2 ⟨?_, decimalNumeral (digitsNumeral _) _⟩
    split <;> exact allNumeral rfl

theorem digitWorth : ∀ d < 10, (Radix.digitChar d).toNat - 48 = d := by decide

theorem valueRises (ds : List Nat) (value : Nat) :
    value ≤ ds.foldl (fun v d => v * 10 + d) value := by
  induction ds generalizing value with
  | nil => exact Nat.le_refl value
  | cons d ds ih => exact Nat.le_trans (by omega) (ih (value * 10 + d))

theorem takeDigitsAll {ds : List Nat} (digits : ∀ d ∈ ds, d < 10) (value taken : Nat)
    (fits : ds.foldl (fun v d => v * 10 + d) value < UInt64.size) :
    takeDigits value taken (ds.map Radix.digitChar) =
      (ds.foldl (fun v d => v * 10 + d) value, taken + ds.length, 0) := by
  induction ds generalizing value taken with
  | nil => rfl
  | cons d ds ih =>
    obtain ⟨own, others⟩ := List.forall_mem_cons.1 digits
    have next : value * 10 + d < UInt64.size := Nat.lt_of_le_of_lt (valueRises ds _) fits
    rw [List.map_cons, takeDigits, digitWorth d own, if_pos next, ih others _ _ fits,
      List.foldl_cons, List.length_cons]
    simp only [Prod.mk.injEq, true_and, and_true]
    omega

theorem takeDigitsText {n : Nat} (fits : n < UInt64.size) :
    takeDigits 0 0 (Radix.text 10 n) = (n, (Radix.digits 10 n).length, 0) := by
  have value := Radix.valueDigits 10 n
  rw [Radix.value] at value
  rw [Radix.text, takeDigitsAll (Radix.digitsBelow (by decide) n) 0 0 (by rwa [value]), value,
    Nat.zero_add]

theorem noLeadingZero (n : Nat) :
    ¬ ((Radix.text 10 n).head? = some '0' ∧ 1 < (Radix.text 10 n).length) := by
  rintro ⟨head, long⟩
  have first : ∀ d < 10, Radix.digitChar d = '0' → d = 0 := by decide
  rw [Radix.text, List.head?_map, Option.map_eq_some_iff] at head
  obtain ⟨d, leads, zero⟩ := head
  obtain rfl := first d (Radix.digitsBelow (by decide) n d (List.mem_of_head? leads)) zero
  obtain rfl := Radix.headZero leads
  simp [Radix.text, Radix.digits] at long

theorem naturalRead (negative : Bool) {n : Nat} (fits : n < UInt64.size) {rest : List Char}
    (ends : ValueEnds rest) : readNumber negative (Radix.text 10 n ++ rest) =
      (.number (.ofWhole negative n), some rest) := by
  have digit : ∀ c ∈ Radix.text 10 n, Radix.isDigit c = true :=
    Radix.textDigit (by decide) (by decide) n
  have filled := Radix.textSome 10 n
  obtain ⟨front, back⟩ := digitsEnd ends (Radix.text 10 n)
  rw [List.takeWhile_eq_self_iff.2 digit] at front
  rw [List.dropWhile_eq_nil_iff.2 digit, List.nil_append] at back
  rw [readNumber]
  dsimp only
  rw [front, if_neg (by simpa [filled] using noLeadingZero n), takeDigitsText fits, back]
  change readRest negative n 0 rest = _
  rw [restPlain _ _ _ (endsApart ends (by decide)), if_pos]
  exact ⟨rfl, endsApart ends (by decide), endsApart ends (by decide)⟩

/-- Integers of 64 bits, signed or unsigned, and the floats that are read back from their texts. -/
def Legible : Number → Prop
  | int z => -0x8000000000000000 ≤ z ∧ z < 0x10000000000000000
  | float d => Value.ofText? (Value.number (.float d)).render = some (.number (.float d))

theorem floatAlone {d : Double} (legible : (float d).Legible) :
    ofText (String.ofList (float d).chars) = (.number (float d), true) := by
  have read : (Value.ofText? (String.ofList (float d).chars)).map Value.json =
      some (.number (float d)) := congrArg (Option.map Value.json) legible
  rw [Value.ofText?] at read
  split at read
  · rename_i w whole
    rw [whole]
    cases w with
    | number n => rw [Json.number.inj (Option.some.inj read)]
    | record members =>
      obtain ⟨a, found, same⟩ := Option.map_eq_some_iff.1 read
      obtain ⟨_, _, rfl⟩ := Option.map_eq_some_iff.1 found
      cases same
    | list items =>
      obtain ⟨a, found, same⟩ := Option.map_eq_some_iff.1 read
      obtain ⟨_, _, rfl⟩ := Option.map_eq_some_iff.1 found
      cases same
    | _ => cases read
  · cases read

theorem charsRead {n : Number} (legible : n.Legible) {rest : List Char} (ends : ValueEnds rest)
    (m depth : Nat) : readValue (m + 1) depth (n.chars ++ rest) = (.number n, some rest) := by
  cases n with
  | float d => exact numberInside (charsNumeral _) (floatAlone legible) ends m depth
  | int z =>
    obtain ⟨low, high⟩ := legible
    have fits : z.natAbs < UInt64.size := by
      rw [show UInt64.size = 0x10000000000000000 from rfl]
      omega
    by_cases minus : z < 0
    · rw [chars, intChars, if_pos minus, List.append_assoc, List.singleton_append,
        numeralRead (by decide), if_pos rfl, naturalRead true fits ends, ofWhole]
      have small : 0 < z.natAbs ∧ 2 * z.natAbs ≤ UInt64.size := by
        rw [show UInt64.size = 0x10000000000000000 from rfl]
        omega
      have same : -(z.natAbs : Int) = z := by omega
      simp only [Bool.not_true, Bool.false_eq_true, if_false, if_pos small, same]
    · have read := naturalRead false fits ends
      obtain ⟨c, cs, split⟩ := List.exists_cons_of_ne_nil (Radix.textSome 10 z.natAbs)
      have digit : ∀ c ∈ Radix.text 10 z.natAbs, Numeral c ∧ c ≠ '-' :=
        Radix.textDigit (by decide) (by decide) _
      rw [split] at digit read
      obtain ⟨numeral, plain⟩ := digit c List.mem_cons_self
      have same : (z.natAbs : Int) = z := by omega
      rw [chars, intChars, if_neg minus, List.nil_append, split, List.cons_append,
        numeralRead numeral, if_neg plain, ← List.cons_append, read, ofWhole]
      simp only [Bool.not_false, if_true, same]

end Number
end DocHistory
