import Mathlib.Algebra.Group.Nat.Defs
import Mathlib.Data.List.Induction
import DocHistory.Text

/-! Numerals read back. Digits are below their base, so each is found again from its character, and
the value of the digits is the number; zeros in front do not change it. -/
namespace DocHistory.Radix

theorem digitsBelow {base : Nat} (atLeast : 2 ≤ base) (n : Nat) :
    ∀ d ∈ digits base n, d < base := by
  fun_induction digits base n with
  | case1 n large ih =>
    intro d member
    rcases List.mem_append.1 member with early | late
    · exact ih d early
    · exact List.mem_singleton.1 late ▸ Nat.mod_lt n (by omega)
  | case2 n small =>
    intro d member
    rw [List.mem_singleton.1 member]
    omega

theorem digitsSome (base n : Nat) : digits base n ≠ [] := by
  rw [digits]
  split <;> simp

theorem textSome (base n : Nat) : text base n ≠ [] := by simp [text, digitsSome]

theorem headZero {base n : Nat} (zero : (digits base n).head? = some 0) : n = 0 := by
  fun_induction digits base n with
  | case1 n large ih =>
    obtain ⟨d, ds, split⟩ := List.exists_cons_of_ne_nil (digitsSome base (n / base))
    rw [split] at zero ih
    have small : n / base = 0 := ih zero
    rw [Nat.div_eq_zero_iff] at small
    omega
  | case2 n small => simpa using zero

theorem digitFound {base d : Nat} (atMost : base ≤ 36) (below : d < base) :
    digit? base (digitChar d) = some d := by
  have each : ∀ d < 36, digit? 36 (digitChar d) = some d := by decide
  have found := (Option.filter_eq_some_iff.1 (each d (by omega))).1
  exact Option.filter_eq_some_iff.2 ⟨found, decide_eq_true below⟩

theorem digitsFound {base : Nat} (atMost : base ≤ 36) {ds : List Nat}
    (below : ∀ d ∈ ds, d < base) : (ds.map digitChar).mapM (digit? base) = some ds := by
  induction ds with
  | nil => rfl
  | cons d ds ih =>
    obtain ⟨own, others⟩ := List.forall_mem_cons.1 below
    simp [digitFound atMost own, ih others]

theorem valueZeros (base k : Nat) (ds : List Nat) :
    value base (List.replicate k 0 ++ ds) = value base ds := by
  induction k with
  | zero => rfl
  | succ k ih =>
    rw [List.replicate_succ, List.cons_append, ← ih]
    simp [value]

theorem readFound {base : Nat} (atMost : base ≤ 36) {ds : List Nat} (nonempty : ds ≠ [])
    (below : ∀ d ∈ ds, d < base) : read? base (ds.map digitChar) = some (value base ds) := by
  rw [read?, digitsFound atMost below]
  cases ds with
  | nil => exact absurd rfl nonempty
  | cons d ds => rfl

theorem paddedDigits (base width n : Nat) : padded base width n =
    (List.replicate (width - (digits base n).length) 0 ++ digits base n).map digitChar := by
  simp [padded, text, digitChar]

theorem paddedBelow {base : Nat} (atLeast : 2 ≤ base) (k n : Nat) :
    ∀ d ∈ List.replicate k 0 ++ digits base n, d < base := by
  intro d member
  rcases List.mem_append.1 member with zero | digit
  · rw [(List.mem_replicate.1 zero).2]
    omega
  · exact digitsBelow atLeast n d digit

section
variable {base : Nat} (atLeast : 2 ≤ base) (atMost : base ≤ 36)
include atLeast atMost

theorem readPadded (width n : Nat) : read? base (padded base width n) = some n := by
  rw [paddedDigits, readFound atMost (by simp [digitsSome]) (paddedBelow atLeast _ n), valueZeros,
    valueDigits]

theorem readText (n : Nat) : read? base (text base n) = some n := by
  rw [text, readFound atMost (digitsSome base n) (digitsBelow atLeast n), valueDigits]

end

theorem digitsLength {base n width : Nat} (below : n < base ^ (width + 1)) :
    (digits base n).length ≤ width + 1 := by
  induction width generalizing n with
  | zero =>
    have small : n < base := by simpa using below
    rw [digits, dif_neg (by omega)]
    simp
  | succ width ih =>
    rw [digits]
    split
    · rw [List.length_append]
      have less : n / base < base ^ (width + 1) :=
        Nat.div_lt_of_lt_mul (by rwa [Nat.pow_succ, Nat.mul_comm] at below)
      simpa using ih less
    · simp

theorem paddedLength {base n width : Nat} (below : n < base ^ (width + 1)) :
    (padded base (width + 1) n).length = width + 1 := by
  have short := digitsLength below
  rw [paddedDigits]
  simp only [List.length_map, List.length_append, List.length_replicate]
  omega

theorem valueBelow {base : Nat} {ds : List Nat} (below : ∀ d ∈ ds, d < base) :
    value base ds < base ^ ds.length := by
  induction ds using List.reverseRecOn with
  | nil => exact Nat.one_pos
  | append_singleton ds d ih =>
    obtain ⟨early, late⟩ := List.forall_mem_append.1 below
    have small : d < base := late d (List.mem_singleton_self d)
    rw [valueAppend, List.length_append, List.length_singleton, Nat.pow_succ]
    calc value base ds * base + d < value base ds * base + base := Nat.add_lt_add_left small _
      _ = (value base ds + 1) * base := (Nat.succ_mul _ _).symm
      _ ≤ base ^ ds.length * base := Nat.mul_le_mul_right base (ih early)

theorem digitsValue {base : Nat} (atLeast : 2 ≤ base) {ds : List Nat} (below : ∀ d ∈ ds, d < base)
    (filled : ds ≠ []) (lead : ds.length = 1 ∨ ds.head? ≠ some 0) :
    digits base (value base ds) = ds := by
  induction ds using List.reverseRecOn with
  | nil => exact absurd rfl filled
  | append_singleton ds d ih =>
    obtain ⟨early, late⟩ := List.forall_mem_append.1 below
    have small : d < base := late d (List.mem_singleton_self d)
    rw [valueAppend]
    cases ds with
    | nil =>
      have single : value base [] * base + d = d := by simp [value]
      rw [single, digits, dif_neg (by omega)]
      rfl
    | cons e ds =>
      have solid : (e :: ds).head? ≠ some 0 := lead.resolve_left (by simp)
      have front := ih early (List.cons_ne_nil e ds) (.inr solid)
      have positive : 0 < value base (e :: ds) := by
        refine Nat.pos_of_ne_zero fun zero => solid ?_
        rw [← front, zero, digits, dif_neg (by omega)]
        rfl
      generalize value base (e :: ds) = n at front positive
      have large : base ≤ n * base + d := Nat.le_add_right_of_le (Nat.le_mul_of_pos_left base positive)
      have quotient : (n * base + d) / base = n := by
        rw [Nat.mul_comm, Nat.mul_add_div (by omega), Nat.div_eq_of_lt small, Nat.add_zero]
      have remainder : (n * base + d) % base = d := by
        rw [Nat.mul_comm, Nat.mul_add_mod, Nat.mod_eq_of_lt small]
      rw [digits, dif_pos ⟨atLeast, large⟩, quotient, front, remainder]

theorem paddedDigit {P : Char → Prop} {base : Nat} (atLeast : 2 ≤ base)
    (digit : ∀ d < base, P (digitChar d)) (width n : Nat) : ∀ c ∈ padded base width n, P c := by
  intro c member
  rw [paddedDigits] at member
  obtain ⟨d, listed, rfl⟩ := List.mem_map.1 member
  exact digit d (paddedBelow atLeast _ n d listed)

theorem textDigit {P : Char → Prop} {base : Nat} (atLeast : 2 ≤ base)
    (digit : ∀ d < base, P (digitChar d)) (n : Nat) : ∀ c ∈ text base n, P c := by
  intro c member
  obtain ⟨d, own, rfl⟩ := List.mem_map.1 member
  exact digit d (digitsBelow atLeast n d own)

end DocHistory.Radix
