import Mathlib.Algebra.Group.Nat.Defs
import Mathlib.Logic.Function.Basic
import DocHistory.Revision

/-! Runs of clocks. A timestamp and its count are one number, which a call raises to the reading or
else by one. So after any calls it is the greatest sum of a reading and the number of calls since,
from which follow order, distinctness and, as long as that number has room, the absence of
overflows. -/
namespace DocHistory

def Revision.ticks (r : Revision) : Nat := r.timestamp.toNat * 2 ^ 32 + r.sequence.toNat

theorem Revision.ticksLess {r s : Revision} (origin : r.origin = s.origin)
    (less : r.ticks < s.ticks) : compare r s = .lt := by
  have small := r.sequence.toNat_lt
  have small' := s.sequence.toNat_lt
  rw [ticks, ticks] at less
  have order : r.timestamp < s.timestamp ∨
      r.timestamp = s.timestamp ∧ r.sequence < s.sequence := by
    rw [UInt64.lt_iff_toNat_lt, UInt32.lt_iff_toNat_lt, ← UInt64.toNat_inj]
    omega
  change (compare r.timestamp s.timestamp).then
    ((compare r.origin s.origin).then (compare r.sequence s.sequence)) = .lt
  rcases order with earlier | ⟨same, fewer⟩
  · rw [Std.compare_eq_lt.2 earlier]
    rfl
  · rw [same, origin, Std.compare_self, Std.compare_self]
    exact Std.compare_eq_lt.2 fewer

namespace RevisionClock

def least : Option (UInt64 × UInt32) → Nat
  | none => 0
  | some (timestamp, sequence) => timestamp.toNat * 2 ^ 32 + sequence.toNat + 1

/-- One of the sums that the clock computes for the reading does not fit its type. -/
def Overflows (now : UInt64) : Option (UInt64 × UInt32) → Prop
  | none => False
  | some (timestamp, sequence) => ¬ timestamp < now ∧
      if sequence = 0xffffffff then 2 ^ 64 ≤ timestamp.toNat + 1 else 2 ^ 32 ≤ sequence.toNat + 1

theorem noOverflow {drawn : Option (UInt64 × UInt32)} (room : least drawn < 2 ^ 96) (now : UInt64) :
    ¬ Overflows now drawn := by
  cases drawn with
  | none => exact id
  | some state =>
    obtain ⟨timestamp, sequence⟩ := state
    have full : (0xffffffff : UInt32).toNat = 2 ^ 32 - 1 := rfl
    have small := sequence.toNat_lt
    rintro ⟨_, beyond⟩
    rw [least] at room
    split at beyond
    · rename_i spent
      rw [spent, full] at room
      omega
    · rename_i unspent
      have apart : sequence.toNat ≠ (0xffffffff : UInt32).toNat :=
        fun same => unspent (UInt32.toNat_inj.1 same)
      omega

theorem nextTicks {clock : RevisionClock} {now : UInt64} (fitting : ¬ Overflows now clock.last) :
    (clock.next now).1.ticks = max (now.toNat * 2 ^ 32) (least clock.last) := by
  obtain ⟨origin, drawn⟩ := clock
  cases drawn with
  | none => simp [next, advance, Revision.ticks, least]
  | some state =>
    obtain ⟨timestamp, sequence⟩ := state
    have small := sequence.toNat_lt
    simp only [next, advance, Revision.ticks, least]
    by_cases less : timestamp < now
    · have later : timestamp.toNat < now.toNat := less
      simp only [if_pos less, UInt32.toNat_zero]
      omega
    · have most : now.toNat ≤ timestamp.toNat := Nat.le_of_not_lt less
      have fits := not_and.1 fitting less
      by_cases spent : sequence = 0xffffffff
      · have full : sequence.toNat = 2 ^ 32 - 1 := spent ▸ rfl
        have sum : (timestamp + 1).toNat = timestamp.toNat + 1 := by
          rw [if_pos spent] at fits
          exact Nat.mod_eq_of_lt (Nat.lt_of_not_le fits)
        simp only [if_neg less, if_pos spent, sum, UInt32.toNat_zero]
        omega
      · have sum : (sequence + 1).toNat = sequence.toNat + 1 := by
          rw [if_neg spent] at fits
          exact Nat.mod_eq_of_lt (Nat.lt_of_not_le fits)
        simp only [if_neg less, if_neg spent, sum]
        omega

theorem nextLeast (clock : RevisionClock) (now : UInt64) :
    least (clock.next now).2.last = (clock.next now).1.ticks + 1 := rfl

structure Room (drawn : Option (UInt64 × UInt32)) (readings : List UInt64) : Prop where
  start : least drawn + readings.length ≤ 2 ^ 96
  each : ∀ now ∈ readings, now.toNat * 2 ^ 32 + readings.length ≤ 2 ^ 96

theorem Room.fitting {drawn : Option (UInt64 × UInt32)} {now : UInt64} {readings : List UInt64}
    (room : Room drawn (now :: readings)) : ¬ Overflows now drawn := by
  have start := room.start
  rw [List.length_cons] at start
  exact noOverflow (by omega) now

theorem Room.later {clock : RevisionClock} {now : UInt64} {readings : List UInt64}
    (room : Room clock.last (now :: readings)) : Room (clock.next now).2.last readings := by
  constructor
  · have start := room.start
    have own := room.each now List.mem_cons_self
    rw [List.length_cons] at start own
    rw [nextLeast, nextTicks room.fitting]
    omega
  · intro later listed
    have other := room.each later (List.mem_cons_of_mem _ listed)
    rw [List.length_cons] at other
    omega

structure Reached (start : Nat) (readings : List UInt64) (k ticks : Nat) : Prop where
  started : start + k ≤ ticks
  above : ∀ j now, readings[j]? = some now → j ≤ k → now.toNat * 2 ^ 32 + (k - j) ≤ ticks
  attained : ticks = start + k ∨
    ∃ j now, readings[j]? = some now ∧ j ≤ k ∧ ticks = now.toNat * 2 ^ 32 + (k - j)

theorem drawReaches {clock : RevisionClock} {readings : List UInt64}
    (room : Room clock.last readings) {k : Nat} {r : Revision}
    (drawn : (clock.draw readings).1[k]? = some r) :
    r.origin = clock.origin ∧ Reached (least clock.last) readings k r.ticks := by
  induction readings generalizing clock k with
  | nil => cases drawn
  | cons now readings ih =>
    have first := nextTicks room.fitting
    cases k with
    | zero =>
      obtain rfl : (clock.next now).1 = r := Option.some.inj drawn
      refine ⟨rfl, ⟨by omega, fun j earlier listed early => ?_, ?_⟩⟩
      · obtain rfl := Nat.le_zero.1 early
        obtain rfl := Option.some.inj listed
        omega
      · rcases Nat.le_total (now.toNat * 2 ^ 32) (least clock.last) with less | more
        · exact .inl (by omega)
        · exact .inr ⟨0, now, rfl, Nat.le_refl 0, by omega⟩
    | succ k =>
      obtain ⟨origin, reached⟩ := ih room.later drawn
      rw [nextLeast] at reached
      have started := reached.started
      refine ⟨origin, ⟨by omega, fun j earlier listed early => ?_, ?_⟩⟩
      · cases j with
        | zero =>
          obtain rfl := Option.some.inj listed
          omega
        | succ j =>
          have above := reached.above j earlier listed (by omega)
          omega
      · rcases reached.attained with start | ⟨j, earlier, listed, early, sum⟩
        · rcases Nat.le_total (now.toNat * 2 ^ 32) (least clock.last) with less | more
          · exact .inl (by omega)
          · exact .inr ⟨0, now, rfl, Nat.zero_le _, by omega⟩
        · exact .inr ⟨j + 1, earlier, listed, by omega, by omega⟩

theorem drawLength (clock : RevisionClock) (readings : List UInt64) :
    (clock.draw readings).1.length = readings.length := by
  induction readings generalizing clock with
  | nil => rfl
  | cons now readings ih => exact congrArg (· + 1) (ih _)

structure Advances (origin : UInt16) (readings : List UInt64) (revisions : List Revision) :
    Prop where
  each : revisions.length = readings.length
  origin : ∀ r ∈ revisions, r.origin = origin
  increasing : revisions.Pairwise fun r s => compare r s = .lt
  covers : ∀ (k : Nat) (r : Revision), revisions[k]? = some r →
    ∀ j now, readings[j]? = some now → j ≤ k → now ≤ r.timestamp
  -- The greatest reading so far was first read in call `j`.
  counts : readings.length ≤ 2 ^ 32 → ∀ (k : Nat) (r : Revision), revisions[k]? = some r →
    ∃ j ≤ k, readings[j]? = some r.timestamp ∧ r.sequence.toNat = k - j ∧
      ∀ i now, readings[i]? = some now → i < j → now < r.timestamp

theorem Reached.fresh {readings : List UInt64} {k ticks : Nat} (reached : Reached 0 readings k ticks)
    (called : k < readings.length) :
    ∃ j now, readings[j]? = some now ∧ j ≤ k ∧ ticks = now.toNat * 2 ^ 32 + (k - j) := by
  rcases reached.attained with start | attained
  · have first : readings[0]? = some readings[0] := List.getElem?_eq_getElem (by omega)
    have above := reached.above 0 _ first (Nat.zero_le k)
    exact ⟨0, readings[0], first, Nat.zero_le k, by omega⟩
  · exact attained

theorem freshAdvances (origin : UInt16) {readings : List UInt64} (room : Room none readings) :
    Advances origin readings (draw { origin } readings).1 := by
  have reaches : ∀ k r, (draw { origin } readings).1[k]? = some r →
      r.origin = origin ∧ Reached 0 readings k r.ticks := fun k r drawn => drawReaches room drawn
  have length := drawLength { origin } readings
  generalize (draw { origin } readings).1 = revisions at reaches length
  refine ⟨length, fun r listed => ?_, ?_, fun k r drawn j now listed early => ?_,
    fun few k r drawn => ?_⟩
  · obtain ⟨k, drawn⟩ := List.mem_iff_getElem?.1 listed
    exact (reaches k r drawn).1
  · rw [List.pairwise_iff_getElem]
    intro k l before here less
    obtain ⟨own, reached⟩ := reaches k _ (List.getElem?_eq_getElem before)
    obtain ⟨other, later⟩ := reaches l _ (List.getElem?_eq_getElem here)
    refine Revision.ticksLess (own.trans other.symm) ?_
    obtain ⟨j, now, listed, early, sum⟩ := reached.fresh (length ▸ before)
    have above := later.above j now listed (by omega)
    omega
  · have above := (reaches k r drawn).2.above j now listed early
    have small := r.sequence.toNat_lt
    rw [Revision.ticks] at above
    rw [UInt64.le_iff_toNat_le]
    omega
  · have called : k < readings.length := by
      rw [← length]
      exact (List.getElem?_eq_some_iff.1 drawn).1
    obtain ⟨_, reached⟩ := reaches k r drawn
    obtain ⟨j, now, listed, early, sum⟩ := reached.fresh called
    have small := r.sequence.toNat_lt
    rw [Revision.ticks] at sum
    obtain rfl : now = r.timestamp := by
      rw [← UInt64.toNat_inj]
      omega
    refine ⟨j, early, listed, by omega, fun i before earlier less => ?_⟩
    have above := reached.above i before earlier (by omega)
    rw [Revision.ticks] at above
    rw [UInt64.lt_iff_toNat_lt]
    omega

theorem Room.after {clock : RevisionClock} {before later : List UInt64}
    (room : Room clock.last (before ++ later)) : Room (clock.draw before).2.last later := by
  induction before generalizing clock with
  | nil => exact room
  | cons now before ih => exact ih room.later

section
variable {ι : Type} [DecidableEq ι]

def ofClock {α : Type} (i : ι) (xs : List (ι × α)) : List α :=
  (xs.filter fun x => x.1 = i).map Prod.snd

theorem ofClockOwn {α : Type} (i : ι) (a : α) (xs : List (ι × α)) :
    ofClock i ((i, a) :: xs) = a :: ofClock i xs := by simp [ofClock]

theorem ofClockOther {α : Type} {i j : ι} (other : j ≠ i) (a : α) (xs : List (ι × α)) :
    ofClock i ((j, a) :: xs) = ofClock i xs := by simp [ofClock, other]

theorem memOfClock {α : Type} {i : ι} {a : α} {xs : List (ι × α)} :
    a ∈ ofClock i xs ↔ (i, a) ∈ xs := by
  simp [ofClock]

theorem pairwiseOwn {α : Type} {R : α → α → Prop} {xs : List (ι × α)}
    (own : ∀ i, (ofClock i xs).Pairwise R) : xs.Pairwise fun x y => x.1 = y.1 → R x.2 y.2 := by
  induction xs with
  | nil => exact List.Pairwise.nil
  | cons x xs ih =>
    obtain ⟨i, a⟩ := x
    refine List.pairwise_cons.2 ⟨fun y listed same => ?_, ih fun j => ?_⟩
    · obtain ⟨j, b⟩ := y
      obtain rfl : i = j := same
      have ordered := own i
      rw [ofClockOwn] at ordered
      exact (List.pairwise_cons.1 ordered).1 b (memOfClock.2 listed)
    · have ordered := own j
      by_cases same : i = j
      · subst same
        rw [ofClockOwn] at ordered
        exact (List.pairwise_cons.1 ordered).2
      · rwa [ofClockOther same] at ordered

def drawAll (clocks : ι → RevisionClock) :
    List (ι × UInt64) → List (ι × Revision) × (ι → RevisionClock)
  | [] => ([], clocks)
  | (i, now) :: calls =>
    let (revision, clock) := (clocks i).next now
    let (revisions, clocks) := drawAll (Function.update clocks i clock) calls
    ((i, revision) :: revisions, clocks)

theorem drawOwn (clocks : ι → RevisionClock) (calls : List (ι × UInt64)) (i : ι) :
    (clocks i).draw (ofClock i calls) =
      (ofClock i (drawAll clocks calls).1, (drawAll clocks calls).2 i) := by
  induction calls generalizing clocks with
  | nil => rfl
  | cons call calls ih =>
    obtain ⟨j, now⟩ := call
    have later := ih (Function.update clocks j ((clocks j).next now).2)
    by_cases same : j = i
    · subst same
      rw [Function.update_self] at later
      rw [ofClockOwn, draw, drawAll]
      dsimp only
      rw [ofClockOwn, later]
    · rw [Function.update_of_ne (Ne.symm same)] at later
      rw [ofClockOther same, drawAll]
      dsimp only
      rw [ofClockOther same, later]

def newClocks (origin : ι → UInt16) : ι → RevisionClock := fun i => { origin := origin i }

theorem ownRoom {calls : List (ι × UInt64)} {greatest : Nat}
    (most : ∀ call ∈ calls, call.2.toNat ≤ greatest)
    (room : greatest + calls.length / 2 ^ 32 < 2 ^ 64) (i : ι) : Room none (ofClock i calls) := by
  have fewer : (ofClock i calls).length ≤ calls.length := by
    rw [ofClock, List.length_map]
    exact List.length_filter_le _ _
  constructor
  · rw [least]
    omega
  · intro now listed
    have small : now.toNat ≤ greatest := most (i, now) (memOfClock.1 listed)
    omega

theorem drawnApart {origin : ι → UInt16} (apart : Function.Injective origin)
    {drawn : List (ι × Revision)} (own : ∀ i, ∀ r ∈ ofClock i drawn, r.origin = origin i)
    (increasing : ∀ i, (ofClock i drawn).Pairwise fun r s => compare r s = .lt) :
    (drawn.map Prod.snd).Nodup := by
  rw [List.Nodup, List.pairwise_map]
  refine List.Pairwise.imp_of_mem ?_ (pairwiseOwn increasing)
  rintro ⟨i, r⟩ ⟨j, s⟩ first second less same
  have origins : r.origin = s.origin := congrArg Revision.origin same
  rw [own i r (memOfClock.2 first), own j s (memOfClock.2 second)] at origins
  have below := less (apart origins)
  rw [same, Std.compare_self] at below
  cases below

theorem familyAdvances {origin : ι → UInt16} (apart : Function.Injective origin)
    {calls : List (ι × UInt64)} {greatest : Nat} (most : ∀ call ∈ calls, call.2.toNat ≤ greatest)
    (room : greatest + calls.length / 2 ^ 32 < 2 ^ 64) :
    (∀ i, Advances (origin i) (ofClock i calls)
      (ofClock i (drawAll (newClocks origin) calls).1)) ∧
    (∀ before i now later, calls = before ++ (i, now) :: later →
      ¬ Overflows now ((drawAll (newClocks origin) before).2 i).last) ∧
    ((drawAll (newClocks origin) calls).1.map Prod.snd).Nodup := by
  have each : ∀ i, Advances (origin i) (ofClock i calls)
      (ofClock i (drawAll (newClocks origin) calls).1) := by
    intro i
    have advances := freshAdvances (origin i) (ownRoom most room i)
    have own : (draw { origin := origin i } (ofClock i calls)).1 =
        ofClock i (drawAll (newClocks origin) calls).1 :=
      congrArg Prod.fst (drawOwn (newClocks origin) calls i)
    rwa [own] at advances
  refine ⟨each, ?_, drawnApart apart (fun i => (each i).origin) fun i => (each i).increasing⟩
  rintro before i now later rfl
  have own := congrArg Prod.snd (drawOwn (newClocks origin) before i)
  have whole : Room none (ofClock i before ++ now :: ofClock i later) := by
    have room := ownRoom most room i
    rwa [ofClock, List.filter_append, List.map_append, ← ofClock, ← ofClock, ofClockOwn] at room
  have left : Room (draw (newClocks origin i) (ofClock i before)).2.last (now :: ofClock i later) :=
    whole.after
  rw [own] at left
  exact left.fitting

def twoOrigins : Bool → UInt16
  | false => 0
  | true => 1

def skewed : List (Bool × UInt64) :=
  [(false, 5), (true, 0xffffffffffffffff), (false, 5), (true, 0), (false, 3), (false, 6)]

theorem skewedAdvance : (∀ call ∈ skewed, call.2.toNat ≤ 2 ^ 64 - 1) ∧
    2 ^ 64 - 1 + skewed.length / 2 ^ 32 < 2 ^ 64 ∧
    (drawAll (newClocks twoOrigins) skewed).1 =
      [(false, ⟨5, 0, 0⟩), (true, ⟨0xffffffffffffffff, 1, 0⟩), (false, ⟨5, 0, 1⟩),
        (true, ⟨0xffffffffffffffff, 1, 1⟩), (false, ⟨5, 0, 2⟩), (false, ⟨6, 0, 0⟩)] ∧
    ((drawAll (newClocks twoOrigins) skewed).1.map Prod.snd).Nodup := by
  have most : ∀ call ∈ skewed, call.2.toNat ≤ 2 ^ 64 - 1 := fun call _ =>
    Nat.le_pred_of_lt call.2.toNat_lt
  have room : 2 ^ 64 - 1 + skewed.length / 2 ^ 32 < 2 ^ 64 := by
    change 2 ^ 64 - 1 + 6 / 2 ^ 32 < 2 ^ 64
    omega
  have apart : Function.Injective twoOrigins := by
    intro a b same
    cases a <;> cases b <;> cases same <;> rfl
  exact ⟨most, room, rfl, (familyAdvances apart most room).2.2⟩

end

end RevisionClock
end DocHistory
