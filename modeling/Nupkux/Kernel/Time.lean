import Mathlib.Data.Nat.Basic
import Nupkux.Types

/-!
# Sleeping

`sleep` compares `ticks`, which the timer interrupt counts up and lets wrap, with its value at the
call until enough interrupts have come. The comparison subtracts the duration from the clock, so
it wants the clock to be at least as far as the duration when it begins.
-/

namespace Nupkux

/-- `tick_rate`. -/
def tickRate : Nat := 50

/-- `ticks` after `timer_handler`, which then switches tasks. -/
def timerHandler (ticks : Nat) : Nat := uadd ticks 1

/-- `ticks` after so many interrupts. -/
def ticksAfter (ticks : Nat) : Nat → Nat
  | 0 => ticks
  | interrupts + 1 => timerHandler (ticksAfter ticks interrupts)

/-- A loop without a body, of which so many tests are looked at from a test on: the test that
ends it. -/
def emptyLoop (goesOn : Nat → Bool) : Nat → Nat → Option Nat
  | 0, _ => none
  | tests + 1, k => if goesOn k then emptyLoop goesOn tests (k + 1) else some k

/-- `tdiff`, the duration of `sleep` in ticks. -/
def tdiff (msecs : Nat) : Nat := umul tickRate msecs / 1000

/-- `sleep`, called at `ticks` and given the clock as each of its tests sees it. -/
def sleep (ticks msecs : Nat) (seen : Nat → Nat) (tests : Nat) : Option Nat :=
  let tstart := ticks
  emptyLoop (fun k => usub (seen k) (tdiff msecs) < tstart) tests 0

/-- How many interrupts have come before each test: the clock advances by one, so no value is
skipped between two tests. -/
structure Advances (passed : Nat → Nat) : Prop where
  first : passed 0 = 0
  next : ∀ k, passed (k + 1) = passed k ∨ passed (k + 1) = passed k + 1

/-- The loop ends at the first test at which so many interrupts have come. -/
def SleepsExactly (ticks msecs : Nat) : Prop :=
  ∀ passed, Advances passed → ∀ tests,
    sleep ticks msecs (fun k => ticksAfter ticks (passed k)) tests =
      emptyLoop (fun k => passed k < tickRate * msecs / 1000) tests 0

variable {ticks msecs duration n : Nat}

/-- The clock is a 32-bit counter. -/
theorem ticksAfter_eq (inRange : ticks < uintWidth) (n : Nat) :
    ticksAfter ticks n = (ticks + n) % uintWidth := by
  induction n with
  | zero => exact (Nat.mod_eq_of_lt inRange).symm
  | succ n ih =>
    rw [ticksAfter, ih, timerHandler, uadd, Nat.mod_add_mod]
    rfl

/-- Up to the end of the duration the test tells how much has passed, if the clock has been
counting for as long when it begins. -/
theorem test_iff (inRange : ticks < uintWidth) (counting : duration ≤ ticks) (early : n ≤ duration) :
    usub (ticksAfter ticks n) duration < ticks ↔ n < duration := by
  rw [ticksAfter_eq inRange, usub]
  simp only [uintWidth] at *
  omega

/-- Loops with tests that agree up to the end of one of them end at the same test. -/
theorem emptyLoop_congr {goesOn goesOn' : Nat → Bool} {k : Nat} (tests : Nat)
    (same : ∀ j, k ≤ j → (∀ i, k ≤ i → i < j → goesOn' i = true) → goesOn j = goesOn' j) :
    emptyLoop goesOn tests k = emptyLoop goesOn' tests k := by
  induction tests generalizing k with
  | zero => rfl
  | succ tests ih =>
    have here : goesOn k = goesOn' k :=
      same k (Nat.le_refl k) fun i low high => absurd high (Nat.not_lt.mpr low)
    rw [emptyLoop, emptyLoop, here]
    by_cases more : goesOn' k = true
    · rw [if_pos more, if_pos more]
      apply ih
      intro j below earlier
      apply same j (Nat.le_of_succ_le below)
      intro i low high
      rcases Nat.eq_or_lt_of_le low with rfl | later
      · exact more
      · exact earlier i later high
    · rw [if_neg more, if_neg more]

/-- Until the first test at the end of the duration, no more than the duration has passed. -/
theorem Advances.le_of_early {passed : Nat → Nat} (advances : Advances passed) {j : Nat}
    (early : ∀ i < j, passed i < duration) : passed j ≤ duration := by
  cases j with
  | zero =>
    rw [advances.first]
    exact Nat.zero_le _
  | succ j =>
    have before := early j (Nat.lt_succ_self j)
    rcases advances.next j with same | more
    · omega
    · omega

/-- `sleep` waits for exactly as long as it should if and only if at least as many ticks have been
counted when it is called. -/
theorem sleep_exactly_iff (inRange : ticks < uintWidth) (noWrap : tickRate * msecs < uintWidth) :
    SleepsExactly ticks msecs ↔ tickRate * msecs / 1000 ≤ ticks := by
  have length : tdiff msecs = tickRate * msecs / 1000 := by rw [tdiff, umul_of_lt noWrap]
  generalize duration_eq : tickRate * msecs / 1000 = duration at length
  constructor
  · intro exact_
    -- the first test is made when nothing has passed
    have advances : Advances fun k => k := ⟨rfl, fun _ => .inr rfl⟩
    have one := exact_ _ advances 1
    rw [duration_eq] at one
    by_contra short
    have ends : ¬usub ticks duration < ticks := by
      rw [usub]
      simp only [uintWidth] at *
      omega
    have waits : 0 < duration := by omega
    simp only [sleep, emptyLoop, length, ticksAfter, ends, waits, decide_false, decide_true,
      Bool.false_eq_true, if_false, if_true] at one
    cases one
  · intro counting passed advances tests
    rw [duration_eq, sleep, length]
    apply emptyLoop_congr
    intro j _ earlier
    have early : ∀ i < j, passed i < duration := fun i below =>
      of_decide_eq_true (earlier i (Nat.zero_le i) below)
    exact decide_eq_decide.mpr (test_iff inRange counting (advances.le_of_early early))

/-- One second, called one second after the clock began. -/
theorem sleep_exactly_second : SleepsExactly 50 1000 :=
  (sleep_exactly_iff (by decide) (by decide)).mpr (by decide)

/-- Called when nothing has been counted yet, `sleep` of one second returns at its first test. -/
theorem sleep_exactly_not : ¬SleepsExactly 0 1000 := by
  intro exact_
  have one := exact_ (fun k => k) ⟨rfl, fun _ => .inr rfl⟩ 1
  revert one
  decide

end Nupkux
