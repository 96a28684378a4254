import Mathlib.Algebra.BigOperators.Intervals
import Mathlib.Algebra.Order.BigOperators.Group.Finset

/-!
# The Gregorian calendar

A moment is a valid date with a time of day. Counted in seconds from the beginning of a year, the
moments are ordered as their fields are.
-/

namespace Calendar

/-- The years with a 29 February. -/
def Leap (year : Nat) : Prop := year % 4 = 0 ∧ (year % 100 ≠ 0 ∨ year % 400 = 0)

instance (year : Nat) : Decidable (Leap year) := inferInstanceAs (Decidable (_ ∧ _))

/-- The days of a month, of which January is the first. -/
def daysOfMonth (year month : Nat) : Nat :=
  if month = 2 then if Leap year then 29 else 28
  else if month = 4 ∨ month = 6 ∨ month = 9 ∨ month = 11 then 30 else 31

/-- The days of a year. -/
def daysOfYear (year : Nat) : Nat := if Leap year then 366 else 365

/-- The days of a year that pass before a month. -/
def daysBeforeMonth (year month : Nat) : Nat := ∑ m ∈ Finset.Ico 1 month, daysOfMonth year m

/-- The days that pass from the beginning of one year to that of another. -/
def daysBeforeYear (epoch year : Nat) : Nat := ∑ y ∈ Finset.Ico epoch year, daysOfYear y

/-- A date and a time of day. -/
structure Moment where
  year : Nat
  month : Nat
  day : Nat
  hour : Nat
  minute : Nat
  second : Nat
  month_pos : 1 ≤ month
  month_le : month ≤ 12
  day_pos : 1 ≤ day
  day_le : day ≤ daysOfMonth year month
  hour_lt : hour < 24
  minute_lt : minute < 60
  second_lt : second < 60

namespace Moment

/-- What a moment is written with, the greatest unit first. -/
def fields (m : Moment) : List Nat := [m.year, m.month, m.day, m.hour, m.minute, m.second]

/-- The days of the year that have passed. -/
def yearDay (m : Moment) : Nat := daysBeforeMonth m.year m.month + (m.day - 1)

/-- The seconds since the beginning of a year. -/
def seconds (epoch : Nat) (m : Moment) : Nat :=
  (((daysBeforeYear epoch m.year + m.yearDay) * 24 + m.hour) * 60 + m.minute) * 60 + m.second

end Moment

variable {year epoch : Nat} {m m' : Moment}

/-- What is inside a period is before the end of each later one. -/
theorem sum_add_lt {f : Nat → Nat} {start a a' x : Nat} (after : start ≤ a) (inside : x < f a)
    (later : a < a') : ∑ k ∈ Finset.Ico start a, f k + x < ∑ k ∈ Finset.Ico start a', f k := by
  calc
    ∑ k ∈ Finset.Ico start a, f k + x < ∑ k ∈ Finset.Ico start a, f k + f a :=
      Nat.add_lt_add_left inside _
    _ = ∑ k ∈ Finset.Ico start (a + 1), f k := (Finset.sum_Ico_succ_top after f).symm
    _ ≤ ∑ k ∈ Finset.Ico start a', f k :=
      Finset.sum_le_sum_of_subset (Finset.Ico_subset_Ico_right later)

/-- The days of the months are the days of the year. -/
theorem daysBeforeMonth_end (year : Nat) : daysBeforeMonth year 13 = daysOfYear year := by
  by_cases leap : Leap year <;>
    simp [daysBeforeMonth, daysOfMonth, daysOfYear, leap, Finset.sum_Ico_succ_top]

/-- One year more. -/
theorem daysBeforeYear_succ (after : epoch ≤ year) :
    daysBeforeYear epoch (year + 1) = daysBeforeYear epoch year + daysOfYear year :=
  Finset.sum_Ico_succ_top after _

/-- No year has more than 366 days. -/
theorem daysBeforeYear_le (epoch year : Nat) :
    daysBeforeYear epoch year ≤ (year - epoch) * 366 := by
  have each (y : Nat) (_ : y ∈ Finset.Ico epoch year) : daysOfYear y ≤ 366 := by
    unfold daysOfYear
    split <;> decide
  have bound := Finset.sum_le_card_nsmul _ _ _ each
  rw [Nat.card_Ico] at bound
  exact bound

/-- A moment is in its month. -/
theorem Moment.day_lt (m : Moment) : m.day - 1 < daysOfMonth m.year m.month := by
  have first := m.day_pos
  have last := m.day_le
  omega

/-- A moment is in its year. -/
theorem Moment.yearDay_lt (m : Moment) : m.yearDay < daysOfYear m.year := by
  rw [← daysBeforeMonth_end]
  exact sum_add_lt m.month_pos m.day_lt (Nat.lt_succ_of_le m.month_le)

/-- The seconds of a moment count up with its fields. -/
theorem Moment.seconds_lt (after : epoch ≤ m.year) (before : m.fields < m'.fields) :
    m.seconds epoch < m'.seconds epoch := by
  have hour := m.hour_lt
  have minute := m.minute_lt
  have second := m.second_lt
  simp only [fields, List.cons_lt_cons_iff, List.lt_irrefl, and_false, or_false] at before
  unfold seconds
  rcases before with year | ⟨sameYear, month | ⟨sameMonth, day | ⟨sameDay, time⟩⟩⟩
  · have days : daysBeforeYear epoch m.year + m.yearDay < daysBeforeYear epoch m'.year :=
      sum_add_lt after m.yearDay_lt year
    omega
  · have days : m.yearDay < daysBeforeMonth m'.year m'.month := by
      rw [← sameYear]
      exact sum_add_lt m.month_pos m.day_lt month
    have more : daysBeforeMonth m'.year m'.month ≤ m'.yearDay := Nat.le_add_right _ _
    rw [← sameYear]
    omega
  · have days : m.yearDay < m'.yearDay := by
      have first := m.day_pos
      unfold yearDay
      rw [sameYear, sameMonth]
      omega
    rw [← sameYear]
    omega
  · have days : m.yearDay = m'.yearDay := by
      unfold yearDay
      rw [sameYear, sameMonth, sameDay]
    rw [← sameYear, ← days]
    omega

end Calendar
