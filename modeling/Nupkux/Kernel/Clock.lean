import Mathlib.Tactic.IntervalCases
import Nupkux.Lib.Calendar
import Nupkux.Types

/-!
# The real-time clock

`time` reads the registers of the clock, which hold two digits each, and counts the seconds since
1970. The clock is taken to run two hours ahead, in the 24-hour mode; the year has two digits and is
one of 1970 to 2069. The result is a `long`, so the last moments it can tell are in 2038.
-/

namespace Nupkux

open Calendar

/-- `_ktimezone`. -/
def ktimezone : Int := 1

/-- `_kdaylight_saving_time`. -/
def kdaylightSavingTime : Int := 1

/-- The fields of `struct tm`. -/
structure Tm where
  sec : Int
  min : Int
  hour : Int
  mday : Int
  mon : Int
  year : Int
  wday : Int
  yday : Int
  isdst : Int
deriving DecidableEq

/-- `DateBCD`. -/
def dateBCD (value : UInt8) (isBcd : Bool) : UInt8 :=
  if !isBcd then value
  else
    let tmp := (value % 0x10).toNat
    let value := value / 0x10
    if tmp > 9 ∨ (value % 0x10).toNat > 9 then UInt8.ofNat 255
    else UInt8.ofNat (tmp + 10 * (value % 0x10).toNat)

/-- `tm_yday` as `getrtctime` computes it. -/
def tmYday (mon mday year : Int) : Int :=
  let yday := (mon - 1) * 30
  let yday := if mon > 2 then yday - 2 else yday
  let yday :=
    if mon < 7 then yday + mon / 2
    else if mon = 7 then yday + 3
    else yday + ((mon - 7) / 2 + 4)
  let yday := yday + (mday - 1)
  if ((year % 4 = 0 ∧ year % 100 ≠ 0) ∨ year % 400 = 0) ∧ mon > 2 then yday + 1 else yday

/-- `getrtctime`, given the registers of the clock. -/
def getrtctime (cmos : UInt8 → UInt8) : Tm :=
  let isBcd := (cmos 0x0B &&& 0x04) >>> 2 == 0
  let sec := (dateBCD (cmos 0x00) isBcd).toNat
  let min := (dateBCD (cmos 0x02) isBcd).toNat
  let hour := (dateBCD (cmos 0x04) isBcd).toNat
  let mday := (dateBCD (cmos 0x07) isBcd).toNat
  let mon := (dateBCD (cmos 0x08) isBcd).toNat
  let year := (dateBCD (cmos 0x09) isBcd).toNat
  { sec, min, hour, mday, mon, year
    wday := -1
    yday := tmYday mon mday year
    isdst := kdaylightSavingTime }

/-- The loop of `mktime` over the years down to 1970, of which there are so many. -/
def leapDays : Nat → Int → Int
  | 0, result => result
  | years + 1, result =>
    let i : Int := 1970 + years
    leapDays years
      (if (i % 4 = 0 ∧ i % 100 ≠ 0) ∨ i % 400 = 0 then toInt (result + 1) else result)

/-- `mktime`. -/
def mktime (timeptr : Tm) : Int :=
  let result := toInt (if timeptr.year ≥ 70 then (timeptr.year - 70) * 365
    else (timeptr.year + 30) * 365)
  let i := timeptr.year + 1899
  let i := if i < 1969 then i + 100 else i
  let result := leapDays (i - 1969).toNat result
  let result := toInt (result + timeptr.yday)
  let result := toInt (result * 24)
  let result := toInt (result + timeptr.hour)
  let result := toInt (result * 60)
  let result := toInt (result + timeptr.min)
  let result := toInt (result * 60)
  toInt (result + timeptr.sec)

/-- `removetimezone`. -/
def removetimezone (timeptr : Tm) : Tm :=
  let timeptr := { timeptr with hour := timeptr.hour - ktimezone }
  { timeptr with hour := timeptr.hour - timeptr.isdst }

/-- `time`, given the registers of the clock. -/
def time (cmos : UInt8 → UInt8) : Int := mktime (removetimezone (getrtctime cmos))

/-- A number of two digits in a register, in binary or in BCD. -/
def twoDigits (binary : Bool) (value : Nat) : UInt8 :=
  UInt8.ofNat (if binary then value else 16 * (value / 10) + value % 10)

/-- The hour in a register. With hours up to 12 only, the highest bit is for the afternoon. -/
def hourRegister (binary upTo24 : Bool) (hour : Nat) : UInt8 :=
  if upTo24 then twoDigits binary hour
  else twoDigits binary ((hour + 11) % 12 + 1) ||| if hour < 12 then 0 else 0x80

/-- The bit of register B that selects binary numbers. -/
def binaryMode (cmos : UInt8 → UInt8) : Bool := (cmos 0x0B &&& 0x04) >>> 2 != 0

/-- The bit of register B that selects hours up to 24. -/
def hours24 (cmos : UInt8 → UInt8) : Bool := (cmos 0x0B &&& 0x02) >>> 1 != 0

/-- The registers of the clock show a moment. -/
structure Shows (cmos : UInt8 → UInt8) (m : Moment) : Prop where
  first : 1970 ≤ m.year
  last : m.year ≤ 2069
  second : cmos 0x00 = twoDigits (binaryMode cmos) m.second
  minute : cmos 0x02 = twoDigits (binaryMode cmos) m.minute
  hour : cmos 0x04 = hourRegister (binaryMode cmos) (hours24 cmos) m.hour
  day : cmos 0x07 = twoDigits (binaryMode cmos) m.day
  month : cmos 0x08 = twoDigits (binaryMode cmos) m.month
  year : cmos 0x09 = twoDigits (binaryMode cmos) (m.year % 100)

/-- The hours by which a moment is taken for a later one: with hours up to 12, 12 is not taken for
midnight, and the bit of the afternoon is taken for a digit. -/
def hoursAhead (cmos : UInt8 → UInt8) (hour : Nat) : Nat :=
  if hours24 cmos then 0
  else if hour = 0 then 12
  else if hour < 12 then 0
  else if hour = 12 then if binaryMode cmos then 128 else 80
  else if binaryMode cmos then 116 else 68

variable {cmos cmos' : UInt8 → UInt8} {m m' : Moment}

/-- A moment is read as one before the end of a `long`, which comes on 19 January 2038. -/
def BeforeEnd (cmos : UInt8 → UInt8) (m : Moment) : Prop :=
  m.seconds 1970 + 3600 * hoursAhead cmos m.hour < 2147483648 + 7200

instance : Decidable (BeforeEnd cmos m) := inferInstanceAs (Decidable (_ < _))

/-- `time` returns values of two readings that differ by the seconds between them, in particular no
smaller one for the later reading. -/
def KeepsDifference (cmos cmos' : UInt8 → UInt8) (m m' : Moment) : Prop :=
  time cmos - time cmos' = (m.seconds 1970 : Int) - m'.seconds 1970 ∧
    (m'.fields < m.fields → time cmos' ≤ time cmos)

/-- Wrapping takes off a multiple of the width. -/
theorem exists_toInt (a : Int) : ∃ k, toInt a = a + 4294967296 * k := by
  refine ⟨-((a + 2147483648) / 4294967296), ?_⟩
  unfold toInt
  omega

/-- A multiple of the width is wrapped away. -/
theorem toInt_add_mul (a k : Int) : toInt (a + 4294967296 * k) = toInt a := by
  unfold toInt
  omega

/-- A sum wraps as its parts do. -/
theorem toInt_toInt_add (a b : Int) : toInt (toInt a + b) = toInt (a + b) := by
  obtain ⟨k, wrapped⟩ := exists_toInt a
  rw [wrapped, Int.add_right_comm, toInt_add_mul]

/-- A product wraps as its parts do. -/
theorem toInt_toInt_mul (a b : Int) : toInt (toInt a * b) = toInt (a * b) := by
  obtain ⟨k, wrapped⟩ := exists_toInt a
  rw [wrapped, Int.add_mul, Int.mul_assoc, toInt_add_mul]

/-- Two digits are read back. -/
theorem dateBCD_twoDigits (binary : Bool) {value : Nat} (small : value < 100) :
    (dateBCD (twoDigits binary value) (!binary)).toNat = value := by
  revert binary
  revert value
  decide

/-- The hour that is read. -/
theorem dateBCD_hourRegister (cmos : UInt8 → UInt8) {hour : Nat} (inDay : hour < 24) :
    (dateBCD (hourRegister (binaryMode cmos) (hours24 cmos) hour) (!binaryMode cmos)).toNat =
      hour + hoursAhead cmos hour := by
  unfold hoursAhead
  generalize binaryMode cmos = binary
  generalize hours24 cmos = upTo24
  revert binary upTo24
  revert hour
  decide

/-- Two digits tell the leap years. -/
theorem leap_iff_twoDigits {year : Nat} (first : 1970 ≤ year) (last : year ≤ 2069) :
    (((year % 100 : Nat) : Int) % 4 = 0 ∧ ((year % 100 : Nat) : Int) % 100 ≠ 0 ∨
      ((year % 100 : Nat) : Int) % 400 = 0) ↔ Leap year := by
  unfold Leap
  omega

/-- The formula for the day of the year. -/
theorem tmYday_eq {year month day : Nat} (first : 1970 ≤ year) (last : year ≤ 2069)
    (month_pos : 1 ≤ month) (month_le : month ≤ 12) (day_pos : 1 ≤ day) :
    tmYday month day ((year % 100 : Nat) : Int) =
      (daysBeforeMonth year month + (day - 1) : Nat) := by
  unfold tmYday
  simp only [leap_iff_twoDigits first last]
  interval_cases month <;> by_cases leap : Leap year <;>
    simp [daysBeforeMonth, daysOfMonth, leap, Finset.sum_Ico_succ_top] <;> omega

/-- The loop adds a day for each leap year. -/
theorem leapDays_eq (years : Nat) (result : Int) :
    toInt (leapDays years result) =
      toInt (result + daysBeforeYear 1970 (1970 + years) - years * 365) := by
  induction years generalizing result with
  | zero => simp [leapDays, daysBeforeYear]
  | succ years ih =>
    have leap : (((1970 + years : Int) % 4 = 0 ∧ (1970 + years : Int) % 100 ≠ 0) ∨
        (1970 + years : Int) % 400 = 0) ↔ Leap (1970 + years) := by
      unfold Leap
      omega
    rw [← Nat.add_assoc, daysBeforeYear_succ (Nat.le_add_right _ _), leapDays, ih]
    simp only [leap]
    unfold daysOfYear
    split
    · rw [Int.add_sub_assoc, toInt_toInt_add]
      apply congrArg toInt
      push_cast
      omega
    · apply congrArg toInt
      push_cast
      omega

/-- `mktime` counts the seconds from 1970. -/
theorem mktime_eq {tm : Tm} {year : Nat} (first : 1970 ≤ year) (last : year ≤ 2069)
    (isYear : tm.year = (year % 100 : Nat)) :
    mktime tm = toInt ((((daysBeforeYear 1970 year + tm.yday) * 24 + tm.hour) * 60 + tm.min) * 60 +
      tm.sec) := by
  have start : (if tm.year ≥ 70 then (tm.year - 70) * 365 else (tm.year + 30) * 365) =
      (year - 1970 : Nat) * 365 := by
    rw [isYear]
    split <;> omega
  have years : ((if tm.year + 1899 < 1969 then tm.year + 1899 + 100
      else tm.year + 1899) - 1969).toNat = year - 1970 := by
    rw [isYear]
    split <;> omega
  have days (rest : Int) :
      toInt (leapDays (year - 1970) (toInt ((year - 1970 : Nat) * 365)) + rest) =
        toInt (daysBeforeYear 1970 year + rest) := by
    rw [← toInt_toInt_add, leapDays_eq, toInt_toInt_add, Nat.add_sub_cancel' first,
      Int.add_sub_assoc, Int.add_assoc, toInt_toInt_add]
    apply congrArg toInt
    omega
  unfold mktime
  simp only [start, years, days, toInt_toInt_add, toInt_toInt_mul]

/-- The date and the time that are read. -/
theorem getrtctime_eq (shows : Shows cmos m) :
    getrtctime cmos =
      { sec := m.second, min := m.minute, hour := (m.hour + hoursAhead cmos m.hour : Nat)
        mday := m.day, mon := m.month, year := (m.year % 100 : Nat), wday := -1
        yday := m.yearDay, isdst := 1 } := by
  have month := m.month_le
  have minute := m.minute_lt
  have second := m.second_lt
  have day : m.day < 100 := by
    have last := m.day_le
    have most : daysOfMonth m.year m.month ≤ 31 := by
      unfold daysOfMonth
      split <;> split <;> decide
    omega
  have bcd : ((cmos 0x0B &&& 0x04) >>> 2 == 0) = !binaryMode cmos := by
    rw [binaryMode, bne, Bool.not_not]
  unfold getrtctime
  simp only [bcd, shows.second, shows.minute, shows.hour, shows.day, shows.month, shows.year,
    dateBCD_hourRegister cmos m.hour_lt, dateBCD_twoDigits _ day,
    dateBCD_twoDigits _ (show m.second < 100 by omega),
    dateBCD_twoDigits _ (show m.minute < 100 by omega),
    dateBCD_twoDigits _ (show m.month < 100 by omega),
    dateBCD_twoDigits _ (Nat.mod_lt m.year (show 0 < 100 by decide)),
    tmYday_eq shows.first shows.last m.month_pos m.month_le m.day_pos]
  rfl

/-- What `time` returns. -/
theorem time_eq (shows : Shows cmos m) :
    time cmos = toInt (m.seconds 1970 + 3600 * hoursAhead cmos m.hour - 7200) := by
  rw [time, getrtctime_eq shows, mktime_eq shows.first shows.last rfl]
  apply congrArg toInt
  simp only [removetimezone, ktimezone, Moment.seconds]
  push_cast
  omega

/-- What `time` returns before the end of a `long` and after it. -/
theorem time_eq_sub (shows : Shows cmos m) :
    time cmos = m.seconds 1970 + 3600 * hoursAhead cmos m.hour - 7200 -
      if BeforeEnd cmos m then 0 else 4294967296 := by
  have years := daysBeforeYear_le 1970 m.year
  have day := m.yearDay_lt
  have hour := m.hour_lt
  have minute := m.minute_lt
  have second := m.second_lt
  have last := shows.last
  have most : daysOfYear m.year ≤ 366 := by
    unfold daysOfYear
    split <;> decide
  have ahead : hoursAhead cmos m.hour ≤ 128 := by
    unfold hoursAhead
    split_ifs <;> decide
  have inRange : m.seconds 1970 < 4000000000 := by
    unfold Moment.seconds
    omega
  rw [time_eq shows, toInt]
  by_cases early : BeforeEnd cmos m
  · rw [if_pos early]
    unfold BeforeEnd at early
    omega
  · rw [if_neg early]
    unfold BeforeEnd at early
    omega

/-- The values for two readings differ by the seconds between them if and only if their hours are
taken for equally later ones, and both or neither are before the end of a `long`. -/
theorem keepsDifference_iff (shows : Shows cmos m) (shows' : Shows cmos' m') :
    KeepsDifference cmos cmos' m m' ↔
      hoursAhead cmos m.hour = hoursAhead cmos' m'.hour ∧
        (BeforeEnd cmos m ↔ BeforeEnd cmos' m') := by
  have ahead (cmos : UInt8 → UInt8) (hour : Nat) : hoursAhead cmos hour ≤ 128 := by
    unfold hoursAhead
    split_ifs <;> decide
  have one := ahead cmos m.hour
  have other := ahead cmos' m'.hour
  unfold KeepsDifference
  rw [time_eq_sub shows, time_eq_sub shows']
  constructor
  · rintro ⟨difference, _⟩
    by_cases early : BeforeEnd cmos m
    · rw [if_pos early] at difference
      by_cases early' : BeforeEnd cmos' m'
      · rw [if_pos early'] at difference
        exact ⟨by omega, iff_of_true early early'⟩
      · rw [if_neg early'] at difference
        omega
    · rw [if_neg early] at difference
      by_cases early' : BeforeEnd cmos' m'
      · rw [if_pos early'] at difference
        omega
      · rw [if_neg early'] at difference
        exact ⟨by omega, iff_of_false early early'⟩
  · rintro ⟨same, both⟩
    rw [same]
    simp only [both]
    refine ⟨by omega, fun later => ?_⟩
    have order := Moment.seconds_lt shows'.first later
    omega

/-- The registers in BCD and with hours up to 24 in which a moment is shown. -/
def registers (m : Moment) (register : UInt8) : UInt8 :=
  if register = 0x0B then 0x02
  else if register = 0x00 then twoDigits false m.second
  else if register = 0x02 then twoDigits false m.minute
  else if register = 0x04 then twoDigits false m.hour
  else if register = 0x07 then twoDigits false m.day
  else if register = 0x08 then twoDigits false m.month
  else twoDigits false (m.year % 100)

/-- The registers show the moment. -/
theorem shows_registers (first : 1970 ≤ m.year) (last : m.year ≤ 2069) :
    Shows (registers m) m := by
  have modes : registers m 0x0B = 0x02 := if_pos rfl
  have binary : binaryMode (registers m) = false := by
    rw [binaryMode, modes]
    decide
  have hours : hours24 (registers m) = true := by
    rw [hours24, modes]
    decide
  constructor <;> first | assumption | simp [registers, binary, hours, hourRegister]

/-- 29 February 2000, a second before midnight. -/
def leapDay : Moment :=
  ⟨2000, 2, 29, 23, 59, 59, by decide, by decide, by decide, by decide, by decide, by decide,
    by decide⟩

/-- 19 January 2038, 5:14:07. -/
def endOfLong : Moment :=
  ⟨2038, 1, 19, 5, 14, 7, by decide, by decide, by decide, by decide, by decide, by decide,
    by decide⟩

/-- One second later. -/
def afterLong : Moment :=
  ⟨2038, 1, 19, 5, 14, 8, by decide, by decide, by decide, by decide, by decide, by decide,
    by decide⟩

/-- A leap day and the last moment of a `long`. -/
theorem keepsDifference_iff_leapDay :
    KeepsDifference (registers endOfLong) (registers leapDay) endOfLong leapDay :=
  (keepsDifference_iff (shows_registers (by decide) (by decide))
    (shows_registers (by decide) (by decide))).mpr ⟨rfl, by decide +kernel⟩

/-- The second after the last moment of a `long` is not a second later. -/
theorem keepsDifference_not :
    ¬KeepsDifference (registers afterLong) (registers endOfLong) afterLong endOfLong := by
  rintro ⟨_, later⟩
  have order : endOfLong.fields < afterLong.fields := by decide
  revert later
  decide +kernel

end Nupkux
