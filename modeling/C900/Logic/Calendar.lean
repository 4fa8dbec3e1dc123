import Mathlib.Logic.Function.Iterate
import Mathlib.Tactic.SplitIfs
import Mathlib.Tactic.ApplyFun
import Mathlib.Algebra.Group.Nat.Defs
import Mathlib.Algebra.Group.Int.Defs

/-!
# Civil time

Dates and times of day in a calendar with the usual months, for any rule that
names the leap years. An instant is a count of seconds; every second that
passes adds one to it, and a valid moment is determined by its instant.
-/

namespace Calendar

/-- A date. Months and days count from 1. -/
structure Date where
  year : Nat
  month : Nat
  day : Nat
deriving DecidableEq

/-- A date with the time of day in 24 hours. -/
structure Moment where
  date : Date
  hour : Nat
  minute : Nat
  second : Nat
deriving DecidableEq

/-- Days of a month. -/
def monthLength (leap : Bool) : Nat → Nat
  | 2 => if leap then 29 else 28
  | 4 | 6 | 9 | 11 => 30
  | _ => 31

/-- Days of a year. -/
def yearLength (leap : Bool) : Nat := if leap then 366 else 365

/-- Days of a year before a month. -/
def daysBeforeMonth (leap : Bool) : Nat → Nat
  | 0 => 0
  | 1 => 0
  | m + 2 => daysBeforeMonth leap (m + 1) + monthLength leap (m + 1)

/-- Days before a year, from the first day of year 0. -/
def daysBeforeYear (leap : Nat → Bool) : Nat → Nat
  | 0 => 0
  | y + 1 => daysBeforeYear leap y + yearLength (leap y)

/-- The number of a day; the first day of year 0 is day 1. -/
def dayNumber (leap : Nat → Bool) (d : Date) : Nat :=
  daysBeforeYear leap d.year + daysBeforeMonth (leap d.year) d.month + d.day

/-- Seconds since midnight. -/
def Moment.secondOfDay (t : Moment) : Nat := (t.hour * 60 + t.minute) * 60 + t.second

/-- Seconds of a day. -/
def daySeconds : Nat := 86400

/-- The number of a second. -/
def instant (leap : Nat → Bool) (t : Moment) : Nat :=
  dayNumber leap t.date * daySeconds + t.secondOfDay

/-- A date of the calendar. -/
structure Date.Valid (leap : Nat → Bool) (d : Date) : Prop where
  monthPos : 1 ≤ d.month
  monthLe : d.month ≤ 12
  dayPos : 1 ≤ d.day
  dayLe : d.day ≤ monthLength (leap d.year) d.month

/-- A moment of the calendar. -/
structure Moment.Valid (leap : Nat → Bool) (t : Moment) : Prop where
  date : t.date.Valid leap
  hour : t.hour < 24
  minute : t.minute < 60
  second : t.second < 60

/-! ## The next day and the next second -/

/-- The next day. -/
def nextDay (leap : Nat → Bool) (d : Date) : Date :=
  if d.day < monthLength (leap d.year) d.month then { d with day := d.day + 1 }
  else if d.month < 12 then { d with month := d.month + 1, day := 1 }
  else { year := d.year + 1, month := 1, day := 1 }

/-- The next second. -/
def nextSecond (leap : Nat → Bool) (t : Moment) : Moment :=
  if t.second < 59 then { t with second := t.second + 1 }
  else if t.minute < 59 then { t with minute := t.minute + 1, second := 0 }
  else if t.hour < 23 then { t with hour := t.hour + 1, minute := 0, second := 0 }
  else { date := nextDay leap t.date, hour := 0, minute := 0, second := 0 }

section

variable {leap : Nat → Bool} {d e : Date} {t u : Moment}

theorem monthLength_pos (leap : Bool) (m : Nat) : 1 ≤ monthLength leap m := by
  unfold monthLength
  split <;> try split_ifs
  all_goals omega

theorem monthLength_le (leap : Bool) (m : Nat) : monthLength leap m ≤ 31 := by
  unfold monthLength
  split <;> try split_ifs
  all_goals omega

/-- December ends the year. -/
theorem december (leap : Bool) : daysBeforeMonth leap 12 + monthLength leap 12 = yearLength leap := by
  cases leap <;> rfl

/-- Days before the next month. -/
theorem daysBeforeMonth_succ (leap : Bool) {m : Nat} (positive : 1 ≤ m) :
    daysBeforeMonth leap (m + 1) = daysBeforeMonth leap m + monthLength leap m := by
  obtain ⟨m, rfl⟩ := Nat.exists_eq_add_of_le' positive
  rfl

/-- The next day has the next number. -/
theorem dayNumber_nextDay (valid : d.Valid leap) :
    dayNumber leap (nextDay leap d) = dayNumber leap d + 1 := by
  obtain ⟨monthPos, monthLe, dayPos, dayLe⟩ := valid
  unfold nextDay
  split_ifs with within sameYear
  · simp only [dayNumber]
    omega
  · have month := daysBeforeMonth_succ (leap d.year) monthPos
    simp only [dayNumber, month]
    omega
  · obtain last : d.month = 12 := by omega
    have year := december (leap d.year)
    simp only [dayNumber, daysBeforeYear, daysBeforeMonth, last] at year within dayLe ⊢
    omega

/-- The next day is in the calendar. -/
theorem valid_nextDay (valid : d.Valid leap) : (nextDay leap d).Valid leap := by
  obtain ⟨monthPos, monthLe, dayPos, dayLe⟩ := valid
  unfold nextDay
  split_ifs with within sameYear
  · exact ⟨monthPos, monthLe, Nat.succ_pos _, within⟩
  · exact ⟨Nat.succ_pos _, sameYear, Nat.le_refl 1, monthLength_pos _ _⟩
  · exact ⟨Nat.le_refl 1, Nat.succ_pos 11, Nat.le_refl 1, monthLength_pos _ _⟩

/-- The next second has the next number. -/
theorem instant_nextSecond (valid : t.Valid leap) :
    instant leap (nextSecond leap t) = instant leap t + 1 := by
  obtain ⟨date, hour, minute, second⟩ := valid
  have day := dayNumber_nextDay date
  unfold nextSecond
  split_ifs with sameMinute sameHour sameDay
  all_goals
    simp only [instant, Moment.secondOfDay, daySeconds, day]
    omega

/-- The next second is in the calendar. -/
theorem valid_nextSecond (valid : t.Valid leap) : (nextSecond leap t).Valid leap := by
  obtain ⟨date, hour, minute, second⟩ := valid
  unfold nextSecond
  split_ifs with sameMinute sameHour sameDay
  · exact ⟨date, hour, minute, Nat.succ_lt_succ sameMinute⟩
  · exact ⟨date, hour, Nat.succ_lt_succ sameHour, Nat.succ_pos _⟩
  · exact ⟨date, Nat.succ_lt_succ sameDay, Nat.succ_pos _, Nat.succ_pos _⟩
  · exact ⟨valid_nextDay date, Nat.succ_pos _, Nat.succ_pos _, Nat.succ_pos _⟩

/-- Every second later is in the calendar, and its number says how much later. -/
theorem iterate_nextSecond (valid : t.Valid leap) (n : Nat) :
    ((nextSecond leap)^[n] t).Valid leap ∧
      instant leap ((nextSecond leap)^[n] t) = instant leap t + n := by
  induction n with
  | zero => exact ⟨valid, (Nat.add_zero _).symm⟩
  | succ n inductionHypothesis =>
    obtain ⟨later, number⟩ := inductionHypothesis
    rw [Function.iterate_succ_apply']
    exact ⟨valid_nextSecond later, by rw [instant_nextSecond later, number, Nat.add_assoc]⟩

/-- Which years of a calendar are leap years matters one year at a time. -/
theorem Date.Valid.of_same {other : Nat → Bool} {d e : Date} (valid : d.Valid leap)
    (month : e.month = d.month) (day : e.day = d.day) (same : other e.year = leap d.year) :
    e.Valid other where
  monthPos := month ▸ valid.monthPos
  monthLe := month ▸ valid.monthLe
  dayPos := day ▸ valid.dayPos
  dayLe := by
    rw [month, day, same]
    exact valid.dayLe

/-! ## A moment is determined by its instant -/

theorem daysBeforeMonth_mono (leap : Bool) {m n : Nat} (upTo : m ≤ n) :
    daysBeforeMonth leap m ≤ daysBeforeMonth leap n := by
  induction upTo with
  | refl => exact Nat.le_refl _
  | @step n upTo inductionHypothesis =>
    refine Nat.le_trans inductionHypothesis ?_
    cases n with
    | zero => exact Nat.zero_le _
    | succ n => exact Nat.le_add_right _ _

theorem daysBeforeYear_mono {y z : Nat} (upTo : y ≤ z) :
    daysBeforeYear leap y ≤ daysBeforeYear leap z := by
  induction upTo with
  | refl => exact Nat.le_refl _
  | step _ inductionHypothesis => exact Nat.le_trans inductionHypothesis (Nat.le_add_right _ _)

/-- The days of a month lie between those before it and those before the next. -/
theorem dayOfYear_le (valid : d.Valid leap) :
    daysBeforeMonth (leap d.year) d.month + d.day ≤
      daysBeforeMonth (leap d.year) (d.month + 1) := by
  rw [daysBeforeMonth_succ _ valid.monthPos]
  exact Nat.add_le_add_left valid.dayLe _

/-- The days of a year lie before the next year. -/
theorem dayNumber_le (valid : d.Valid leap) :
    dayNumber leap d ≤ daysBeforeYear leap (d.year + 1) := by
  have within := dayOfYear_le valid
  have month : daysBeforeMonth (leap d.year) (d.month + 1) ≤ daysBeforeMonth (leap d.year) 13 :=
    daysBeforeMonth_mono _ (Nat.succ_le_succ valid.monthLe)
  have year : daysBeforeMonth (leap d.year) 13 = yearLength (leap d.year) :=
    december (leap d.year)
  rw [dayNumber, daysBeforeYear]
  omega

/-- Days of an earlier year have smaller numbers. -/
theorem dayNumber_lt (valid : d.Valid leap) (other : e.Valid leap) (earlier : d.year < e.year) :
    dayNumber leap d < dayNumber leap e := by
  have bound := dayNumber_le valid
  have later : daysBeforeYear leap (d.year + 1) ≤ daysBeforeYear leap e.year :=
    daysBeforeYear_mono earlier
  have positive := other.dayPos
  rw [dayNumber.eq_def leap e]
  omega

/-- A date is determined by the number of its day. -/
theorem dayNumber_injective (valid : d.Valid leap) (other : e.Valid leap)
    (same : dayNumber leap d = dayNumber leap e) : d = e := by
  have year : d.year = e.year := by
    rcases Nat.lt_trichotomy d.year e.year with earlier | equal | later
    · exact absurd same (Nat.ne_of_lt (dayNumber_lt valid other earlier))
    · exact equal
    · exact absurd same.symm (Nat.ne_of_lt (dayNumber_lt other valid later))
  have ofYear : daysBeforeMonth (leap d.year) d.month + d.day =
      daysBeforeMonth (leap d.year) e.month + e.day := by
    simp only [dayNumber, ← year] at same
    omega
  have dLe := dayOfYear_le valid
  have eLe := dayOfYear_le other
  have dPos := valid.dayPos
  have ePos := other.dayPos
  rw [← year] at eLe
  have month : d.month = e.month := by
    rcases Nat.lt_trichotomy d.month e.month with earlier | equal | later
    · have next : daysBeforeMonth (leap d.year) (d.month + 1) ≤
          daysBeforeMonth (leap d.year) e.month := daysBeforeMonth_mono _ earlier
      omega
    · exact equal
    · have next : daysBeforeMonth (leap d.year) (e.month + 1) ≤
          daysBeforeMonth (leap d.year) d.month := daysBeforeMonth_mono _ later
      omega
  have day : d.day = e.day := by
    rw [month] at ofYear
    omega
  cases d
  cases e
  simp_all

/-- A moment is determined by its instant. -/
theorem instant_injective (valid : t.Valid leap) (other : u.Valid leap)
    (same : instant leap t = instant leap u) : t = u := by
  obtain ⟨tDate, tHour, tMinute, tSecond⟩ := valid
  obtain ⟨uDate, uHour, uMinute, uSecond⟩ := other
  simp only [instant, Moment.secondOfDay, daySeconds] at same
  have date : t.date = u.date := dayNumber_injective tDate uDate (by omega)
  obtain ⟨hour, minute, second⟩ :
      t.hour = u.hour ∧ t.minute = u.minute ∧ t.second = u.second := by
    rw [date] at same
    omega
  cases t
  cases u
  simp_all

/-- A moment of a later year comes later. -/
theorem year_le_of_instant_le (valid : t.Valid leap) (other : u.Valid leap)
    (upTo : instant leap t ≤ instant leap u) : t.date.year ≤ u.date.year := by
  by_contra later
  have earlier : dayNumber leap u.date < dayNumber leap t.date :=
    dayNumber_lt other.date valid.date (Nat.lt_of_not_le later)
  obtain ⟨uDate, uHour, uMinute, uSecond⟩ := other
  simp only [instant, Moment.secondOfDay, daySeconds] at upTo
  omega

/-- The number of a day is the number of days in its instant. -/
theorem instant_div (valid : t.Valid leap) :
    instant leap t / daySeconds = dayNumber leap t.date := by
  obtain ⟨date, hour, minute, second⟩ := valid
  simp only [instant, Moment.secondOfDay, daySeconds]
  omega

end

/-! ## The Gregorian calendar -/

/-- Leap years: every fourth year, of the centuries only every fourth. -/
def gregorianLeap (y : Nat) : Bool := y % 4 == 0 && (y % 100 != 0 || y % 400 == 0)

/-- The day of the week, 0 for Sunday. -/
def weekday (d : Date) : Nat := (dayNumber gregorianLeap d + 5) % 7

/-- The first day of year 1 was a Monday. -/
example : weekday ⟨1, 1, 1⟩ = 1 := by decide

/-- The days before a Gregorian year: one leap day for each fourth year, less the
centuries, plus each fourth century. -/
theorem daysBeforeYear_gregorian (y : Nat) :
    daysBeforeYear gregorianLeap y + (y + 99) / 100 =
      365 * y + (y + 3) / 4 + (y + 399) / 400 := by
  induction y with
  | zero => rfl
  | succ y inductionHypothesis =>
    have length : yearLength (gregorianLeap y) =
        365 + if y % 4 = 0 ∧ (y % 100 ≠ 0 ∨ y % 400 = 0) then 1 else 0 := by
      simp only [yearLength, gregorianLeap, Bool.and_eq_true, beq_iff_eq, Bool.or_eq_true,
        bne_iff_ne]
      split_ifs <;> rfl
    have four : (y + 1 + 3) / 4 = (y + 3) / 4 + if y % 4 = 0 then 1 else 0 := by
      split_ifs <;> omega
    have hundred : (y + 1 + 99) / 100 = (y + 99) / 100 + if y % 100 = 0 then 1 else 0 := by
      split_ifs <;> omega
    have fourHundred : (y + 1 + 399) / 400 = (y + 399) / 400 + if y % 400 = 0 then 1 else 0 := by
      split_ifs <;> omega
    have hundredOfFour : y % 400 = 0 → y % 100 = 0 := by omega
    have fourOfHundred : y % 100 = 0 → y % 4 = 0 := by omega
    rw [daysBeforeYear, length, four, hundred, fourHundred]
    by_cases century : y % 100 = 0
    · by_cases fourth : y % 400 = 0
      · simp only [century, fourth, fourOfHundred century, true_and, or_true, if_true]
        omega
      · simp only [century, fourth, fourOfHundred century, if_true, if_false, ne_eq,
          not_true, or_false, and_false]
        omega
    · have notFourth : ¬ y % 400 = 0 := mt hundredOfFour century
      simp only [century, notFourth, ne_eq, not_false_iff, true_or, and_true, if_false]
      split_ifs <;> omega

/-- The leap days up to the end of a year: one for every fourth year, less the
centuries, plus each fourth century, and that of year 0. -/
theorem leapDays_through (y : Nat) :
    (y + 3) / 4 + (y + 399) / 400 + y / 100 + (if gregorianLeap y then 1 else 0) =
      y / 4 + y / 400 + 1 + (y + 99) / 100 := by
  have four : (y + 3) / 4 + (if y % 4 = 0 then 1 else 0) = y / 4 + 1 := by
    split_ifs <;> omega
  have hundred : (y + 99) / 100 + (if y % 100 = 0 then 1 else 0) = y / 100 + 1 := by
    split_ifs <;> omega
  have fourHundred : (y + 399) / 400 + (if y % 400 = 0 then 1 else 0) = y / 400 + 1 := by
    split_ifs <;> omega
  have hundredOfFour : y % 400 = 0 → y % 100 = 0 := by omega
  have fourOfHundred : y % 100 = 0 → y % 4 = 0 := by omega
  simp only [gregorianLeap, Bool.and_eq_true, beq_iff_eq, Bool.or_eq_true, bne_iff_ne]
  split_ifs at * <;> omega

end Calendar
