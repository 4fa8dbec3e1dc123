import C900.Logic.Calendar
import C900.Bus.Clock

/-!
# The clock keeps the calendar

`rtc_tick` moves the registers of the clock chip from one second of the
calendar to the next. The registers show a moment: each register holds the digit
of its place, and the leap-year field counts down from year to year, so that 00
marks the leap years.
-/

namespace C900

open Calendar

/-! ## Reading the registers -/

/-- The registers count 24 hours. -/
def Rtc.mode24 (r : Rtc) : Bool := r.regs 0x5 &&& 0x08 != 0

/-- The two digits of the hour. -/
def Rtc.hourDigits (r : Rtc) : Nat := (r.regs 0x5).toNat % 4 * 10 + (r.regs 0x4).toNat

/-- The hour of the day; in 12-hour mode, 12 stands before 1 and PM adds 12. -/
def Rtc.hour (r : Rtc) : Nat :=
  if r.mode24 then r.hourDigits
  else r.hourDigits % 12 + if r.regs 0x5 &&& 0x04 != 0 then 12 else 0

/-- The date and time in the registers; the year has two digits. -/
def Rtc.moment (r : Rtc) : Moment where
  date.year := (r.regs 0xC).toNat * 10 + (r.regs 0xB).toNat
  date.month := (r.regs 0xA).toNat * 10 + (r.regs 0x9).toNat
  date.day := (r.regs 0x8).toNat % 4 * 10 + (r.regs 0x7).toNat
  hour := r.hour
  minute := (r.regs 0x3).toNat * 10 + (r.regs 0x2).toNat
  second := (r.regs 0x1).toNat * 10 + (r.regs 0x0).toNat

/-- The day of the week. -/
def Rtc.weekday (r : Rtc) : Nat := (r.regs 0x6).toNat

/-- The leap-year selection. -/
def Rtc.leapField (r : Rtc) : Nat := (r.regs 0x8).toNat / 4

/-- The leap-year selection of a year, counting down from `k` in year 0. -/
def leapFieldOf (k y : Nat) : Nat := (k + 3 * y) % 4

/-- The count at which the selection of a register file started. -/
def Rtc.leapStart (r : Rtc) : Nat := r.leapField + r.moment.date.year

/-- The years whose leap-year selection is 00, counting down from the year in the
registers. -/
def Rtc.leapYears (r : Rtc) (y : Nat) : Bool := leapFieldOf r.leapStart y = 0

/-- Every register holds a digit of its place, and together they show a date and
a time. -/
structure Rtc.Legal (r : Rtc) : Prop where
  s1 : (r.regs 0x0).toNat ≤ 9
  s10 : (r.regs 0x1).toNat ≤ 5
  mi1 : (r.regs 0x2).toNat ≤ 9
  mi10 : (r.regs 0x3).toNat ≤ 5
  h1 : (r.regs 0x4).toNat ≤ 9
  h10 : (r.regs 0x5).toNat ≤ 15
  hours : if r.mode24 then r.hourDigits < 24 else 1 ≤ r.hourDigits ∧ r.hourDigits ≤ 12
  w : r.weekday ≤ 6
  d1 : (r.regs 0x7).toNat ≤ 9
  d10 : (r.regs 0x8).toNat ≤ 15
  mo1 : (r.regs 0x9).toNat ≤ 9
  mo10 : (r.regs 0xA).toNat ≤ 1
  y1 : (r.regs 0xB).toNat ≤ 9
  y10 : (r.regs 0xC).toNat ≤ 9
  date : r.moment.date.Valid fun _ => r.leapField = 0

/-! ## Registers that show a moment -/

/-- The hour in the two modes. The chip leaves bit 2 alone in 24-hour mode until
the hour changes. -/
def ShowsHour (h1 h10 : Byte) (hour : Nat) : Prop :=
  (∃ bit, bit < 2 ∧ h1 = digit (hour % 10) ∧ h10 = digit (8 + 4 * bit + hour / 10)) ∨
    (h1 = digit (((hour + 11) % 12 + 1) % 10) ∧
      h10 = digit (4 * (hour / 12) + ((hour + 11) % 12 + 1) / 10))

/-- The registers from `W` to `Y10` show a date. `c` is the weekday of day 0. -/
structure ShowsDate (leap : Nat → Bool) (k c : Nat) (regs : Reg → Byte) (d : Date) : Prop where
  w : regs 0x6 = digit ((dayNumber leap d + c) % 7)
  d1 : regs 0x7 = digit (d.day % 10)
  d10 : regs 0x8 = digit (4 * leapFieldOf k d.year + d.day / 10)
  mo1 : regs 0x9 = digit (d.month % 10)
  mo10 : regs 0xA = digit (d.month / 10)
  y1 : regs 0xB = digit (d.year % 100 % 10)
  y10 : regs 0xC = digit (d.year % 100 / 10)

/-- The registers show a moment. -/
structure Shows (leap : Nat → Bool) (k c : Nat) (regs : Reg → Byte) (t : Moment) : Prop where
  s1 : regs 0x0 = digit (t.second % 10)
  s10 : regs 0x1 = digit (t.second / 10)
  mi1 : regs 0x2 = digit (t.minute % 10)
  mi10 : regs 0x3 = digit (t.minute / 10)
  hour : ShowsHour (regs 0x4) (regs 0x5) t.hour
  date : ShowsDate leap k c regs t.date

/-! ## Digits -/

@[simp] theorem digit_toNat {n : Nat} (small : n < 256) : (digit n).toNat = n :=
  Nat.mod_eq_of_lt small

theorem digit_succ (n : Nat) : digit n + 1 = digit (n + 1) := (BitVec.ofNat_add n 1).symm

theorem digit_lt_iff {m n : Nat} (mSmall : m < 256) (nSmall : n < 256) :
    digit m < digit n ↔ m < n := by
  rw [BitVec.lt_def, digit_toNat mSmall, digit_toNat nSmall]

/-- The low bits of a decimal digit. -/
theorem digit_and_15 : ∀ n, n < 10 → (digit n &&& 0x0F).toNat = n := by decide

/-- The leap-year selection and the tens of the day share a register. -/
theorem dayTens : ∀ f, f < 4 → ∀ q, q < 4 →
    (digit (4 * f + q) &&& 0x03).toNat = q ∧
      ((digit (4 * f + q) >>> 2) &&& 3 == 0) = decide (f = 0) ∧
      ∀ p, p < 4 → (digit (4 * f + q) &&& 0x0C) ||| digit p = digit (4 * f + p) := by decide

/-- Counting the leap-year selection down. -/
theorem leapDown : ∀ f, f < 4 → ∀ q, q < 4 →
    (digit (4 * f + q) &&& 0x03) ||| ((((digit (4 * f + q) >>> 2) + 3) &&& 3) <<< 2) =
      digit (4 * ((f + 3) % 4) + q) := by decide

/-- The tens of the month. -/
theorem monthTens : ∀ n, n < 2 → (digit n &&& 0x01).toNat = n ∧
    ∀ p, p < 2 → (digit n &&& 0x0E) ||| digit p = digit p := by decide

theorem leapFieldOf_lt (k y : Nat) : leapFieldOf k y < 4 := Nat.mod_lt _ (by decide)

theorem leapFieldOf_succ (k y : Nat) : leapFieldOf k (y + 1) = (leapFieldOf k y + 3) % 4 := by
  unfold leapFieldOf
  omega

/-! ## Writing registers -/

@[simp] theorem setReg_regs (r : Rtc) (i : Reg) (v : Byte) :
    (r.setReg i v).regs = Function.update r.regs i v := rfl

/-- Writing a register with its own value. -/
theorem setReg_self (r : Rtc) (i : Reg) : r.setReg i (r.regs i) = r := by
  rw [Rtc.setReg, Function.update_eq_self]

/-- Two digit counters in a chain count to 59. -/
theorem rtcDigitTick_pair {i j : Reg} (apart : i ≠ j) (carry : Rtc → Rtc) {r : Rtc} {n : Nat}
    (below : n < 60) (low : r.regs i = digit (n % 10)) (high : r.regs j = digit (n / 10)) :
    rtcDigitTick i 9 (rtcDigitTick j 5 carry) r =
      if n < 59 then
        (r.setReg i (digit ((n + 1) % 10))).setReg j (digit ((n + 1) / 10))
      else carry ((r.setReg i (digit 0)).setReg j (digit 0)) := by
  have lowFull : (9 : Byte) < digit (n % 10 + 1) ↔ 9 < n % 10 + 1 :=
    digit_lt_iff (m := 9) (by omega) (by omega)
  have highFull : (5 : Byte) < digit (n / 10 + 1) ↔ 5 < n / 10 + 1 :=
    digit_lt_iff (m := 5) (by omega) (by omega)
  have highKept : (r.setReg i (digit 0)).regs j = digit (n / 10) := by
    rw [setReg_regs, Function.update_of_ne apart.symm, high]
  unfold rtcDigitTick
  simp only [low, digit_succ, lowFull]
  by_cases turn : n % 10 = 9
  · rw [if_pos (by omega)]
    change (if _ then _ else _) = _
    have zero : (0 : Byte) = digit 0 := rfl
    rw [zero, highKept, digit_succ]
    simp only [highFull]
    by_cases last : n = 59
    · rw [if_pos (by omega), if_neg (by omega)]
    · rw [if_neg (by omega), if_pos (by omega)]
      have lowDigit : (n + 1) % 10 = 0 := by omega
      have highDigit : (n + 1) / 10 = n / 10 + 1 := by omega
      rw [lowDigit, highDigit]
  · rw [if_neg (by omega), if_pos (by omega)]
    have lowDigit : (n + 1) % 10 = n % 10 + 1 := by omega
    have highDigit : (n + 1) / 10 = n / 10 := by omega
    have kept : (r.setReg i (digit (n % 10 + 1))).regs j = digit (n / 10) := by
      rw [setReg_regs, Function.update_of_ne apart.symm, high]
    rw [lowDigit, highDigit, ← kept, setReg_self]

/-! ## A day passes -/

/-- The months of the chip are those of the calendar. -/
theorem rtcMlen_eq (leap : Bool) (m : Nat) : rtcMlen m leap = monthLength leap m := rfl

/-- The counters before the date are none of the day's business. -/
theorem rtcDayTick_regs_of_lt {i : Reg} (before : i.toNat < 6) (r : Rtc) :
    (rtcDayTick r).regs i = r.regs i := by
  have apart : ∀ j : Reg, 6 ≤ j.toNat → i ≠ j := by
    rintro j after rfl
    omega
  unfold rtcDayTick rtcYearTick
  dsimp only
  split_ifs <;>
    simp only [setReg_regs, Function.update_of_ne (apart 0x6 (by decide)),
      Function.update_of_ne (apart 0x7 (by decide)), Function.update_of_ne (apart 0x8 (by decide)),
      Function.update_of_ne (apart 0x9 (by decide)), Function.update_of_ne (apart 0xA (by decide)),
      Function.update_of_ne (apart 0xB (by decide)), Function.update_of_ne (apart 0xC (by decide))]

section Date

variable {leap : Nat → Bool} {k c : Nat} {d : Date}

/-- The date that the chip reads from its registers. -/
theorem ShowsDate.read {regs : Reg → Byte} (shown : ShowsDate leap k c regs d)
    (valid : d.Valid leap) :
    (regs 0x8 &&& 0x03).toNat * 10 + (regs 0x7 &&& 0x0F).toNat = d.day ∧
      (regs 0xA &&& 0x01).toNat * 10 + (regs 0x9 &&& 0x0F).toNat = d.month ∧
      (regs 0xC &&& 0x0F).toNat * 10 + (regs 0xB &&& 0x0F).toNat = d.year % 100 ∧
      ((regs 0x8 >>> 2) &&& 3 == 0) = decide (leapFieldOf k d.year = 0) := by
  obtain ⟨w, d1, d10, mo1, mo10, y1, y10⟩ := shown
  obtain ⟨monthPos, monthLe, dayPos, dayLe⟩ := valid
  have short := monthLength_le (leap d.year) d.month
  have tens := dayTens _ (leapFieldOf_lt k d.year) (d.day / 10) (by omega)
  have months := (monthTens (d.month / 10) (by omega)).1
  rw [d1, d10, mo1, mo10, y1, y10, tens.1, tens.2.1, months, digit_and_15 _ (by omega),
    digit_and_15 _ (by omega), digit_and_15 _ (by omega), digit_and_15 _ (by omega)]
  refine ⟨?_, ?_, ?_, rfl⟩ <;> omega

/-- The next weekday. -/
theorem ShowsDate.nextWeekday {regs : Reg → Byte} (shown : ShowsDate leap k c regs d)
    (valid : d.Valid leap) :
    digit (((regs 0x6).toNat + 1) % 7) = digit ((dayNumber leap (nextDay leap d) + c) % 7) := by
  have small : (dayNumber leap d + c) % 7 < 256 := by omega
  rw [shown.w, digit_toNat small, dayNumber_nextDay valid]
  exact congrArg digit (by omega)

/-- A day passes within the month. -/
theorem rtcDayTick_within {r : Rtc} (shown : ShowsDate leap k c r.regs d)
    (valid : d.Valid leap) (rule : leap d.year = decide (leapFieldOf k d.year = 0))
    (within : d.day < monthLength (leap d.year) d.month) :
    ShowsDate leap k c (rtcDayTick r).regs (nextDay leap d) := by
  obtain ⟨readDay, readMonth, -, readLeap⟩ := shown.read valid
  have weekday := shown.nextWeekday valid
  have short := monthLength_le (leap d.year) d.month
  have tens := (dayTens _ (leapFieldOf_lt k d.year) (d.day / 10) (by omega)).2.2
    ((d.day + 1) / 10) (by omega)
  obtain ⟨-, -, d10, mo1, mo10, y1, y10⟩ := shown
  have next : nextDay leap d = { d with day := d.day + 1 } := if_pos within
  unfold rtcDayTick
  simp only [readDay, readMonth, readLeap, ← rule, rtcMlen_eq]
  rw [if_neg (Nat.not_lt_of_ge within)]
  rw [next] at weekday ⊢
  constructor <;>
    simp (disch := decide) only [setReg_regs, Function.update_self, Function.update_of_ne]
  · exact weekday
  · rw [d10, tens]
  · exact mo1
  · exact mo10
  · exact y1
  · exact y10

/-- A day passes at the end of a month. -/
theorem rtcDayTick_monthEnd {r : Rtc} (shown : ShowsDate leap k c r.regs d)
    (valid : d.Valid leap) (rule : leap d.year = decide (leapFieldOf k d.year = 0))
    (last : ¬ d.day < monthLength (leap d.year) d.month) (sameYear : d.month < 12) :
    ShowsDate leap k c (rtcDayTick r).regs (nextDay leap d) := by
  obtain ⟨readDay, readMonth, -, readLeap⟩ := shown.read valid
  have weekday := shown.nextWeekday valid
  have short := monthLength_le (leap d.year) d.month
  have dayLe := valid.dayLe
  have tens := (dayTens _ (leapFieldOf_lt k d.year) (d.day / 10) (by omega)).2.2 0 (by omega)
  have months := (monthTens (d.month / 10) (by omega)).2 ((d.month + 1) / 10) (by omega)
  obtain ⟨-, -, d10, mo1, mo10, y1, y10⟩ := shown
  have next : nextDay leap d = { d with month := d.month + 1, day := 1 } := by
    rw [nextDay, if_neg last, if_pos sameYear]
  unfold rtcDayTick
  simp only [readDay, readMonth, readLeap, ← rule, rtcMlen_eq]
  have full : monthLength (leap d.year) d.month < d.day + 1 := by omega
  have notDecember : ¬ 12 < d.month + 1 := by omega
  rw [if_pos full, if_neg notDecember]
  simp only [if_neg notDecember]
  rw [next] at weekday ⊢
  constructor <;>
    simp (disch := decide) only [setReg_regs, Function.update_self, Function.update_of_ne]
  · exact weekday
  · rw [d10]
    simpa [digit] using tens
  · rw [mo10, months]
  · exact y1
  · exact y10

/-- A day passes at the end of a year. -/
theorem rtcDayTick_yearEnd {r : Rtc} (shown : ShowsDate leap k c r.regs d)
    (valid : d.Valid leap) (rule : leap d.year = decide (leapFieldOf k d.year = 0))
    (last : ¬ d.day < monthLength (leap d.year) d.month) (december : ¬ d.month < 12) :
    ShowsDate leap k c (rtcDayTick r).regs (nextDay leap d) := by
  obtain ⟨readDay, readMonth, readYear, readLeap⟩ := shown.read valid
  have weekday := shown.nextWeekday valid
  have short := monthLength_le (leap d.year) d.month
  have dayLe := valid.dayLe
  have monthLe := valid.monthLe
  have down := leapDown _ (leapFieldOf_lt k d.year) (d.day / 10) (by omega)
  rw [← leapFieldOf_succ] at down
  have tens := (dayTens _ (leapFieldOf_lt k (d.year + 1)) (d.day / 10) (by omega)).2.2 0 (by omega)
  have months := (monthTens (d.month / 10) (by omega)).2 0 (by omega)
  obtain ⟨-, -, d10, mo1, mo10, y1, y10⟩ := shown
  have next : nextDay leap d = { year := d.year + 1, month := 1, day := 1 } := by
    rw [nextDay, if_neg last, if_neg december]
  unfold rtcDayTick rtcYearTick
  simp only [readDay, readMonth, readLeap, ← rule, rtcMlen_eq]
  have full : monthLength (leap d.year) d.month < d.day + 1 := by omega
  have isDecember : 12 < d.month + 1 := by omega
  rw [if_pos full]
  simp only [if_pos isDecember]
  rw [next] at weekday ⊢
  constructor <;>
    simp (disch := decide) only [setReg_regs, Function.update_self, Function.update_of_ne]
  · exact weekday
  · rw [d10]
    refine Eq.trans ?_ tens
    rw [← down]
    simp [digit]
  · rw [mo10]
    exact months
  · rw [readYear, Nat.mod_add_mod]
  · rw [readYear, Nat.mod_add_mod]

/-- A day passes. -/
theorem rtcDayTick_shows {r : Rtc} (shown : ShowsDate leap k c r.regs d)
    (valid : d.Valid leap) (rule : leap d.year = decide (leapFieldOf k d.year = 0)) :
    ShowsDate leap k c (rtcDayTick r).regs (nextDay leap d) := by
  by_cases within : d.day < monthLength (leap d.year) d.month
  · exact rtcDayTick_within shown valid rule within
  · by_cases sameYear : d.month < 12
    · exact rtcDayTick_monthEnd shown valid rule within sameYear
    · exact rtcDayTick_yearEnd shown valid rule within sameYear

end Date

/-! ## An hour passes -/

/-- What `rtc_hour_tick` makes of the two hour registers, after whether it carries
into the day. -/
def hourStep (h1 h10 : Byte) : Bool × Byte × Byte :=
  let h := (h10 &&& 0x03).toNat * 10 + (h1 &&& 0x0F).toNat + 1
  if h10 &&& 0x08 != 0 then
    let after := if 23 < h then 0 else h
    (decide (23 < h), digit (after % 10), 0x08 ||| digit (after / 10))
  else
    let pm := if h = 12 then (h10 &&& 0x04) ^^^ 0x04 else h10 &&& 0x04
    let after := if 12 < h then 1 else h
    (decide (h = 12 ∧ pm = 0), digit (after % 10), pm ||| digit (after / 10))

theorem rtcHourTick_eq (r : Rtc) :
    rtcHourTick r =
      ((if (hourStep (r.regs 0x4) (r.regs 0x5)).1 then rtcDayTick r else r).setReg 0x4
        (hourStep (r.regs 0x4) (r.regs 0x5)).2.1).setReg 0x5
          (hourStep (r.regs 0x4) (r.regs 0x5)).2.2 := by
  unfold rtcHourTick hourStep
  dsimp only
  by_cases mode : (r.regs 0x5 &&& 0x08 != 0) = true
  · simp only [mode, if_true, decide_eq_true_eq]
  · simp only [mode, Bool.false_eq_true, if_false, decide_eq_true_eq]

/-- The 24-hour count. -/
theorem hourStep_24 : ∀ hour, hour < 24 → ∀ bit, bit < 2 →
    hourStep (digit (hour % 10)) (digit (8 + 4 * bit + hour / 10)) =
      (decide (hour = 23), digit ((hour + 1) % 24 % 10), digit (8 + (hour + 1) % 24 / 10)) := by
  decide

/-- The 12-hour count: the half-day flips at 12, and 12 AM begins a day. -/
theorem hourStep_12 : ∀ hour, hour < 24 →
    hourStep (digit (((hour + 11) % 12 + 1) % 10))
        (digit (4 * (hour / 12) + ((hour + 11) % 12 + 1) / 10)) =
      (decide (hour = 23), digit ((((hour + 1) % 24 + 11) % 12 + 1) % 10),
        digit (4 * ((hour + 1) % 24 / 12) + (((hour + 1) % 24 + 11) % 12 + 1) / 10)) := by
  decide

/-- Both modes count the hours of the day. -/
theorem hourStep_shows {h1 h10 : Byte} {hour : Nat} (small : hour < 24)
    (shown : ShowsHour h1 h10 hour) :
    (hourStep h1 h10).1 = decide (hour = 23) ∧
      ShowsHour (hourStep h1 h10).2.1 (hourStep h1 h10).2.2 ((hour + 1) % 24) := by
  rcases shown with ⟨bit, bitSmall, rfl, rfl⟩ | ⟨rfl, rfl⟩
  · rw [hourStep_24 hour small bit bitSmall]
    exact ⟨rfl, Or.inl ⟨0, Nat.two_pos, rfl, rfl⟩⟩
  · rw [hourStep_12 hour small]
    exact ⟨rfl, Or.inr ⟨rfl, rfl⟩⟩

section Tick

variable {leap : Nat → Bool} {k c : Nat} {t : Moment}

/-- Only the registers from `W` to `Y10` show the date. -/
theorem ShowsDate.of_same {regs other : Reg → Byte} {d : Date}
    (shown : ShowsDate leap k c regs d) (same : ∀ i : Reg, 6 ≤ i.toNat → other i = regs i) :
    ShowsDate leap k c other d where
  w := (same 0x6 (by decide)).trans shown.w
  d1 := (same 0x7 (by decide)).trans shown.d1
  d10 := (same 0x8 (by decide)).trans shown.d10
  mo1 := (same 0x9 (by decide)).trans shown.mo1
  mo10 := (same 0xA (by decide)).trans shown.mo10
  y1 := (same 0xB (by decide)).trans shown.y1
  y10 := (same 0xC (by decide)).trans shown.y10

/-- Writing a register before the date. -/
theorem ShowsDate.setReg {r : Rtc} {d : Date} (shown : ShowsDate leap k c r.regs d) {i : Reg}
    (before : i.toNat < 6) (v : Byte) : ShowsDate leap k c (r.setReg i v).regs d := by
  refine shown.of_same fun j after => ?_
  have apart : j ≠ i := by
    rintro rfl
    omega
  rw [setReg_regs, Function.update_of_ne apart]

/-- The hour tick writes nothing before the hour. -/
theorem rtcHourTick_regs_of_lt {i : Reg} (before : i.toNat < 4) (r : Rtc) :
    (rtcHourTick r).regs i = r.regs i := by
  have notH1 : i ≠ 0x4 := by
    rintro rfl
    exact absurd before (by decide)
  have notH10 : i ≠ 0x5 := by
    rintro rfl
    exact absurd before (by decide)
  rw [rtcHourTick_eq, setReg_regs, Function.update_of_ne notH10, setReg_regs,
    Function.update_of_ne notH1]
  split_ifs
  · exact rtcDayTick_regs_of_lt (by omega) r
  · rfl

/-- An hour passes; the last of the day carries into the date. -/
theorem rtcHourTick_shows {r : Rtc} {d : Date} {hour : Nat} (small : hour < 24)
    (showsHour : ShowsHour (r.regs 0x4) (r.regs 0x5) hour)
    (showsDate : ShowsDate leap k c r.regs d) (valid : d.Valid leap)
    (rule : leap d.year = decide (leapFieldOf k d.year = 0)) :
    ShowsHour ((rtcHourTick r).regs 0x4) ((rtcHourTick r).regs 0x5) ((hour + 1) % 24) ∧
      ShowsDate leap k c (rtcHourTick r).regs (if hour < 23 then d else nextDay leap d) := by
  obtain ⟨carry, hours⟩ := hourStep_shows small showsHour
  rw [rtcHourTick_eq, carry]
  constructor
  · simp (disch := decide) only [setReg_regs, Function.update_self, Function.update_of_ne]
    exact hours
  · refine ShowsDate.setReg (ShowsDate.setReg ?_ (by decide) _) (by decide) _
    by_cases last : hour = 23
    · rw [if_pos (by simpa using last), if_neg (by omega)]
      exact rtcDayTick_shows showsDate valid rule
    · rw [if_neg (by simpa using last), if_pos (by omega)]
      exact showsDate

/-- `rtc_tick`, with the two digit chains written as counters to 59. -/
theorem rtcTick_eq {r : Rtc} (shown : Shows leap k c r.regs t) (valid : t.Valid leap) :
    ∃ r' : Rtc, r'.regs = r.regs ∧
      rtcTick r =
        if t.second < 59 then
          (r'.setReg 0x0 (digit ((t.second + 1) % 10))).setReg 0x1 (digit ((t.second + 1) / 10))
        else
          let r' := (r'.setReg 0x0 (digit 0)).setReg 0x1 (digit 0)
          if t.minute < 59 then
            (r'.setReg 0x2 (digit ((t.minute + 1) % 10))).setReg 0x3
              (digit ((t.minute + 1) / 10))
          else rtcHourTick ((r'.setReg 0x2 (digit 0)).setReg 0x3 (digit 0)) := by
  refine ⟨{ r with nTick := r.nTick + 1 }, rfl, ?_⟩
  obtain ⟨s1, s10, mi1, mi10, -, -⟩ := shown
  have seconds := rtcDigitTick_pair (i := 0x0) (j := 0x1) (by decide)
    (rtcDigitTick 2 9 (rtcDigitTick 3 5 rtcHourTick)) (r := { r with nTick := r.nTick + 1 })
    valid.second s1 s10
  have minutes := rtcDigitTick_pair (i := 0x2) (j := 0x3) (by decide) rtcHourTick
    (r := (({ r with nTick := r.nTick + 1 } : Rtc).setReg 0x0 (digit 0)).setReg 0x1 (digit 0))
    valid.minute
    (by simpa (disch := decide) only [setReg_regs, Function.update_of_ne] using mi1)
    (by simpa (disch := decide) only [setReg_regs, Function.update_of_ne] using mi10)
  unfold rtcTick
  rw [seconds, minutes]

/-- One tick is the next second. -/
theorem rtcTick_shows {r : Rtc} (shown : Shows leap k c r.regs t) (valid : t.Valid leap)
    (rule : leap t.date.year = decide (leapFieldOf k t.date.year = 0)) :
    Shows leap k c (rtcTick r).regs (nextSecond leap t) := by
  obtain ⟨r', same, tick⟩ := rtcTick_eq shown valid
  obtain ⟨s1, s10, mi1, mi10, hour, date⟩ := shown
  rw [← same] at s1 s10 mi1 mi10 hour date
  rw [tick, nextSecond]
  by_cases sameMinute : t.second < 59
  · rw [if_pos sameMinute, if_pos sameMinute]
    refine ⟨?_, ?_, ?_, ?_, ?_, (date.setReg (by decide) _).setReg (by decide) _⟩
    all_goals simp (disch := decide) only [setReg_regs, Function.update_self, Function.update_of_ne]
    · exact mi1
    · exact mi10
    · exact hour
  rw [if_neg sameMinute, if_neg sameMinute]
  dsimp only
  have date' : ShowsDate leap k c ((r'.setReg 0x0 (digit 0)).setReg 0x1 (digit 0)).regs t.date :=
    (date.setReg (by decide) _).setReg (by decide) _
  by_cases sameHour : t.minute < 59
  · rw [if_pos sameHour, if_pos sameHour]
    refine ⟨?_, ?_, ?_, ?_, ?_, (date'.setReg (by decide) _).setReg (by decide) _⟩
    all_goals simp (disch := decide) only [setReg_regs, Function.update_self, Function.update_of_ne]
    exact hour
  rw [if_neg sameHour, if_neg sameHour]
  have date'' : ShowsDate leap k c ((((r'.setReg 0x0 (digit 0)).setReg 0x1 (digit 0)).setReg 0x2
      (digit 0)).setReg 0x3 (digit 0)).regs t.date :=
    (date'.setReg (by decide) _).setReg (by decide) _
  have hour'' : ShowsHour
      (((((r'.setReg 0x0 (digit 0)).setReg 0x1 (digit 0)).setReg 0x2 (digit 0)).setReg 0x3
        (digit 0)).regs 0x4)
      (((((r'.setReg 0x0 (digit 0)).setReg 0x1 (digit 0)).setReg 0x2 (digit 0)).setReg 0x3
        (digit 0)).regs 0x5) t.hour := by
    simpa (disch := decide) only [setReg_regs, Function.update_of_ne] using hour
  obtain ⟨hours, dates⟩ := rtcHourTick_shows valid.hour hour'' date'' valid.date rule
  have sameDay : (if t.hour < 23 then
      ({ t with hour := t.hour + 1, minute := 0, second := 0 } : Moment)
      else { date := nextDay leap t.date, hour := 0, minute := 0, second := 0 }) =
      { date := if t.hour < 23 then t.date else nextDay leap t.date
        hour := (t.hour + 1) % 24, minute := 0, second := 0 } := by
    have small := valid.hour
    split_ifs with before
    · rw [Nat.mod_eq_of_lt (by omega)]
    · obtain last : t.hour = 23 := by omega
      rw [last]
  rw [sameDay]
  refine ⟨?_, ?_, ?_, ?_, hours, dates⟩
  all_goals
    rw [rtcHourTick_regs_of_lt (by decide)]
    simp (disch := decide) only [setReg_regs, Function.update_self, Function.update_of_ne]

/-- Every tick of a run is a second, as long as the leap-year rule marks the years
that go by. -/
theorem rtcTicks_show {r : Rtc} (shown : Shows leap k c r.regs t) (valid : t.Valid leap) (n : Nat)
    (rule : ∀ i, i < n → leap ((nextSecond leap)^[i] t).date.year =
      decide (leapFieldOf k ((nextSecond leap)^[i] t).date.year = 0)) :
    Shows leap k c (rtcTick^[n] r).regs ((nextSecond leap)^[n] t) := by
  induction n with
  | zero => exact shown
  | succ n inductionHypothesis =>
    have before := inductionHypothesis fun i less => rule i (Nat.lt_succ_of_lt less)
    rw [Function.iterate_succ_apply', Function.iterate_succ_apply']
    exact rtcTick_shows before (iterate_nextSecond valid n).1 (rule n (Nat.lt_succ_self n))

end Tick

/-! ## Legal registers show their moment -/

instance (h1 h10 : Byte) (hour : Nat) : Decidable (ShowsHour h1 h10 hour) :=
  instDecidableOr

theorem digit_of_toNat {v : Byte} {n : Nat} (value : v.toNat = n) : v = digit n := by
  rw [← value]
  exact BitVec.eq_of_toNat_eq (Nat.mod_eq_of_lt v.isLt).symm

/-- Hour registers with legal digits show their hour. -/
theorem legalHour : ∀ a, a < 10 → ∀ b, b < 16 →
    (if digit b &&& 0x08 != 0 then b % 4 * 10 + a < 24
      else 1 ≤ b % 4 * 10 + a ∧ b % 4 * 10 + a ≤ 12) →
    ShowsHour (digit a) (digit b)
      (if digit b &&& 0x08 != 0 then b % 4 * 10 + a
        else (b % 4 * 10 + a) % 12 + if digit b &&& 0x04 != 0 then 12 else 0) := by
  decide

/-- The hour registers of 24-hour mode. -/
theorem shownHour_24 : ∀ hour, hour < 24 → ∀ bit, bit < 2 →
    (digit (8 + 4 * bit + hour / 10) &&& 0x08 != 0) = true ∧
      (digit (8 + 4 * bit + hour / 10)).toNat % 4 * 10 + (digit (hour % 10)).toNat = hour := by
  decide

/-- The hour registers of 12-hour mode. -/
theorem shownHour_12 : ∀ hour, hour < 24 →
    (digit (4 * (hour / 12) + ((hour + 11) % 12 + 1) / 10) &&& 0x08 != 0) = false ∧
      (digit (4 * (hour / 12) + ((hour + 11) % 12 + 1) / 10)).toNat % 4 * 10 +
        (digit (((hour + 11) % 12 + 1) % 10)).toNat = (hour + 11) % 12 + 1 ∧
      (digit (4 * (hour / 12) + ((hour + 11) % 12 + 1) / 10) &&& 0x04 != 0) =
        decide (12 ≤ hour) := by
  decide

/-- Registers that show an hour of the day hold it. -/
theorem ShowsHour.read {r : Rtc} {hour : Nat} (small : hour < 24)
    (shown : ShowsHour (r.regs 0x4) (r.regs 0x5) hour) :
    r.hour = hour ∧ (r.regs 0x4).toNat ≤ 9 ∧ (r.regs 0x5).toNat ≤ 15 ∧
      if r.mode24 then r.hourDigits < 24 else 1 ≤ r.hourDigits ∧ r.hourDigits ≤ 12 := by
  rcases shown with ⟨bit, bitSmall, h1, h10⟩ | ⟨h1, h10⟩
  · obtain ⟨mode, digits⟩ := shownHour_24 hour small bit bitSmall
    rw [← h10] at mode digits
    rw [← h1] at digits
    have isMode : r.mode24 = true := mode
    have isDigits : r.hourDigits = hour := digits
    rw [Rtc.hour, isMode, isDigits, if_pos rfl, if_pos rfl, h1, h10, digit_toNat (by omega),
      digit_toNat (by omega)]
    exact ⟨rfl, by omega, by omega, small⟩
  · obtain ⟨mode, digits, pm⟩ := shownHour_12 hour small
    rw [← h10] at mode digits pm
    rw [← h1] at digits
    have isMode : r.mode24 = false := mode
    have isDigits : r.hourDigits = (hour + 11) % 12 + 1 := digits
    rw [Rtc.hour, isMode, isDigits, pm, h1, h10, digit_toNat (by omega), digit_toNat (by omega)]
    simp only [Bool.false_eq_true, if_false, decide_eq_true_eq]
    refine ⟨?_, by omega, by omega, by omega, by omega⟩
    split_ifs <;> omega

section Legal

variable {leap : Nat → Bool} {k c : Nat} {t : Moment}

/-- Registers that show a moment are legal, and hold it with its year in two
digits. -/
theorem Shows.read {r : Rtc} (shown : Shows leap k c r.regs t) (valid : t.Valid leap)
    (rule : leap t.date.year = decide (leapFieldOf k t.date.year = 0)) :
    r.moment = { t with date := { t.date with year := t.date.year % 100 } } ∧
      r.weekday = (dayNumber leap t.date + c) % 7 ∧
      r.leapField = leapFieldOf k t.date.year ∧ r.Legal := by
  obtain ⟨s1, s10, mi1, mi10, hour, w, d1, d10, mo1, mo10, y1, y10⟩ := shown
  obtain ⟨hourIs, h1Le, h10Le, hours⟩ := hour.read valid.hour
  obtain ⟨monthPos, monthLe, dayPos, dayLe⟩ := valid.date
  have short := monthLength_le (leap t.date.year) t.date.month
  have secondLt := valid.second
  have minuteLt := valid.minute
  have fieldLt := leapFieldOf_lt k t.date.year
  have moment : r.moment = { t with date := { t.date with year := t.date.year % 100 } } := by
    unfold Rtc.moment
    rw [hourIs, s1, s10, mi1, mi10, d1, d10, mo1, mo10, y1, y10, digit_toNat (by omega),
      digit_toNat (by omega), digit_toNat (by omega), digit_toNat (by omega),
      digit_toNat (by omega), digit_toNat (by omega), digit_toNat (by omega),
      digit_toNat (by omega), digit_toNat (by omega), digit_toNat (by omega)]
    congr 2 <;> omega
  have weekday : r.weekday = (dayNumber leap t.date + c) % 7 := by
    rw [Rtc.weekday, w, digit_toNat (by omega)]
  have field : r.leapField = leapFieldOf k t.date.year := by
    rw [Rtc.leapField, d10, digit_toNat (by omega)]
    omega
  refine ⟨moment, weekday, field, ?_⟩
  constructor
  case hours => exact hours
  case date =>
    rw [moment, field]
    exact valid.date.of_same rfl rfl rule.symm
  case h1 => exact h1Le
  case h10 => exact h10Le
  case w =>
    rw [weekday]
    omega
  all_goals
    simp only [s1, s10, mi1, mi10, d1, d10, mo1, mo10, y1, y10]
    rw [digit_toNat (by omega)]
    omega

/-- Counting down from the year in the registers, that year has the selection in
the registers. -/
theorem Rtc.Legal.leapStart {r : Rtc} (legal : r.Legal) :
    leapFieldOf r.leapStart r.moment.date.year = r.leapField := by
  have small : r.leapField < 4 := by
    have bound := legal.d10
    unfold Rtc.leapField
    omega
  unfold leapFieldOf Rtc.leapStart
  omega

/-- The leap years of a legal register file, at the year it holds. -/
theorem Rtc.Legal.leapYears {r : Rtc} (legal : r.Legal) :
    r.leapYears r.moment.date.year = decide (r.leapField = 0) := by
  rw [Rtc.leapYears, legal.leapStart]

/-- Legal registers show the hour they hold. -/
theorem Rtc.Legal.shownHour {r : Rtc} (legal : r.Legal) :
    ShowsHour (r.regs 0x4) (r.regs 0x5) r.hour := by
  have h1 := digit_of_toNat (v := r.regs 0x4) rfl
  have h10 := digit_of_toNat (v := r.regs 0x5) rfl
  have hours := legal.hours
  have legalHour := legalHour (r.regs 0x4).toNat (Nat.lt_succ_of_le legal.h1)
    (r.regs 0x5).toNat (Nat.lt_succ_of_le legal.h10)
  rw [← h1, ← h10] at legalHour
  exact legalHour hours

/-- A legal register file holds a moment of the calendar. -/
theorem Rtc.Legal.valid {r : Rtc} (legal : r.Legal) : r.moment.Valid r.leapYears where
  date := legal.date.of_same rfl rfl legal.leapYears
  hour := by
    have hours := legal.hours
    change r.hour < 24
    unfold Rtc.hour
    split_ifs at hours ⊢ <;> omega
  minute := by
    have low := legal.mi1
    have high := legal.mi10
    simp only [Rtc.moment]
    omega
  second := by
    have low := legal.s1
    have high := legal.s10
    simp only [Rtc.moment]
    omega

/-- The weekday of day 0 that fits the registers. -/
def Rtc.weekdayStart (r : Rtc) : Nat := r.weekday + 6 * dayNumber r.leapYears r.moment.date

/-- Legal registers show the moment they hold. -/
theorem Rtc.Legal.shown {r : Rtc} (legal : r.Legal) :
    Shows r.leapYears r.leapStart r.weekdayStart r.regs r.moment := by
  have legalW := legal.w
  have field := legal.leapStart
  have hour := legal.shownHour
  obtain ⟨s1, s10, mi1, mi10, -, -, -, -, d1, d10, mo1, mo10, y1, y10, date⟩ := legal
  refine ⟨?_, ?_, ?_, ?_, hour, ?_, ?_, ?_, ?_, ?_, ?_, ?_⟩
  case refine_5 =>
    refine digit_of_toNat ?_
    change r.weekday = _
    unfold Rtc.weekdayStart
    omega
  case refine_7 =>
    rw [field]
    refine digit_of_toNat ?_
    simp only [Rtc.moment, Rtc.leapField]
    omega
  all_goals
    refine digit_of_toNat ?_
    simp only [Rtc.moment]
    omega

end Legal

/-! ## The seeded registers -/

/-- The month table of `rtc_wday` counts the days before the month modulo 7, with
January and February put at the end of the year before. -/
theorem weekdayTable (leap : Bool) {m : Nat} (positive : 1 ≤ m) (atMost : m ≤ 12) :
    (daysBeforeMonth leap m + 6 + if m < 3 then 1 else 0) % 7 =
      (([0, 3, 2, 5, 0, 3, 5, 1, 4, 6, 2, 4].getD (m - 1) 0 : Nat) +
        if m < 3 then 0 else leap.toNat) % 7 := by
  revert m leap
  decide

/-- The sums of `rtc_wday` and of the calendar agree modulo 7: `fours`, `hundreds`
and `fourHundreds` count the leap days up to a year. -/
theorem weekdaySum (days : Nat)
    {year fours hundreds fourHundreds table month day start : Nat} (order : hundreds ≤ fours)
    (years : start + hundreds = 365 * year + fours + fourHundreds + days)
    (months : (month + days + 5) % 7 = table % 7) :
    (year + fours - hundreds + fourHundreds + table + day) % 7 = (start + month + day + 5) % 7 := by
  omega

/-- The quotients of the year before. -/
theorem quotient_pred {y n : Nat} (year : 1 ≤ y) (positive : 0 < n) :
    (y + (n - 1)) / n = (y - 1) / n + 1 := by
  rw [← Nat.add_div_right _ positive]
  exact congrArg (· / n) (by omega)

/-- `rtc_wday` is the weekday of the Gregorian calendar. -/
theorem rtcWday_eq {d : Date} (valid : d.Valid gregorianLeap) (year : 1 ≤ d.year) :
    rtcWday d.year d.month d.day = weekday d := by
  have table := weekdayTable (gregorianLeap d.year) valid.monthPos valid.monthLe
  have years := daysBeforeYear_gregorian d.year
  unfold rtcWday weekday dayNumber
  dsimp only
  by_cases early : d.month < 3
  · have four : (d.year + 3) / 4 = (d.year - 1) / 4 + 1 := quotient_pred (n := 4) year (by decide)
    have hundred : (d.year + 99) / 100 = (d.year - 1) / 100 + 1 :=
      quotient_pred (n := 100) year (by decide)
    have fourHundred : (d.year + 399) / 400 = (d.year - 1) / 400 + 1 :=
      quotient_pred (n := 400) year (by decide)
    have order : (d.year - 1) / 100 ≤ (d.year - 1) / 4 :=
      Nat.div_le_div_left (by decide) (by decide)
    rw [four, hundred, fourHundred] at years
    simp only [if_pos early] at table ⊢
    refine weekdaySum 366 order ?_ ?_
    · clear table
      generalize daysBeforeYear gregorianLeap d.year = start at years ⊢
      omega
    · generalize daysBeforeMonth (gregorianLeap d.year) d.month = month at table ⊢
      generalize List.getD _ _ _ = entry at table ⊢
      clear years
      omega
  · have order : d.year / 100 ≤ d.year / 4 := Nat.div_le_div_left (by decide) (by decide)
    have leaps := leapDays_through d.year
    have toNat : (gregorianLeap d.year).toNat = if gregorianLeap d.year then 1 else 0 := by
      cases gregorianLeap d.year <;> rfl
    simp only [if_neg early] at table ⊢
    refine weekdaySum (1 - (gregorianLeap d.year).toNat) order ?_ ?_
    · rw [toNat]
      -- The quotients are only summed.
      generalize daysBeforeYear gregorianLeap d.year = start at years ⊢
      generalize (d.year + 3) / 4 = four at years leaps
      generalize (d.year + 99) / 100 = hundred at years leaps
      generalize (d.year + 399) / 400 = fourHundred at years leaps
      generalize d.year / 4 = fours at leaps ⊢
      generalize d.year / 100 = hundreds at leaps ⊢
      generalize d.year / 400 = fourHundreds at leaps ⊢
      clear table order
      split_ifs at leaps ⊢ <;> omega
    · have atMost : (gregorianLeap d.year).toNat ≤ 1 := Bool.toNat_le _
      generalize daysBeforeMonth (gregorianLeap d.year) d.month = month at table ⊢
      generalize List.getD _ _ _ = entry at table ⊢
      generalize (gregorianLeap d.year).toNat = leap at table atMost ⊢
      clear years leaps
      omega

/-- The leap-year selection that `rtc_set_time` writes. -/
theorem seededTens : ∀ y, y < 4 → ∀ q, q < 4 →
    digit (((4 - y) % 4) * 4) ||| digit q = digit (4 * (3 * y % 4) + q) := by decide

/-- The hour tens that `rtc_set_time` writes. -/
theorem seededHour : ∀ q, q < 3 → 0x08 ||| digit q = digit (8 + 4 * 0 + q) := by decide

/-- `rtc_set_time` at a moment. -/
def rtcSeed (b : Bus) (insns : Quad) (t : Moment) : Rtc :=
  (rtcSetTime b insns t.date.year t.date.month t.date.day t.hour t.minute t.second).rtc

/-- The seeded registers show their moment, with the weekday of the Gregorian
calendar. -/
theorem rtcSeed_shows (b : Bus) (insns : Quad) {t : Moment} (valid : t.Valid gregorianLeap)
    (year : 1 ≤ t.date.year) : Shows gregorianLeap 0 5 (rtcSeed b insns t).regs t := by
  have weekday := rtcWday_eq valid.date year
  have short := monthLength_le (gregorianLeap t.date.year) t.date.month
  have dayLe := valid.date.dayLe
  have hourLt := valid.hour
  have tens := seededTens (t.date.year % 4) (by omega) (t.date.day / 10) (by omega)
  have hours := seededHour (t.hour / 10) (by omega)
  have field : 3 * (t.date.year % 4) % 4 = leapFieldOf 0 t.date.year := by
    unfold leapFieldOf
    omega
  rw [field] at tens
  exact ⟨rfl, rfl, rfl, rfl, Or.inl ⟨0, Nat.two_pos, rfl, hours⟩,
    congrArg digit weekday, rfl, tens, rfl, rfl, rfl, rfl⟩

/-- From 1901 to 2099 the leap years are those of the count-down. -/
theorem gregorianLeap_eq {y : Nat} (first : 1901 ≤ y) (last : y ≤ 2099) :
    gregorianLeap y = decide (leapFieldOf 0 y = 0) := by
  rw [Bool.eq_iff_iff, decide_eq_true_iff]
  simp only [gregorianLeap, leapFieldOf, Bool.and_eq_true, beq_iff_eq, Bool.or_eq_true,
    bne_iff_ne]
  omega

/-! ## The calendar -/

/-- The number of a day some seconds later. -/
theorem dayNumber_later {leap : Nat → Bool} {t u : Moment} (other : u.Valid leap) {n : Nat}
    (later : instant leap u = instant leap t + n) :
    dayNumber leap u.date = dayNumber leap t.date + (t.secondOfDay + n) / daySeconds := by
  rw [← instant_div other, later, instant, Nat.add_assoc, Nat.add_comm,
    Nat.add_mul_div_right _ _ (by decide), Nat.add_comm]

/-- Any number of ticks takes the registers of the clock on by as many seconds.
From any legal registers the calendar is the one whose leap years have selection
00, counting down; from a seeded date it is the Gregorian one, from 1901 until
the end of 2099. -/
theorem rtcTick_calendar :
    (∀ r : Rtc, r.Legal → ∀ n, (rtcTick^[n] r).Legal ∧
      ∃ t : Moment, t.Valid r.leapYears ∧
        instant r.leapYears t = instant r.leapYears r.moment + n ∧
        (rtcTick^[n] r).moment = { t with date := { t.date with year := t.date.year % 100 } } ∧
        (rtcTick^[n] r).leapField = leapFieldOf r.leapStart t.date.year ∧
        (rtcTick^[n] r).weekday =
          (r.weekday + (r.moment.secondOfDay + n) / daySeconds) % 7) ∧
    ∀ (b : Bus) (insns : Quad) (t : Moment), t.Valid gregorianLeap → 1901 ≤ t.date.year →
      ∀ (n : Nat) (u : Moment), u.Valid gregorianLeap → u.date.year ≤ 2099 →
        instant gregorianLeap u = instant gregorianLeap t + n →
        (rtcTick^[n] (rtcSeed b insns t)).Legal ∧
          (rtcTick^[n] (rtcSeed b insns t)).moment =
            { u with date := { u.date with year := u.date.year % 100 } } ∧
          (rtcTick^[n] (rtcSeed b insns t)).weekday = weekday u.date := by
  constructor
  · intro r legal n
    have shown := rtcTicks_show legal.shown legal.valid n fun i _ => rfl
    obtain ⟨valid, later⟩ := iterate_nextSecond legal.valid n
    obtain ⟨moment, weekday, field, legalAfter⟩ := shown.read valid rfl
    refine ⟨legalAfter, _, valid, later, moment, field, ?_⟩
    rw [weekday, dayNumber_later valid later, Rtc.weekdayStart]
    omega
  · intro b insns t valid first n u validAfter last later
    obtain ⟨reached, number⟩ := iterate_nextSecond valid n
    have isLast : (nextSecond gregorianLeap)^[n] t = u :=
      instant_injective reached validAfter (number.trans later.symm)
    -- The years that go by lie between the first and the last.
    have between : ∀ i, i ≤ n → gregorianLeap ((nextSecond gregorianLeap)^[i] t).date.year =
        decide (leapFieldOf 0 ((nextSecond gregorianLeap)^[i] t).date.year = 0) := by
      intro i upTo
      obtain ⟨passing, count⟩ := iterate_nextSecond valid i
      have notBefore := year_le_of_instant_le valid passing (by omega)
      have notAfter := year_le_of_instant_le passing validAfter (by omega)
      exact gregorianLeap_eq (first.trans notBefore) (notAfter.trans last)
    have seeded := rtcSeed_shows b insns valid (Nat.le_trans (by decide) first)
    have shown := rtcTicks_show seeded valid n fun i less => between i (Nat.le_of_lt less)
    have atLast := between n (Nat.le_refl n)
    rw [isLast] at shown atLast
    obtain ⟨moment, weekday, -, legal⟩ := shown.read validAfter atLast
    exact ⟨legal, moment, weekday⟩

/-- The last second of 1999. -/
def lastOf1999 : Moment := { date := ⟨1999, 12, 31⟩, hour := 23, minute := 59, second := 59 }

/-- One tick takes a chip seeded with the last second of 1999, a Friday, to the
first of 2000, a Saturday. -/
theorem rtcTick_calendar_2000 :
    (rtcTick^[1] (rtcSeed default 0 lastOf1999)).moment = ⟨⟨0, 1, 1⟩, 0, 0, 0⟩ ∧
      (rtcTick^[1] (rtcSeed default 0 lastOf1999)).weekday = 6 := by
  have valid : lastOf1999.Valid gregorianLeap :=
    ⟨⟨by decide, by decide, by decide, by decide⟩, by decide, by decide, by decide⟩
  obtain ⟨reached, number⟩ := iterate_nextSecond valid 1
  obtain ⟨-, moment, weekday⟩ := rtcTick_calendar.2 default 0 lastOf1999 valid (by decide) 1 _
    reached (by decide) number
  rw [← rtcWday_eq reached.date (by decide)] at weekday
  exact ⟨moment.trans (by decide), weekday.trans (by decide)⟩

end C900
