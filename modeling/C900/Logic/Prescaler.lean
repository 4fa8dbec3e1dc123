import Mathlib.Tactic.Common
import Mathlib.Tactic.SplitIfs

/-!
# A prescaler that is caught up late

A prescaler divides time into ticks of `rate` units. It is looked at now and then, and
counts the ticks that have passed only when it is; it can be stopped and released, and
keeps the part of a tick that had passed. `passed` is the time it has run, counted and
uncounted; no operation changes it, and only time does while the prescaler runs.
-/

/-- While the prescaler runs, `base` is when the present tick began; while it is
stopped, `held` is the part of a tick that had passed. -/
structure Prescaler where
  rate : Nat
  base : Nat
  held : Nat
  stopped : Bool
  ticks : Nat

namespace Prescaler

variable (p : Prescaler) (now : Nat)

/-- Count the whole ticks since `base`. -/
def advance : Prescaler :=
  if p.stopped then p
  else
    { p with
      base := p.base + (now - p.base) / p.rate * p.rate
      ticks := p.ticks + (now - p.base) / p.rate }

/-- Stop or release the prescaler. -/
def setStop (stop : Bool) : Prescaler :=
  if stop = p.stopped then p
  else if stop then { p.advance now with held := now - (p.advance now).base, stopped := true }
  else { p with base := now - p.held, stopped := false }

/-- The part of a tick that has passed. -/
def phase : Nat := if p.stopped then p.held else now - p.base

/-- The time that the prescaler has run. -/
def passed : Nat := p.ticks * p.rate + p.phase now

/-- The marks of the prescaler are not in the future, and what is held is less than a
tick. -/
structure Valid : Prop where
  base : p.stopped = false → p.base ≤ now
  held : p.stopped = true → p.held ≤ now ∧ p.held < p.rate

variable {p now}

theorem Valid.later (valid : p.Valid now) {later : Nat} (order : now ≤ later) : p.Valid later :=
  ⟨fun running => Nat.le_trans (valid.base running) order,
    fun stopped => ⟨Nat.le_trans (valid.held stopped).1 order, (valid.held stopped).2⟩⟩

/-- Time passes for a prescaler that runs, and for no other. -/
theorem Valid.passed_later (valid : p.Valid now) {later : Nat} (order : now ≤ later) :
    p.passed later = p.passed now + if p.stopped then 0 else later - now := by
  unfold passed phase
  cases stopped : p.stopped with
  | true => rfl
  | false =>
    have started := valid.base stopped
    simp only [Bool.false_eq_true, if_false]
    omega

/-- A prescaler with less than a tick to count has counted the whole ticks. -/
theorem ticks_eq_div (caught : p.phase now < p.rate) : p.ticks = p.passed now / p.rate := by
  have positive : 0 < p.rate := Nat.zero_lt_of_lt caught
  rw [passed, Nat.add_comm, Nat.add_mul_div_right _ _ positive, Nat.div_eq_of_lt caught,
    Nat.zero_add]

/-- The ticks counted are no more than the time that has passed. -/
theorem ticks_le_passed (p : Prescaler) (now : Nat) (positive : 0 < p.rate) :
    p.ticks ≤ p.passed now :=
  Nat.le_trans (Nat.le_mul_of_pos_right _ positive) (Nat.le_add_right ..)

@[simp] theorem advance_stopped : (p.advance now).stopped = p.stopped := by
  unfold advance
  split_ifs <;> rfl

@[simp] theorem advance_rate : (p.advance now).rate = p.rate := by
  unfold advance
  split_ifs <;> rfl

theorem advance_of_stopped (stopped : p.stopped = true) : p.advance now = p := if_pos stopped

/-- Catching up counts the whole ticks and changes nothing else. -/
theorem Valid.advance (valid : p.Valid now) (positive : 0 < p.rate) :
    (p.advance now).Valid now ∧ (p.advance now).passed now = p.passed now ∧
      (p.advance now).phase now < p.rate := by
  cases stopped : p.stopped with
  | true =>
    rw [advance_of_stopped stopped]
    refine ⟨valid, rfl, ?_⟩
    rw [phase, if_pos stopped]
    exact (valid.held stopped).2
  | false =>
    have running : ¬p.stopped = true := by rw [stopped]; exact Bool.false_ne_true
    have started := valid.base stopped
    have parts := Nat.div_add_mod (now - p.base) p.rate
    have less := Nat.mod_lt (now - p.base) positive
    rw [Nat.mul_comm] at parts
    unfold Prescaler.advance
    rw [if_neg running]
    refine ⟨⟨fun _ => ?_, fun absurdly => absurd absurdly running⟩, ?_, ?_⟩
    · dsimp only
      omega
    · unfold passed phase
      dsimp only
      rw [if_neg running, if_neg running, Nat.add_mul]
      omega
    · unfold phase
      dsimp only
      rw [if_neg running]
      omega

/-- Stopping and releasing keep the time that has passed. -/
theorem Valid.setStop (valid : p.Valid now) (caught : p.phase now < p.rate) (stop : Bool) :
    (p.setStop now stop).Valid now ∧ (p.setStop now stop).passed now = p.passed now ∧
      (p.setStop now stop).rate = p.rate ∧ (p.setStop now stop).stopped = stop ∧
      (p.setStop now stop).phase now < p.rate := by
  unfold Prescaler.setStop
  split_ifs with same stops
  · exact ⟨valid, rfl, rfl, same.symm, caught⟩
  · have running : p.stopped = false := by
      cases stopped : p.stopped with
      | true => exact absurd (stops.trans stopped.symm) same
      | false => rfl
    obtain ⟨after, passed, less⟩ := valid.advance (Nat.zero_lt_of_lt caught)
    have still : (p.advance now).stopped = false := advance_stopped.trans running
    have phase : (p.advance now).phase now = now - (p.advance now).base :=
      if_neg (by rw [still]; exact Bool.false_ne_true)
    rw [phase] at less
    refine ⟨⟨fun absurdly => Bool.noConfusion absurdly, fun _ => ⟨Nat.sub_le _ _, ?_⟩⟩, ?_,
      advance_rate, stops.symm, less⟩
    · exact Nat.lt_of_lt_of_eq less advance_rate.symm
    · rw [← passed, Prescaler.passed, Prescaler.passed, phase]
      rfl
  · have stopped : p.stopped = true := by
      cases running : p.stopped with
      | true => rfl
      | false => exact absurd ((Bool.not_eq_true _ ▸ stops).trans running.symm) same
    obtain ⟨past, less⟩ := valid.held stopped
    have back : now - (now - p.held) = p.held := Nat.sub_sub_self past
    refine ⟨⟨fun _ => Nat.sub_le _ _, fun absurdly => Bool.noConfusion absurdly⟩, ?_, rfl,
      (Bool.not_eq_true _ ▸ stops).symm, ?_⟩
    · rw [Prescaler.passed, Prescaler.passed, phase, phase, if_pos stopped]
      exact congrArg (p.ticks * p.rate + ·) back
    · exact Nat.lt_of_le_of_lt (Nat.le_of_eq back) less

/-- Begin a tick. -/
def reset (p : Prescaler) (now : Nat) : Prescaler := { p with base := now, held := 0 }

theorem reset_valid (p : Prescaler) (now : Nat) (positive : 0 < p.rate) : (p.reset now).Valid now :=
  ⟨fun _ => Nat.le_refl now, fun _ => ⟨Nat.zero_le now, positive⟩⟩

theorem reset_phase (p : Prescaler) (now : Nat) : (p.reset now).phase now = 0 := by
  unfold phase reset
  dsimp only
  split
  · rfl
  · exact Nat.sub_self now

/-- Moving STOP at the moment of a reset counts nothing. -/
theorem reset_setStop (p : Prescaler) (now : Nat) (positive : 0 < p.rate) (stop : Bool) :
    ((p.reset now).setStop now stop).Valid now ∧
      ((p.reset now).setStop now stop).ticks = p.ticks ∧
      ((p.reset now).setStop now stop).phase now = 0 ∧
      ((p.reset now).setStop now stop).rate = p.rate ∧
      ((p.reset now).setStop now stop).stopped = stop := by
  have begun := p.reset_phase now
  have caught : (p.reset now).phase now < (p.reset now).rate := by
    rw [begun]
    exact positive
  obtain ⟨valid, passed, rate, stopped, less⟩ := (p.reset_valid now positive).setStop caught stop
  have whole : (p.reset now).passed now = p.ticks * p.rate := by
    rw [Prescaler.passed, begun]
    rfl
  have ticks : ((p.reset now).setStop now stop).ticks = p.ticks := by
    rw [ticks_eq_div (Nat.lt_of_lt_of_eq less rate.symm), passed, whole, rate]
    exact Nat.mul_div_cancel _ positive
  refine ⟨valid, ticks, ?_, rate, stopped⟩
  have sum := passed.trans whole
  rw [Prescaler.passed, ticks, rate] at sum
  exact Nat.add_eq_left.mp sum

end Prescaler
