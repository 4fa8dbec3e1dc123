import Mathlib.Logic.Basic
import Mathlib.Algebra.Group.Nat.Defs

/-!
# Counting in machine words

Arithmetic progressions modulo a power of two. A step with an inverse reaches zero
from everywhere within one round; an even step never does from an odd start.
-/

namespace Countdown

/-- A step `d` with `e * d = -1` takes every start to zero within `2 ^ n` steps. -/
theorem reaches_zero {n : Nat} {d e : BitVec n} (inverse : e * d = -1) (x : BitVec n) :
    ∃ k, 1 ≤ k ∧ k ≤ 2 ^ n ∧ x + BitVec.ofNat n k * d = 0 := by
  have cancel : x + x * e * d = 0 := by
    have one : x * 1 = x := BitVec.mul_one x
    rw [BitVec.mul_assoc, inverse, BitVec.mul_neg, one, BitVec.add_right_neg]
    rfl
  by_cases start : x * e = 0
  · refine ⟨2 ^ n, Nat.one_le_two_pow, Nat.le_refl _, ?_⟩
    have whole : BitVec.ofNat n (2 ^ n) = 0 := by
      apply BitVec.eq_of_toNat_eq
      rw [BitVec.toNat_ofNat, Nat.mod_self]
      rfl
    rw [start] at cancel
    rw [whole]
    exact cancel
  · refine ⟨(x * e).toNat, ?_, Nat.le_of_lt (x * e).isLt, ?_⟩
    · have positive : (x * e).toNat ≠ 0 := fun none => start (BitVec.eq_of_toNat_eq (by simp [none]))
      omega
    · rw [BitVec.ofNat_toNat, BitVec.setWidth_eq]
      exact cancel

/-- The closed form of a word sequence with a constant step. -/
theorem progression {n : Nat} {x : Nat → BitVec n} {d : BitVec n} {bound : Nat}
    (step : ∀ k < bound, x (k + 1) = x k + d) (k : Nat) (within : k ≤ bound) :
    x k = x 0 + BitVec.ofNat n k * d := by
  induction k with
  | zero => simp
  | succ k inductionHypothesis =>
      rw [step k within, inductionHypothesis (Nat.le_of_succ_le within), BitVec.ofNat_add,
        BitVec.add_mul, BitVec.add_assoc]
      simp

/-- Only the low byte is carried from one count to the next. -/
theorem lowByte_reaches_zero {x : Nat → BitVec 16} {s : Nat} (positive : 1 ≤ s) (small : s ≤ 2)
    {bound : Nat} (step : ∀ k < bound, x (k + 1) = (x k &&& 0xFF) - BitVec.ofNat 16 s) (j : Nat)
    (k : Nat) (start : (x k &&& 0xFF).toNat = j * s) (some : 1 ≤ j) (within : k + j ≤ bound) :
    x (k + j) = 0 := by
  induction j generalizing k with
  | zero => omega
  | succ j inductionHypothesis =>
      have next : (x (k + 1)).toNat = j * s := by
        have large : (x k &&& 0xFF).toNat = j * s + s := by rw [start, Nat.succ_mul]
        rw [step k (by omega), BitVec.toNat_sub, large, BitVec.toNat_ofNat]
        have byte : (x k &&& 0xFF).toNat < 65536 := (x k &&& 0xFF).isLt
        omega
      have byte : (x k &&& 0xFF).toNat ≤ 255 := by
        rw [BitVec.toNat_and]
        exact Nat.and_le_right
      rcases Nat.eq_zero_or_pos j with last | more
      · subst last
        apply BitVec.eq_of_toNat_eq
        simpa using next
      · have low : (x (k + 1) &&& 0xFF).toNat = j * s := by
          rw [BitVec.toNat_and, next]
          have below : j * s < 256 := by
            have : (j + 1) * s = j * s + s := Nat.succ_mul j s
            omega
          show j * s &&& 255 = j * s
          exact Nat.and_two_pow_sub_one_of_lt_two_pow (n := 8) below
        have rest := inductionHypothesis (k + 1) low more (by omega)
        rwa [Nat.add_right_comm] at rest

/-- A count of which only the low byte is carried runs out, if its step divides it. -/
theorem lowByte_runs_out {x : Nat → BitVec 16} {s : Nat} (positive : 1 ≤ s) (small : s ≤ 2)
    {bound : Nat} (room : 257 ≤ bound)
    (step : ∀ k < bound, x (k + 1) = (x k &&& 0xFF) - BitVec.ofNat 16 s)
    (divides : s ∣ (x 0 &&& 0xFF).toNat) : ∃ k, 1 ≤ k ∧ k ≤ bound ∧ x k = 0 := by
  obtain ⟨j, start⟩ := divides
  rw [Nat.mul_comm] at start
  have byte : (x 0 &&& 0xFF).toNat ≤ 255 := by
    rw [BitVec.toNat_and]
    exact Nat.and_le_right
  have short : j ≤ j * s := Nat.le_mul_of_pos_right j positive
  rcases Nat.eq_zero_or_pos j with none | some
  · -- The count passes zero and starts over below 2^16.
    have zero : x 0 &&& 0xFF = 0 := BitVec.eq_of_toNat_eq (by rw [start, none, Nat.zero_mul]; rfl)
    have first : x 1 = 0 - BitVec.ofNat 16 s := by rw [step 0 (by omega), zero]
    have again : (x 1 &&& 0xFF).toNat = (256 / s - 1) * s := by
      rw [first]
      rcases (by omega : s = 1 ∨ s = 2) with rfl | rfl <;> decide
    have many : 1 ≤ 256 / s - 1 ∧ 256 / s - 1 ≤ 255 := by
      rcases (by omega : s = 1 ∨ s = 2) with rfl | rfl <;> decide
    refine ⟨1 + (256 / s - 1), by omega, by omega, ?_⟩
    exact lowByte_reaches_zero positive small step _ 1 again many.1 (by omega)
  · refine ⟨0 + j, by omega, by omega, ?_⟩
    exact lowByte_reaches_zero positive small step j 0 start some (by omega)

end Countdown
