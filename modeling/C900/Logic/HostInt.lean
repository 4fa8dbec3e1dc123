import Mathlib.Tactic.Common
import Mathlib.Algebra.Group.Nat.Defs
import Mathlib.Algebra.Group.Int.Defs

/-!
# Signed integers of the host

A signed type of so many bits holds the integers from `-2 ^ (bits - 1)` on and below
`2 ^ (bits - 1)`. A sum that leaves the type comes back into it, and a division is defined only
where its quotient is in the type.
-/

namespace HostInt

/-- The type of so many bits holds the value. -/
def Fits (bits : Nat) (value : Int) : Prop :=
  -2 ^ (bits - 1) ≤ value ∧ value < 2 ^ (bits - 1)

instance (bits : Nat) (value : Int) : Decidable (Fits bits value) :=
  inferInstanceAs (Decidable (_ ∧ _))

/-- What the type keeps of an integer. -/
def wrap (bits : Nat) (value : Int) : Int := (BitVec.ofInt bits value).toInt

/-- The least value of the type. -/
def least (bits : Nat) : Int := -2 ^ (bits - 1)

/-- The value of a word fits the type of its width. -/
theorem fits_toInt {bits : Nat} (word : BitVec bits) : Fits bits word.toInt :=
  ⟨BitVec.le_toInt word, BitVec.toInt_lt⟩

/-- A value that fits is kept. -/
theorem wrap_eq {bits : Nat} {value : Int} (positive : 0 < bits) (fits : Fits bits value) :
    wrap bits value = value := by
  obtain ⟨lower, upper⟩ := fits
  have double : (2 : Int) ^ bits = 2 * 2 ^ (bits - 1) := by
    rw [← Int.pow_succ', Nat.sub_add_cancel positive]
  rw [wrap, BitVec.toInt_ofInt]
  refine Int.bmod_eq_of_le_mul_two ?_ ?_ <;> push_cast <;> omega

/-- What a C `int` of 32 bits keeps of a sum. -/
def cInt (sum : Int) : Int := wrap 32 sum

/-- A sum within the range of an `int` is kept. -/
theorem cInt_eq {sum : Int} (lower : -2 ^ 31 ≤ sum) (upper : sum < 2 ^ 31) : cInt sum = sum :=
  wrap_eq (by decide) ⟨lower, upper⟩

/-- So is a sum of sizes below its end. -/
theorem cInt_of_nonneg (sum : Int) (size : 0 ≤ sum) (upper : sum < 2 ^ 31) : cInt sum = sum :=
  cInt_eq (by omega) upper

/-! ## Division -/

/-- The host division of two values of the type, which truncates, is defined. -/
def Divides (bits : Nat) (dividend divisor : Int) : Prop :=
  divisor ≠ 0 ∧ Fits bits (dividend.tdiv divisor)

/-- Dividing by anything but 1, -1 and 0 at least halves the magnitude. -/
theorem natAbs_tdiv_le_half (dividend : Int) {divisor : Int} (large : 2 ≤ divisor.natAbs) :
    (dividend.tdiv divisor).natAbs ≤ dividend.natAbs / 2 := by
  rw [Int.natAbs_tdiv]
  exact Nat.div_le_div_left large (by decide)

/-- A division of a value of the type is undefined by zero, and for the least value by -1. -/
theorem divides_iff {bits : Nat} {dividend divisor : Int} (fits : Fits bits dividend) :
    Divides bits dividend divisor ↔
      divisor ≠ 0 ∧ ¬(dividend = least bits ∧ divisor = -1) := by
  obtain ⟨lower, upper⟩ := fits
  have room : (0 : Int) < 2 ^ (bits - 1) := Int.pow_pos (by decide)
  refine and_congr_right fun some => ?_
  by_cases negated : divisor = -1
  · have quotient : dividend.tdiv (-1) = -dividend := by rw [Int.tdiv_neg, Int.tdiv_one]
    rw [negated, Fits, quotient, least]
    omega
  by_cases unit : divisor = 1
  · rw [unit, Int.tdiv_one, Fits]
    omega
  have half : (dividend.tdiv divisor).natAbs ≤ dividend.natAbs / 2 :=
    natAbs_tdiv_le_half dividend (by omega)
  rw [Fits]
  omega

/-- A quotient and a remainder of a division that truncates: the remainder is smaller than the
divisor and has the sign of the dividend. -/
structure IsQuotient (dividend divisor quotient remainder : Int) : Prop where
  equation : dividend = quotient * divisor + remainder
  small : remainder.natAbs < divisor.natAbs
  sign : remainder = 0 ∨ remainder.sign = dividend.sign

theorem isQuotient_tdiv (dividend : Int) {divisor : Int} (nonzero : divisor ≠ 0) :
    IsQuotient dividend divisor (dividend.tdiv divisor) (dividend.tmod divisor) := by
  refine ⟨(Int.tdiv_mul_add_tmod dividend divisor).symm, ?_, ?_⟩
  · rw [Int.natAbs_tmod]
    exact Nat.mod_lt _ (Int.natAbs_pos.mpr nonzero)
  · rcases Int.lt_trichotomy dividend 0 with negative | zero | positive
    · have below : 0 ≤ (-dividend).tmod divisor := Int.tmod_nonneg divisor (by omega)
      rw [Int.neg_tmod] at below
      rw [Int.sign_eq_neg_one_of_neg negative]
      rcases Int.lt_or_eq_of_le (by omega : dividend.tmod divisor ≤ 0) with less | equal
      · exact Or.inr (Int.sign_eq_neg_one_of_neg less)
      · exact Or.inl equal
    · exact Or.inl (by rw [zero, Int.zero_tmod])
    · have above : 0 ≤ dividend.tmod divisor := Int.tmod_nonneg divisor (Int.le_of_lt positive)
      rw [Int.sign_eq_one_of_pos positive]
      rcases Int.lt_or_eq_of_le above with more | equal
      · exact Or.inr (Int.sign_eq_one_of_pos more)
      · exact Or.inl equal.symm

/-- The remainder fits the type of the divisor. -/
theorem fits_tmod {bits : Nat} (dividend : Int) {divisor : Int} (fits : Fits bits divisor)
    (nonzero : divisor ≠ 0) : Fits bits (dividend.tmod divisor) := by
  obtain ⟨lower, upper⟩ := fits
  have small := (isQuotient_tdiv dividend nonzero).small
  constructor <;> omega

/-- The word of a value that fits. -/
theorem emod_of_fits {bits : Nat} {value : Int} (fits : Fits bits value) :
    value % (2 ^ bits : Nat) = if value < 0 then value + (2 ^ bits : Nat) else value := by
  obtain ⟨lower, upper⟩ := fits
  have room : (2 : Int) ^ (bits - 1) ≤ (2 ^ bits : Nat) := by
    exact_mod_cast Nat.pow_le_pow_right (by decide : 0 < 2) (Nat.sub_le bits 1)
  split
  · rw [← Int.add_emod_right]
    exact Int.emod_eq_of_lt (by omega) (by omega)
  · exact Int.emod_eq_of_lt (by omega) (by omega)

/-! ## One bit more -/

theorem fits_succ {bits : Nat} {value : Int} (fits : Fits bits value) : Fits (bits + 1) value := by
  obtain ⟨lower, upper⟩ := fits
  have grows : (2 : Int) ^ (bits - 1) ≤ 2 ^ bits := by
    exact_mod_cast Nat.pow_le_pow_right (by decide : 0 < 2) (Nat.sub_le bits 1)
  rw [Fits, Nat.add_sub_cancel]
  omega

/-- An integer that fits one bit more is told by the word and its sign. -/
theorem toInt_cons_ofInt {bits : Nat} {value : Int} (fits : Fits (bits + 1) value) :
    (BitVec.cons (decide (value < 0)) (BitVec.ofInt bits value)).toInt = value := by
  obtain ⟨lower, upper⟩ := fits
  rw [Nat.add_sub_cancel] at lower upper
  have room : (0 : Int) < 2 ^ bits := Int.pow_pos (by decide)
  have low : ((BitVec.ofInt bits value).toNat : Int) = value % 2 ^ bits := by
    rw [BitVec.toNat_ofInt]
    push_cast
    exact Int.toNat_of_nonneg (Int.emod_nonneg _ (Int.ne_of_gt room))
  rw [BitVec.toInt_eq_msb_cond, BitVec.msb_cons, BitVec.toNat_cons', Nat.shiftLeft_eq]
  by_cases negative : value < 0
  · have wrapped : value % 2 ^ bits = value + 2 ^ bits := by
      rw [← Int.add_emod_right]
      exact Int.emod_eq_of_lt (by omega) (by omega)
    rw [decide_eq_true negative, if_pos rfl, Bool.toNat_true, Nat.one_mul, Int.natCast_add, low,
      wrapped]
    push_cast
    rw [Int.pow_succ]
    omega
  · have kept : value % 2 ^ bits = value := Int.emod_eq_of_lt (by omega) upper
    rw [decide_eq_false negative, if_neg Bool.false_ne_true, Bool.toNat_false, Nat.zero_mul,
      Nat.zero_add, low, kept]

end HostInt
