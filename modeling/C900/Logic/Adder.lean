import C900.Logic.HostInt

/-!
# Carries of a ripple adder

`BitVec.carry i x y c` is the carry into bit `i` of the sum `x + y + c`. The rules
relate the carries of an adder to integer sums and differences: the carry out is the
unsigned overflow, the two topmost carries differ exactly on signed overflow, and a
subtraction is the addition of the complement with both carries inverted.
-/

namespace Adder

open BitVec

variable {n : Nat}

/-- The signed value of a word, by its leading bit. -/
theorem toInt_cases (x : BitVec n) :
    (2 * x.toNat < 2 ^ n ∧ x.toInt = x.toNat) ∨
      (2 ^ n ≤ 2 * x.toNat ∧ x.toInt = x.toNat - (2 ^ n : Nat)) := by
  rw [BitVec.toInt_eq_toNat_cond]
  split
  · next small => exact Or.inl ⟨small, rfl⟩
  · next large => exact Or.inr ⟨Nat.le_of_not_lt large, rfl⟩

/-- The low bits decide a carry. -/
theorem carry_setWidth {m : Nat} {i : Nat} (small : i ≤ n) (x y : BitVec m) (c : Bool) :
    carry i (x.setWidth n) (y.setWidth n) c = carry i x y c := by
  have divides : 2 ^ i ∣ 2 ^ n := Nat.pow_dvd_pow 2 small
  simp only [carry, BitVec.toNat_setWidth, Nat.mod_mod_of_dvd _ divides]

/-- The carry into the leading bit, by the leading bits of the operands. -/
theorem low_cases (positive : 0 < n) (x : BitVec n) :
    (2 * x.toNat < 2 ^ n ∧ x.toNat % 2 ^ (n - 1) = x.toNat) ∨
      (2 ^ n ≤ 2 * x.toNat ∧ x.toNat % 2 ^ (n - 1) = x.toNat - 2 ^ (n - 1)) := by
  have double : 2 ^ n = 2 * 2 ^ (n - 1) := by
    rw [← Nat.pow_succ', Nat.succ_eq_add_one, Nat.sub_add_cancel positive]
  have bound := x.isLt
  rcases Nat.lt_or_ge (2 * x.toNat) (2 ^ n) with small | large
  · exact Or.inl ⟨small, Nat.mod_eq_of_lt (by omega)⟩
  · refine Or.inr ⟨large, ?_⟩
    rw [Nat.mod_eq_sub_mod (by omega)]
    exact Nat.mod_eq_of_lt (by omega)

/-- The signed sum is in range exactly when the carry out of the leading bit is the
carry into it. -/
theorem fits_add_iff (positive : 0 < n) (x y : BitVec n) (c : Bool) :
    HostInt.Fits n (x.toInt + y.toInt + c.toNat) ↔ carry n x y c = carry (n - 1) x y c := by
  have double : 2 ^ n = 2 * 2 ^ (n - 1) := by
    rw [← Nat.pow_succ', Nat.succ_eq_add_one, Nat.sub_add_cancel positive]
  have bit : c.toNat ≤ 1 := Bool.toNat_le c
  have cast : (2 : Int) ^ (n - 1) = (2 ^ (n - 1) : Nat) := by norm_cast
  have boundX := x.isLt
  have boundY := y.isLt
  rw [HostInt.Fits, cast, carry, carry, decide_eq_decide, Nat.mod_eq_of_lt boundX,
    Nat.mod_eq_of_lt boundY]
  rcases toInt_cases x with ⟨lowX, valueX⟩ | ⟨highX, valueX⟩ <;>
    rcases toInt_cases y with ⟨lowY, valueY⟩ | ⟨highY, valueY⟩ <;>
    rcases low_cases positive x with ⟨_, restX⟩ | ⟨_, restX⟩ <;>
    rcases low_cases positive y with ⟨_, restY⟩ | ⟨_, restY⟩ <;>
    rw [valueX, valueY, restX, restY] <;> omega

/-! ## Subtraction -/

/-- The low bits of a complement. -/
theorem not_mod {i : Nat} (small : i ≤ n) (y : BitVec n) :
    (~~~y).toNat % 2 ^ i = 2 ^ i - 1 - y.toNat % 2 ^ i := by
  have low := congrArg BitVec.toNat (BitVec.setWidth_not (x := y) small)
  rwa [BitVec.toNat_setWidth, BitVec.toNat_not (x := BitVec.setWidth i y),
    BitVec.toNat_setWidth] at low

/-- The carry of a subtraction tells that nothing is borrowed. -/
theorem carry_not {i : Nat} (small : i ≤ n) (x y : BitVec n) (c : Bool) :
    carry i x (~~~y) (!c) = decide (y.toNat % 2 ^ i + c.toNat ≤ x.toNat % 2 ^ i) := by
  have bound : y.toNat % 2 ^ i < 2 ^ i := Nat.mod_lt _ (Nat.two_pow_pos i)
  rw [carry, not_mod small, decide_eq_decide]
  cases c <;> simp only [Bool.not_true, Bool.not_false, Bool.toNat_true, Bool.toNat_false] <;> omega

/-- The signed value of a complement. -/
theorem toInt_not (positive : 0 < n) (y : BitVec n) : (~~~y).toInt = -1 - y.toInt := by
  have double : 2 ^ n = 2 * 2 ^ (n - 1) := by
    rw [← Nat.pow_succ', Nat.succ_eq_add_one, Nat.sub_add_cancel positive]
  have value : (~~~y).toNat = 2 ^ n - 1 - y.toNat := BitVec.toNat_not
  have bound := y.isLt
  rcases toInt_cases y with ⟨_, valueY⟩ | ⟨_, valueY⟩ <;>
    rcases toInt_cases (~~~y) with ⟨_, valueN⟩ | ⟨_, valueN⟩ <;>
    rw [valueY, valueN] <;> omega

/-- The signed difference is in range exactly when the two topmost carries agree. -/
theorem fits_sub_iff (positive : 0 < n) (x y : BitVec n) (c : Bool) :
    HostInt.Fits n (x.toInt - y.toInt - c.toNat) ↔
      carry n x (~~~y) (!c) = carry (n - 1) x (~~~y) (!c) := by
  have sum : x.toInt - y.toInt - c.toNat = x.toInt + (~~~y).toInt + (!c).toNat := by
    rw [toInt_not positive]
    cases c <;> simp only [Bool.not_true, Bool.not_false, Bool.toNat_true, Bool.toNat_false] <;>
      omega
  rw [sum, fits_add_iff positive]

/-- The first operand is less exactly if the sign of the difference and its overflow differ. -/
theorem less_iff (positive : 0 < n) (x y : BitVec n) :
    ((x - y).toInt < 0 ↔ HostInt.Fits n (x.toInt - y.toInt)) ↔ x.toInt < y.toInt := by
  have double : 2 ^ n = 2 * 2 ^ (n - 1) := by
    rw [← Nat.pow_succ', Nat.succ_eq_add_one, Nat.sub_add_cancel positive]
  have cast : (2 : Int) ^ (n - 1) = (2 ^ (n - 1) : Nat) := by norm_cast
  have boundX := x.isLt
  have boundY := y.isLt
  have difference : (x - y).toNat = if y.toNat ≤ x.toNat then x.toNat - y.toNat
      else 2 ^ n - y.toNat + x.toNat := by
    rw [BitVec.toNat_sub]
    split
    · next above =>
      rw [Nat.mod_eq_sub_mod (by omega), Nat.mod_eq_of_lt (by omega)]
      omega
    · next below => exact Nat.mod_eq_of_lt (by omega)
  rw [HostInt.Fits, cast]
  rcases toInt_cases x with ⟨_, valueX⟩ | ⟨_, valueX⟩ <;>
    rcases toInt_cases y with ⟨_, valueY⟩ | ⟨_, valueY⟩ <;>
    rcases toInt_cases (x - y) with ⟨_, valueD⟩ | ⟨_, valueD⟩ <;>
    rw [valueX, valueY, valueD] <;> split at difference <;> omega

end Adder
