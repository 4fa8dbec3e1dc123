import C900.Cpu.Arithmetic
import C900.Cpu.Registers

/-!
# Comparison and condition codes

A comparison merges the flags of a subtraction into the flag and control word, and a
condition code is a formula over four of them. Together they decide the signed order,
the unsigned order and equality of the operands.
-/

namespace C900

/-! ## Merging -/

/-- A flag that the operation affects comes from the result. -/
theorem Cpu.applyFlags_affected (c : Cpu) (r : AluResult) {flag : Word}
    (affected : r.mask &&& flag = flag) : raised (c.applyFlags r).fcw flag = raised r.flags flag := by
  have merged : (c.applyFlags r).fcw &&& flag = r.flags &&& flag := by
    show ((c.fcw &&& ~~~r.mask) ||| (r.flags &&& r.mask)) &&& flag = _
    rw [← affected]
    ext i
    simp only [BitVec.getElem_and, BitVec.getElem_or, BitVec.getElem_not]
    cases r.mask[i] <;> simp
  rw [raised, merged, raised]

/-- A flag that it does not affect is kept. -/
theorem Cpu.applyFlags_kept (c : Cpu) (r : AluResult) {flag : Word}
    (unaffected : r.mask &&& flag = 0) : raised (c.applyFlags r).fcw flag = raised c.fcw flag := by
  have merged : (c.applyFlags r).fcw &&& flag = c.fcw &&& flag := by
    show ((c.fcw &&& ~~~r.mask) ||| (r.flags &&& r.mask)) &&& flag = _
    ext i bound
    have apart : (r.mask[i] && flag[i]) = false := by
      rw [← BitVec.getElem_and, unaffected]
      exact BitVec.getElem_zero (h := bound)
    simp only [BitVec.getElem_and, BitVec.getElem_or, BitVec.getElem_not]
    revert apart
    cases r.mask[i] <;> cases flag[i] <;> simp
  rw [raised, merged, raised]

/-! ## Comparison -/

section Comparison

variable {w : Width} {a b : Quad} {r : AluResult}
  (compared : Exact w r (w.unsigned a - w.unsigned b) (w.signed a - w.signed b))

include compared

/-- Z tells that the operands are equal. -/
theorem Exact.equal_iff : raised r.flags fZ = decide (w.unsigned a = w.unsigned b) := by
  have value := compared.value
  have boundA := w.unsigned_lt a
  have boundB := w.unsigned_lt b
  rw [Bool.eq_iff_iff, compared.zero, decide_eq_true_eq, ← BitVec.toNat_inj]
  cases w <;> simp only [Width.bits] at * <;> change r.value.toNat = 0 ↔ _ <;> omega

/-- C tells the unsigned order. -/
theorem Exact.below_iff : raised r.flags fC = decide (w.unsigned a < w.unsigned b) := by
  have boundA := w.unsigned_lt a
  rw [Bool.eq_iff_iff, compared.carry, decide_eq_true_eq]
  omega

/-- The value is the difference at the width. -/
theorem Exact.difference : w.signed r.value = (a.setWidth w.bits - b.setWidth w.bits).toInt := by
  have around : ((2 ^ w.bits - w.unsigned b + w.unsigned a : Nat) : Int) =
      w.unsigned a - w.unsigned b + (2 ^ w.bits : Nat) := by
    have bound := w.unsigned_lt b
    omega
  have value : r.value.toNat = (2 ^ w.bits - w.unsigned b + w.unsigned a) % 2 ^ w.bits := by
    rw [← Int.natCast_inj, compared.value, Int.natCast_emod, around]
    exact (Int.add_emod_right _ _).symm
  refine congrArg BitVec.toInt (BitVec.eq_of_toNat_eq ?_)
  rw [BitVec.toNat_setWidth, value, Nat.mod_mod, BitVec.toNat_sub]
  rfl

/-- S and V differ exactly if the first operand is less. -/
theorem Exact.less_iff :
    (raised r.flags fS != raised r.flags fPv) = decide (w.signed a < w.signed b) := by
  have order : (w.signed r.value < 0 ↔ HostInt.Fits w.bits (w.signed a - w.signed b)) ↔ _ :=
    compared.difference ▸ Adder.less_iff w.bits_pos _ _
  rw [Bool.eq_iff_iff, bne_iff_ne, ne_eq, Bool.eq_iff_iff, compared.sign, compared.overflow,
    decide_eq_true_eq, not_iff, not_iff_not]
  exact order

end Comparison

/-! ## Condition codes -/

/-- A condition code and its complement are never both true, and never both false. -/
theorem Cpu.condTrue_complement (c : Cpu) (cc : Reg) : c.condTrue (cc ^^^ 8) = !c.condTrue cc := by
  unfold condTrue
  generalize (c.fcw &&& fC != 0) = cf
  generalize (c.fcw &&& fZ != 0) = zf
  generalize (c.fcw &&& fS != 0) = sf
  generalize (c.fcw &&& fPv != 0) = vf
  revert cc cf zf sf vf
  decide

/-- After CP the signed, the unsigned and the equality codes decide the order of the
operands, whatever the flags were before. -/
theorem compare_conditions (c : Cpu) (a b : Quad) (cin : Bool) (w : Width) :
    let d := c.applyFlags (aluExec .cp a b cin w)
    (d.condTrue 0x1 = decide (w.signed a < w.signed b) ∧
        d.condTrue 0x2 = decide (w.signed a ≤ w.signed b) ∧
        d.condTrue 0x9 = decide (w.signed b ≤ w.signed a) ∧
        d.condTrue 0xA = decide (w.signed b < w.signed a)) ∧
      (d.condTrue 0x7 = decide (w.unsigned a < w.unsigned b) ∧
        d.condTrue 0x3 = decide (w.unsigned a ≤ w.unsigned b) ∧
        d.condTrue 0xF = decide (w.unsigned b ≤ w.unsigned a) ∧
        d.condTrue 0xB = decide (w.unsigned b < w.unsigned a)) ∧
      (d.condTrue 0x6 = decide (w.unsigned a = w.unsigned b) ∧
        d.condTrue 0xE = decide (w.unsigned a ≠ w.unsigned b)) ∧
      ∀ cc, d.condTrue (cc ^^^ 8) = !d.condTrue cc := by
  intro d
  have compared : Exact w (aluExec .cp a b cin w) (w.unsigned a - w.unsigned b)
      (w.signed a - w.signed b) := by
    have subtracted := doSub_exact a b false w
    rwa [Bool.toNat_false, Int.natCast_zero, Int.sub_zero, Int.sub_zero] at subtracted
  have merged : ∀ flag, addMask w &&& flag = flag →
      raised d.fcw flag = raised (aluExec .cp a b cin w).flags flag := fun flag affected =>
    c.applyFlags_affected _ affected
  have carry : raised d.fcw fC = decide (w.unsigned a < w.unsigned b) :=
    (merged fC (by cases w <;> decide)).trans compared.below_iff
  have zero : raised d.fcw fZ = decide (w.unsigned a = w.unsigned b) :=
    (merged fZ (by cases w <;> decide)).trans compared.equal_iff
  have less : (raised d.fcw fS != raised d.fcw fPv) = decide (w.signed a < w.signed b) := by
    rw [merged fS (by cases w <;> decide), merged fPv (by cases w <;> decide)]
    exact compared.less_iff
  have signedEqual : w.unsigned a = w.unsigned b ↔ w.signed a = w.signed b := by
    rw [Width.unsigned, Width.unsigned, Width.signed, Width.signed, BitVec.toNat_inj,
      BitVec.toInt_inj]
  have complement := d.condTrue_complement
  have lessOrEqual : d.condTrue 0x2 = decide (w.signed a ≤ w.signed b) := by
    show ((raised d.fcw fS != raised d.fcw fPv) || raised d.fcw fZ) = _
    rw [less, zero, ← Bool.decide_or, decide_eq_decide, signedEqual, Int.le_iff_lt_or_eq]
  have lowerOrSame : d.condTrue 0x3 = decide (w.unsigned a ≤ w.unsigned b) := by
    show (raised d.fcw fC || raised d.fcw fZ) = _
    rw [carry, zero, ← Bool.decide_or, decide_eq_decide, Nat.le_iff_lt_or_eq]
  refine ⟨⟨less, lessOrEqual, ?_, ?_⟩, ⟨carry, lowerOrSame, ?_, ?_⟩, ⟨zero, ?_⟩, complement⟩
  · refine (complement 0x1).trans ?_
    rw [show d.condTrue 0x1 = _ from less, ← decide_not, decide_eq_decide, Int.not_lt]
  · refine (complement 0x2).trans ?_
    rw [lessOrEqual, ← decide_not, decide_eq_decide, Int.not_le]
  · refine (complement 0x7).trans ?_
    rw [show d.condTrue 0x7 = _ from carry, ← decide_not, decide_eq_decide, Nat.not_lt]
  · refine (complement 0x3).trans ?_
    rw [lowerOrSame, ← decide_not, decide_eq_decide, Nat.not_le]
  · refine (complement 0x6).trans ?_
    rw [show d.condTrue 0x6 = _ from zero, ← decide_not]

end C900
