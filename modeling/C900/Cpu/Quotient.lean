import C900.Cpu.Address
import C900.Cpu.Conditions
import C900.Cpu.Divide

/-!
# The result of a division

`exec_div` stores quotient and remainder while the quotient fits the guest word or one bit
more, and leaves the registers alone otherwise. `execDiv_exact` states what the registers and
the flags tell about the quotient in each case.
-/

namespace C900

open HostInt

/-! ## The flags -/

/-- The flags of a division, merged into the flag and control word. -/
theorem Cpu.mergeFlags_raised (c : Cpu) (cf z s v : Bool) :
    let x := c.mergeFlags (flagIf cf fC ||| flagIf z fZ ||| flagIf s fS ||| flagIf v fPv) mulDivMask
    raised x.fcw fC = cf ∧ raised x.fcw fZ = z ∧ raised x.fcw fS = s ∧ raised x.fcw fPv = v := by
  let r : AluResult := ⟨0, flagIf cf fC ||| flagIf z fZ ||| flagIf s fS ||| flagIf v fPv, mulDivMask⟩
  have told : ∀ cf z s v : Bool,
      let flags := flagIf cf fC ||| flagIf z fZ ||| flagIf s fS ||| flagIf v fPv
      raised flags fC = cf ∧ raised flags fZ = z ∧ raised flags fS = s ∧ raised flags fPv = v := by
    decide
  obtain ⟨carry, zero, sign, overflow⟩ := told cf z s v
  have merged : ∀ flag, mulDivMask &&& flag = flag →
      raised (c.applyFlags r).fcw flag = raised r.flags flag := fun _ affected =>
    c.applyFlags_affected r affected
  exact ⟨(merged fC (by decide)).trans carry, (merged fZ (by decide)).trans zero,
    (merged fS (by decide)).trans sign, (merged fPv (by decide)).trans overflow⟩

/-! ## The cases -/

/-- What a division leaves: the registers, and C, Z, S and V. -/
structure Cpu.Leaves (c : Cpu) (R : Reg → Word) (cf z s v : Bool) : Prop where
  registers : c.R = R
  carry : raised c.fcw fC = cf
  zero : raised c.fcw fZ = z
  sign : raised c.fcw fS = s
  overflow : raised c.fcw fPv = v

section Cases

variable (c : Cpu) {bits : Nat} {dividend divisor half : Int} {store : Int → Int → Cpu → Cpu}
  {cut : Int → Bool}

/-- The flag words of `divideBy` in one form. -/
theorem Cpu.leaves (d : Cpu) {flags : Word} (cf z s v : Bool)
    (form : flags = flagIf cf fC ||| flagIf z fZ ||| flagIf s fS ||| flagIf v fPv) :
    (d.mergeFlags flags mulDivMask).Leaves d.R cf z s v := by
  subst form
  obtain ⟨carry, zero, sign, overflow⟩ := d.mergeFlags_raised cf z s v
  exact ⟨rfl, carry, zero, sign, overflow⟩

theorem Cpu.divideBy_zero :
    (c.divideBy dividend 0 half store cut).Leaves c.R false true false true := by
  rw [divideBy, if_pos rfl]
  exact c.leaves _ _ _ _ (by decide)

variable (nonzero : divisor ≠ 0) (range : half = 2 ^ (bits - 1)) (positive : 0 < bits)

include nonzero range

theorem Cpu.divideBy_fits (fits : Fits bits (dividend.tdiv divisor)) :
    let q := dividend.tdiv divisor
    (c.divideBy dividend divisor half store cut).Leaves (store q (dividend.tmod divisor) c).R
      false (q == 0) (q < 0) false := by
  intro q
  rw [Fits, ← range] at fits
  rw [divideBy, if_neg nonzero, if_pos fits]
  refine Cpu.leaves _ _ _ _ _ ?_
  show flagIf (q == 0) fZ ||| flagIf (q < 0) fS = _
  cases q == 0 <;> cases decide (q < 0) <;> decide

include positive

theorem Cpu.divideBy_wide (large : ¬Fits bits (dividend.tdiv divisor))
    (fits : Fits (bits + 1) (dividend.tdiv divisor)) :
    let q := dividend.tdiv divisor
    (c.divideBy dividend divisor half store cut).Leaves (store q (dividend.tmod divisor) c).R
      true (cut q) (q < 0) true := by
  intro q
  have double : 2 * half = 2 ^ bits := by
    rw [range, ← Int.pow_succ', Nat.sub_add_cancel positive]
  rw [Fits, ← range] at large
  rw [Fits, Nat.add_sub_cancel, ← double] at fits
  have near : ¬(q < -2 * half ∨ 2 * half ≤ q) := by omega
  rw [divideBy, if_neg nonzero, if_neg large, if_neg near]
  refine Cpu.leaves _ _ _ _ _ ?_
  show fC ||| fPv ||| flagIf (q < 0) fS ||| flagIf (cut q) fZ = _
  cases cut q <;> cases decide (q < 0) <;> decide

theorem Cpu.divideBy_far (far : ¬Fits (bits + 1) (dividend.tdiv divisor)) :
    (c.divideBy dividend divisor half store cut).Leaves c.R false false false true := by
  have double : 2 * half = 2 ^ bits := by
    rw [range, ← Int.pow_succ', Nat.sub_add_cancel positive]
  have halfPositive : 0 < half := by
    rw [range]
    exact Int.pow_pos (by decide)
  rw [Fits, Nat.add_sub_cancel, ← double] at far
  have large : ¬(-half ≤ dividend.tdiv divisor ∧ dividend.tdiv divisor < half) := by omega
  have out : dividend.tdiv divisor < -2 * half ∨ 2 * half ≤ dividend.tdiv divisor := by omega
  rw [divideBy, if_neg nonzero, if_neg large, if_pos out]
  exact Cpu.leaves _ _ _ _ _ (by decide)

end Cases

/-! ## The stored words -/

/-- What the flags and the stored words tell about a division: `before` are the registers
before it. With C and V both set the quotient has one bit more, which S holds, but Z is that of
the stored word. -/
structure QuotientExact {bits : Nat} (quotient remainder : BitVec bits) (dividend divisor : Int)
    (before : Reg → Word) (c : Cpu) : Prop where
  byZero : divisor = 0 → raised c.fcw fPv = true ∧ raised c.fcw fZ = true ∧ c.R = before
  fits : divisor ≠ 0 → raised c.fcw fPv = false →
    IsQuotient dividend divisor quotient.toInt remainder.toInt ∧
      raised c.fcw fS = decide (quotient.toInt < 0) ∧
      raised c.fcw fZ = decide (quotient.toInt = 0)
  wide : divisor ≠ 0 → raised c.fcw fC = true → raised c.fcw fPv = true →
    let q := (BitVec.cons (raised c.fcw fS) quotient).toInt
    IsQuotient dividend divisor q remainder.toInt ∧ raised c.fcw fS = decide (q < 0) ∧
      raised c.fcw fZ = decide (quotient = 0)
  far : divisor ≠ 0 → (raised c.fcw fC = false ∧ raised c.fcw fPv = true ↔
    ¬Fits (bits + 1) (dividend.tdiv divisor))
  kept : divisor ≠ 0 → raised c.fcw fC = false → raised c.fcw fPv = true → c.R = before

section Words

variable {bits : Nat} (positive : 0 < bits) (quotient remainder : (Reg → Word) → BitVec bits)
  {store : Int → Int → Cpu → Cpu}
  (stores : ∀ q r c, quotient (store q r c).R = BitVec.ofInt bits q ∧
    remainder (store q r c).R = BitVec.ofInt bits r)

include positive stores

/-- A division that stores its results in two words. -/
theorem Cpu.divideBy_exact (c : Cpu) {dividend divisor : Int} (fits : Fits bits divisor) :
    let x := c.divideBy dividend divisor (2 ^ (bits - 1)) store (fun q => BitVec.ofInt bits q == 0)
    QuotientExact (quotient x.R) (remainder x.R) dividend divisor c.R x := by
  intro x
  by_cases nonzero : divisor = 0
  · subst nonzero
    have left : x.Leaves c.R false true false true := c.divideBy_zero
    exact ⟨fun _ => ⟨left.overflow, left.zero, left.registers⟩, fun other => absurd rfl other,
      fun other => absurd rfl other, fun other => absurd rfl other, fun other => absurd rfl other⟩
  let q := dividend.tdiv divisor
  have divides := isQuotient_tdiv dividend nonzero
  have small : (BitVec.ofInt bits (dividend.tmod divisor)).toInt = dividend.tmod divisor :=
    wrap_eq positive (fits_tmod dividend fits nonzero)
  obtain ⟨low, rest⟩ := stores q (dividend.tmod divisor) c
  by_cases range : Fits bits q
  · have left : x.Leaves (store q (dividend.tmod divisor) c).R false (q == 0) (q < 0) false :=
      c.divideBy_fits nonzero rfl range
    have value : (BitVec.ofInt bits q).toInt = q := wrap_eq positive range
    rw [left.registers, low, rest]
    refine ⟨fun zero => absurd zero nonzero, fun _ _ => ?_, fun _ carry => ?_, fun _ => ?_,
      fun _ _ overflow => ?_⟩
    · rw [value, small]
      exact ⟨divides, left.sign, left.zero⟩
    · exact absurd (left.carry.symm.trans carry) Bool.false_ne_true
    · refine iff_of_false (fun alone => ?_) (fun far => far ?_)
      · exact absurd (left.overflow.symm.trans alone.2) Bool.false_ne_true
      · exact fits_succ range
    · exact absurd (left.overflow.symm.trans overflow) Bool.false_ne_true
  by_cases more : Fits (bits + 1) q
  · have left : x.Leaves (store q (dividend.tmod divisor) c).R true (BitVec.ofInt bits q == 0)
        (q < 0) true := c.divideBy_wide nonzero rfl positive range more
    rw [left.registers, low, rest]
    refine ⟨fun zero => absurd zero nonzero, fun _ clear => ?_, fun _ _ _ => ?_, fun _ => ?_,
      fun _ carry => ?_⟩
    · exact absurd (clear.symm.trans left.overflow) Bool.false_ne_true
    · rw [left.sign, toInt_cons_ofInt more, small]
      exact ⟨divides, rfl, left.zero⟩
    · refine iff_of_false (fun alone => ?_) (fun far => far more)
      exact absurd (alone.1.symm.trans left.carry) Bool.false_ne_true
    · exact absurd (carry.symm.trans left.carry) Bool.false_ne_true
  · have left : x.Leaves c.R false false false true := c.divideBy_far nonzero rfl positive more
    refine ⟨fun zero => absurd zero nonzero, fun _ clear => ?_, fun _ carry => ?_, fun _ => ?_,
      fun _ _ _ => left.registers⟩
    · exact absurd (clear.symm.trans left.overflow) Bool.false_ne_true
    · exact absurd (left.carry.symm.trans carry) Bool.false_ne_true
    · exact iff_of_true ⟨left.carry, left.overflow⟩ more

end Words

/-! ## The two forms -/

/-- DIV: the quotient goes to the odd register of the pair, the remainder to the even one. -/
theorem Cpu.divide_word (c : Cpu) {w : CtrlWord} (word : w.width = .word) (divisor : Quad) :
    let dst := pairReg (nib3 (c.opcode 0))
    let x := c.divide w divisor
    QuotientExact (x.rw (dst + 1)) (x.rw dst) (c.rl dst).toInt (divisor.setWidth 16).toInt c.R x := by
  intro dst x
  have form : x = c.divideBy (c.rl dst).toInt (divisor.setWidth 16).toInt (2 ^ (16 - 1))
      (fun q r c => (c.ww (dst + 1) (BitVec.ofInt 16 q)).ww dst (BitVec.ofInt 16 r))
      (fun q => BitVec.ofInt 16 q == 0) := by
    show c.divide w divisor = _
    rw [divide, if_pos word]
    rfl
  have apart : ∀ r : Reg, pairReg r + 1 ≠ pairReg r := by decide
  rw [form]
  refine divideBy_exact (by decide) (fun R => R (dst + 1)) (fun R => R dst) (fun q r c => ?_) c
    (fits_toInt _)
  exact ⟨(setR_R_of_ne _ (apart _) _).trans (setR_R _ _ _), setR_R _ _ _⟩

/-- DIVL: the quotient goes to the low half of the quadruple, the remainder to the high one. -/
theorem Cpu.divide_long (c : Cpu) {w : CtrlWord} (long : w.width ≠ .word) (divisor : Quad) :
    let dst := quadReg (nib3 (c.opcode 0))
    let x := c.divide w divisor
    QuotientExact (x.rl (dst + 2)) (x.rl dst) (c.rq dst).toInt (divisor.setWidth 32).toInt c.R x := by
  intro dst x
  have form : x = c.divideBy (c.rq dst).toInt (divisor.setWidth 32).toInt (2 ^ (32 - 1))
      (fun q r c => (c.wl (dst + 2) (BitVec.ofInt 32 q)).wl dst (BitVec.ofInt 32 r))
      (fun q => BitVec.ofInt 32 q == 0) := by
    show c.divide w divisor = _
    rw [divide, if_neg long]
    rfl
  have apart : ∀ r : Reg, pairReg (quadReg r + 2) ≠ pairReg (quadReg r) := by decide
  rw [form]
  refine divideBy_exact (by decide) (fun R => ({ c with R } : Cpu).rl (dst + 2))
    (fun R => ({ c with R } : Cpu).rl dst) (fun q r c => ?_) c (fits_toInt _)
  exact ⟨(wl_rl_of_ne _ (apart _) _).trans (wl_rl _ _ _), wl_rl _ _ _⟩

/-- The result of DIV and DIVL, for every pair of operands. At the pair that the host cannot divide
(`Unrepresentable`) it is about the exact quotient that the model takes there. -/
theorem execDiv_exact (w : CtrlWord) (m : Machine) :
    let divisor := (mulDivOperand w m).1
    let x := (execDiv w m).2.cpu
    let pair := Cpu.pairReg (nib3 (m.cpu.opcode 0))
    let quadruple := Cpu.quadReg (nib3 (m.cpu.opcode 0))
    if w.width = .word then
      QuotientExact (x.rw (pair + 1)) (x.rw pair) (m.cpu.rl pair).toInt (divisor.setWidth 16).toInt
        m.cpu.R x
    else
      QuotientExact (x.rl (quadruple + 2)) (x.rl quadruple) (m.cpu.rq quadruple).toInt
        (divisor.setWidth 32).toInt m.cpu.R x := by
  intro divisor x pair quadruple
  obtain ⟨fault, same⟩ := mulDivOperand_cpu w m
  have run : x = (mulDivOperand w m).2.cpu.divide w divisor := rfl
  rw [run, same]
  split
  · rename_i word
    exact Cpu.divide_word { m.cpu with fault := fault } word divisor
  · rename_i long
    exact Cpu.divide_long { m.cpu with fault := fault } long divisor

/-- -65536 in RR2 and 1 in R4, with DIV RR2,R4 fetched. -/
def leastWideByOne : Machine :=
  { (default : Machine) with
    cpu := { (default : Cpu) with
      R := fun r => if r = 2 then 0xFFFF else if r = 4 then 0x0001 else 0
      opcode := fun i => if i = 0 then 0x9B42 else 0 } }

/-- DIV between registers. -/
def divWord : CtrlWord :=
  { name := "DIV", exec := .div, width := .word, src2 := .reg, src2Nib := .nib3 }

/-- The quotient -65536 fits 17 bits and is not zero, but its stored word is: Z is set. -/
theorem leastWide_setsZero :
    (decodeLookup 0x9B42 0 1 = some divWord ∧
      let x := (execDiv divWord leastWideByOne).2.cpu
      raised x.fcw fC = true ∧ raised x.fcw fPv = true ∧ raised x.fcw fZ = true ∧
        (BitVec.cons (raised x.fcw fS) (x.rw 3)).toInt = -65536) ∧
    ¬∀ (w : CtrlWord) (m : Machine), w.width = .word →
      ¬m.cpu.Unrepresentable w (mulDivOperand w m).1 →
      let x := (execDiv w m).2.cpu
      raised x.fcw fC = true → raised x.fcw fPv = true →
        raised x.fcw fZ =
          decide ((BitVec.cons (raised x.fcw fS) (x.rw (Cpu.pairReg (nib3 (m.cpu.opcode 0)) + 1))).toInt
            = 0) := by
  have decoded : decodeLookup 0x9B42 0 1 = some divWord := rfl
  let x := (execDiv divWord leastWideByOne).2.cpu
  have carry : raised x.fcw fC = true := by decide
  have overflow : raised x.fcw fPv = true := by decide
  have zero : raised x.fcw fZ = true := by decide
  have wide : (BitVec.cons (raised x.fcw fS) (x.rw 3)).toInt = -65536 := by decide
  refine ⟨⟨decoded, carry, overflow, zero, wide⟩, fun claimed => ?_⟩
  have defined : ¬leastWideByOne.cpu.Unrepresentable divWord
      (mulDivOperand divWord leastWideByOne).1 := fun undefined => absurd undefined.1 (by decide)
  have described := claimed divWord leastWideByOne rfl defined carry overflow
  have place : Cpu.pairReg (nib3 (leastWideByOne.cpu.opcode 0)) + 1 = 3 := by decide
  rw [place] at described
  exact absurd (zero.symm.trans described) (by rw [wide]; decide)

end C900
