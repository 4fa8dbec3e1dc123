import C900.Cpu.Address
import C900.Cpu.Conditions
import C900.Cpu.Execute

/-!
# Shifts

A shift goes one place at a time: left with the top bit falling out, right with the sign or a
zero coming in. `execute_shift` states what a whole shift leaves, for every count up to 63 in
either direction.
-/

namespace C900

open HostInt

/-! ## Places -/

namespace Width

/-- The signed value of an operand in terms of the unsigned one. -/
theorem signed_eq (w : Width) (v : Quad) : w.signed v =
    if w.unsigned v < 2 ^ (w.bits - 1) then (w.unsigned v : Int)
    else (w.unsigned v : Int) - (2 ^ w.bits : Nat) := by
  have double : 2 ^ w.bits = 2 * 2 ^ (w.bits - 1) := by
    cases w <;> rfl
  rw [signed, BitVec.toInt_eq_toNat_cond]
  refine if_congr ?_ rfl rfl
  rw [unsigned]
  omega

/-- The test of the sign bit of a value of the width. -/
theorem sign_of_lt {w : Width} {v : Quad} (small : v.toNat < 2 ^ w.bits) :
    (v &&& w.sign != 0) = decide (2 ^ (w.bits - 1) ≤ v.toNat) := by
  rw [sign_iff, signed_eq, unsigned_of_lt small]
  split <;> rw [decide_eq_decide] <;> omega

/-- Sign bits are the same exactly if both tests agree. -/
theorem sign_bne (w : Width) (x y : Quad) :
    (x &&& w.sign != y &&& w.sign) = ((x &&& w.sign != 0) != (y &&& w.sign != 0)) := by
  have nonzero := w.sign_ne_zero
  rw [w.and_sign, w.and_sign]
  generalize w.sign = bit at nonzero
  cases x.getLsbD (w.bits - 1) <;> cases y.getLsbD (w.bits - 1) <;> simp [bne_comm]

end Width

/-- The state of a left shift behind `i` places: `a` is the operand, `s` its signed value. -/
structure ShiftedLeft (w : Width) (a : Nat) (s : Int) (i : Nat) (t : ShiftState) : Prop where
  value : t.val.toNat = a * 2 ^ i % 2 ^ w.bits
  signed : (t.val.toNat : Int) = s * 2 ^ i % (2 ^ w.bits : Nat)
  cout : t.cout = (decide (0 < i) && decide (a * 2 ^ i / 2 ^ w.bits % 2 = 1))
  ovf : t.ovf = decide ¬Fits w.bits (s * 2 ^ i)

theorem shiftedLeft_step {w : Width} {a : Quad} {i : Nat} {t : ShiftState}
    (shifted : ShiftedLeft w (w.unsigned a) (w.signed a) i t) :
    ShiftedLeft w (w.unsigned a) (w.signed a) (i + 1)
      { val := w.trunc (t.val <<< 1)
        cout := t.val &&& w.sign != 0
        ovf := t.ovf || w.trunc (t.val <<< 1) &&& w.sign != w.trunc a &&& w.sign } := by
  obtain ⟨value, signed, cout, ovf⟩ := shifted
  have small : t.val.toNat < 2 ^ w.bits := value ▸ Nat.mod_lt _ (Nat.two_pow_pos _)
  have next : (w.trunc (t.val <<< 1)).toNat = 2 * t.val.toNat % 2 ^ w.bits := by
    rw [w.trunc_toNat, Width.unsigned, BitVec.toNat_setWidth, BitVec.toNat_shiftLeft,
      Nat.shiftLeft_eq]
    cases w <;> simp only [Width.bits] at small ⊢ <;> omega
  have nextSmall : (w.trunc (t.val <<< 1)).toNat < 2 ^ w.bits :=
    next ▸ Nat.mod_lt _ (Nat.two_pow_pos _)
  have operand : (w.trunc a &&& w.sign != 0) = decide (w.signed a < 0) := by
    rw [w.sign_iff, w.signed_trunc]
  have grown : w.unsigned a * 2 ^ (i + 1) = 2 * (w.unsigned a * 2 ^ i) := by
    rw [Nat.pow_succ', Nat.mul_left_comm]
  have grownSigned : w.signed a * 2 ^ (i + 1) = 2 * (w.signed a * 2 ^ i) := by
    rw [Int.pow_succ, ← Int.mul_assoc, Int.mul_comm]
  have positive : (0 : Int) < 2 ^ i := Int.pow_pos (by decide)
  have negative : w.signed a * 2 ^ i < 0 ↔ w.signed a < 0 := by
    constructor
    · exact fun product => Int.lt_of_not_ge fun above =>
        absurd product (Int.not_lt.mpr (Int.mul_nonneg above (Int.le_of_lt positive)))
    · exact fun below => Int.mul_neg_of_neg_of_pos below positive
  generalize w.unsigned a * 2 ^ i = x at *
  generalize w.signed a * 2 ^ i = y at *
  refine ⟨?_, ?_, ?_, ?_⟩
  · rw [next, grown, value]
    cases w <;> simp only [Width.bits] <;> omega
  · rw [next, grownSigned]
    cases w <;> simp only [Width.bits] at * <;> omega
  · rw [Width.sign_of_lt small, decide_eq_true (Nat.succ_pos i), Bool.true_and, grown,
      decide_eq_decide, value]
    cases w <;> simp only [Width.bits] at * <;> omega
  · rw [w.sign_bne, Width.sign_of_lt nextSmall, operand, ovf, grownSigned, next, Bool.eq_iff_iff]
    simp only [Bool.or_eq_true, bne_iff_ne, ne_eq, decide_eq_true_eq, decide_eq_decide]
    rw [← negative]
    unfold Fits
    -- As long as nothing is lost, the value is `y`, and doubling it loses the sign or nothing.
    cases w <;> simp only [Width.bits] at * <;> omega

/-- The number that a right shift takes its operand for. -/
def Width.shiftee (w : Width) (arith : Bool) (a : Quad) : Int :=
  if arith then w.signed a else w.unsigned a

/-- The state of a right shift of the number `s` behind `i` places. -/
structure ShiftedRight (w : Width) (arith : Bool) (s : Int) (i : Nat) (t : ShiftState) : Prop where
  value : (t.val.toNat : Int) = s / 2 ^ i % (2 ^ w.bits : Nat)
  range : if arith then Fits w.bits (s / 2 ^ i) else 0 ≤ s / 2 ^ i ∧ s / 2 ^ i < (2 ^ w.bits : Nat)
  cout : t.cout = (decide (0 < i) && decide (s / 2 ^ (i - 1) % 2 = 1))

/-- One place to the right, with the sign bit put back in. -/
theorem shiftRight_toNat {w : Width} {v : Quad} (arith : Bool) (small : v.toNat < 2 ^ w.bits) :
    ((v >>> 1) ||| (if arith then v &&& w.sign else 0)).toNat =
      v.toNat / 2 + if arith && decide (2 ^ (w.bits - 1) ≤ v.toNat) then 2 ^ (w.bits - 1) else 0 := by
  have half : (v >>> 1).toNat = v.toNat / 2 := by
    rw [BitVec.toNat_ushiftRight, Nat.shiftRight_eq_div_pow]
  have top : (v &&& w.sign).toNat = if 2 ^ (w.bits - 1) ≤ v.toNat then 2 ^ (w.bits - 1) else 0 := by
    have value : w.sign.toNat = 2 ^ (w.bits - 1) := by cases w <;> rfl
    have test := Width.sign_of_lt small
    rw [w.and_sign] at test ⊢
    cases bit : v.getLsbD (w.bits - 1) with
    | true =>
      rw [bit, if_pos rfl] at test
      have high := of_decide_eq_true (test.symm.trans (bne_iff_ne.mpr w.sign_ne_zero))
      rw [if_pos rfl, value, if_pos high]
    | false =>
      rw [bit, if_neg Bool.false_ne_true] at test
      rw [if_neg Bool.false_ne_true, if_neg (of_decide_eq_false test.symm)]
      rfl
  cases arith with
  | false =>
    have same : v >>> 1 ||| (0 : Quad) = v >>> 1 := BitVec.or_zero
    rw [if_neg Bool.false_ne_true, same, half]
    rfl
  | true =>
    have below : v.toNat / 2 < 2 ^ (w.bits - 1) := by
      cases w <;> simp only [Width.bits] at small ⊢ <;> omega
    rw [if_pos rfl, BitVec.toNat_or, half, top, Bool.true_and]
    by_cases high : 2 ^ (w.bits - 1) ≤ v.toNat
    · have joined := Nat.two_pow_add_eq_or_of_lt below 1
      rw [Nat.mul_one] at joined
      rw [if_pos high, decide_eq_true high, if_pos rfl, Nat.or_comm, ← joined, Nat.add_comm]
    · rw [if_neg high, decide_eq_false high, if_neg Bool.false_ne_true, Nat.or_zero, Nat.add_zero]

theorem shiftedRight_step {w : Width} {arith : Bool} {s : Int} {i : Nat} {t : ShiftState}
    (shifted : ShiftedRight w arith s i t) :
    ShiftedRight w arith s (i + 1)
      { t with
        val := (t.val >>> 1) ||| (if arith then t.val &&& w.sign else 0)
        cout := t.val &&& 1 != 0 } := by
  obtain ⟨value, range, cout⟩ := shifted
  have small : t.val.toNat < 2 ^ w.bits := by
    have bound := Int.emod_lt_of_pos (s / 2 ^ i) (Int.natCast_pos.mpr (Nat.two_pow_pos w.bits))
    omega
  have halved : s / 2 ^ (i + 1) = s / 2 ^ i / 2 := by
    rw [Int.pow_succ, Int.ediv_ediv_of_nonneg (Int.le_of_lt (Int.pow_pos (by decide)))]
  have odd : (t.val &&& 1 != 0) = decide (t.val.toNat % 2 = 1) := by
    have bit : (t.val &&& 1).toNat = t.val.toNat % 2 :=
      (BitVec.toNat_and _ _).trans (Nat.and_one_is_mod _)
    rw [Bool.eq_iff_iff, bne_iff_ne, ne_eq, ← BitVec.toNat_inj, bit, decide_eq_true_eq]
    show ¬t.val.toNat % 2 = 0 ↔ _
    omega
  refine ⟨?_, ?_, ?_⟩
  · rw [shiftRight_toNat arith small, halved]
    generalize s / 2 ^ i = z at *
    cases arith with
    | false => cases w <;> simp [Width.bits] at * <;> omega
    | true =>
      have half : Fits w.bits (z / 2) := by
        cases w <;> simp [Width.bits, Fits] at * <;> omega
      rw [emod_of_fits half, Bool.true_and]
      rw [emod_of_fits range] at value
      simp only [decide_eq_true_eq]
      by_cases below : z < 0
      · have still : z / 2 < 0 := by omega
        rw [if_pos below] at value
        have top : 2 ^ (w.bits - 1) ≤ t.val.toNat := by
          cases w <;> simp [Width.bits, Fits] at * <;> omega
        rw [if_pos still, if_pos top]
        cases w <;> simp [Width.bits] at * <;> omega
      · have still : ¬z / 2 < 0 := by omega
        rw [if_neg below] at value
        have top : ¬2 ^ (w.bits - 1) ≤ t.val.toNat := by
          cases w <;> simp [Width.bits, Fits] at * <;> omega
        rw [if_neg still, if_neg top]
        omega
  · rw [halved]
    generalize s / 2 ^ i = z at *
    cases arith <;> cases w <;> simp [Width.bits, Fits] at * <;> omega
  · rw [odd, Nat.add_sub_cancel, decide_eq_true (Nat.succ_pos i), Bool.true_and, decide_eq_decide]
    generalize s / 2 ^ i = z at *
    cases w <;> simp only [Width.bits] at * <;> omega

/-! ## Whole shifts -/

namespace Width

theorem trunc_of_lt {w : Width} {v : Quad} (small : v.toNat < 2 ^ w.bits) : w.trunc v = v := by
  apply BitVec.eq_of_toNat_eq
  rw [w.trunc_toNat, unsigned_of_lt small]

/-- The signed value of an operand, as a word. -/
theorem unsigned_emod (w : Width) (v : Quad) :
    (w.unsigned v : Int) = w.signed v % (2 ^ w.bits : Nat) := by
  have small := w.unsigned_lt v
  rw [signed_eq]
  split
  · exact (Int.emod_eq_of_lt (Int.natCast_nonneg _) (Int.ofNat_lt.mpr small)).symm
  · rw [Int.sub_emod_right]
    exact (Int.emod_eq_of_lt (Int.natCast_nonneg _) (Int.ofNat_lt.mpr small)).symm

/-- A word of a number that fits has that signed value. -/
theorem signed_of_emod {w : Width} {v : Quad} {z : Int} (fits : Fits w.bits z)
    (value : (v.toNat : Int) = z % (2 ^ w.bits : Nat)) : w.signed v = z := by
  have small : v.toNat < 2 ^ w.bits := by
    have bound := Int.emod_lt_of_pos z (Int.natCast_pos.mpr (Nat.two_pow_pos w.bits))
    omega
  rw [signed_eq, unsigned_of_lt small]
  rw [emod_of_fits fits] at value
  unfold Fits at fits
  by_cases below : z < 0
  · rw [if_pos below] at value
    have top : ¬v.toNat < 2 ^ (w.bits - 1) := by
      cases w <;> simp [bits] at * <;> omega
    rw [if_neg top]
    omega
  · rw [if_neg below] at value
    have top : v.toNat < 2 ^ (w.bits - 1) := by
      cases w <;> simp [bits] at * <;> omega
    rw [if_pos top, value]

end Width

/-- The flags of a left shift. -/
theorem leftFlags_raised (w : Width) (v : Quad) (cout ovf : Bool) :
    let flags := (lflags w v &&& ~~~fPv) ||| flagIf cout fC ||| flagIf ovf fPv
    (raised flags fC = cout ∧ raised flags fZ = (w.trunc v == 0)) ∧
      raised flags fS = (w.trunc v &&& w.sign != 0) ∧ raised flags fPv = ovf := by
  have told : ∀ z s p cout ovf : Bool,
      let flags := ((flagIf z fZ ||| flagIf s fS ||| flagIf p fPv) &&& ~~~fPv) ||| flagIf cout fC |||
        flagIf ovf fPv
      (raised flags fC = cout ∧ raised flags fZ = z) ∧ raised flags fS = s ∧ raised flags fPv = ovf := by
    decide
  exact told _ _ _ _ _

/-- The flags of a right shift. -/
theorem rightFlags_raised (w : Width) (v : Quad) (arith cout : Bool) :
    let flags := (if arith then lflags w v &&& ~~~fPv else lflags w v) ||| flagIf cout fC
    (raised flags fC = cout ∧ raised flags fZ = (w.trunc v == 0)) ∧
      raised flags fS = (w.trunc v &&& w.sign != 0) ∧ (arith = true → raised flags fPv = false) := by
  have told : ∀ z s p arith cout : Bool,
      let flags := (if arith then (flagIf z fZ ||| flagIf s fS ||| flagIf p fPv) &&& ~~~fPv
        else flagIf z fZ ||| flagIf s fS ||| flagIf p fPv) ||| flagIf cout fC
      (raised flags fC = cout ∧ raised flags fZ = z) ∧
        raised flags fS = s ∧ (arith = true → raised flags fPv = false) := by
    decide
  exact told _ _ _ _ _

/-- The count of a shift, below 64. -/
theorem count_toNat {cnt : Quad} (small : cnt.toNat < 64) : (cnt &&& 0x3F).toNat = cnt.toNat := by
  rw [BitVec.toNat_and]
  exact (Nat.and_two_pow_sub_one_eq_mod _ 6).trans (Nat.mod_eq_of_lt small)

/-- A left shift by a count below 64. -/
theorem doShiftLeft_exact (a : Quad) {cnt : Quad} (arith : Bool) (w : Width)
    (small : cnt.toNat < 64) :
    let r := doShiftLeft a cnt arith w
    let n := cnt.toNat
    (r.value.toNat = w.unsigned a * 2 ^ n % 2 ^ w.bits ∧ r.mask = shiftMask n arith) ∧
      (0 < n → raised r.flags fC = decide (w.unsigned a * 2 ^ n / 2 ^ w.bits % 2 = 1)) ∧
      raised r.flags fZ = (r.value == 0) ∧ raised r.flags fS = decide (w.signed r.value < 0) ∧
      raised r.flags fPv = (arith && decide ¬Fits w.bits (w.signed a * 2 ^ n)) := by
  intro r n
  let rounds : ShiftState := forUpTo (cnt &&& 0x3F).toNat (fun _ (s : ShiftState) =>
    { val := w.trunc (s.val <<< 1)
      cout := s.val &&& w.sign != 0
      ovf := s.ovf || w.trunc (s.val <<< 1) &&& w.sign != w.trunc a &&& w.sign })
    ⟨w.trunc a, false, false⟩
  have count : (cnt &&& 0x3F).toNat = n := count_toNat small
  have start : ShiftedLeft w (w.unsigned a) (w.signed a) 0 ⟨w.trunc a, false, false⟩ := by
    refine ⟨?_, ?_, rfl, ?_⟩
    · rw [w.trunc_toNat, Nat.pow_zero, Nat.mul_one, Nat.mod_eq_of_lt (w.unsigned_lt a)]
    · rw [w.trunc_toNat, Int.pow_zero, Int.mul_one, w.unsigned_emod]
    · rw [Int.pow_zero, Int.mul_one]
      exact (decide_eq_false (not_not_intro (w.signed_fits a))).symm
  have shifted : ShiftedLeft w (w.unsigned a) (w.signed a) n rounds := by
    rw [← count]
    exact forUpTo.invariant _ _ start fun i s _ shifted => shiftedLeft_step shifted
  have whole : w.trunc rounds.val = rounds.val :=
    Width.trunc_of_lt (shifted.value ▸ Nat.mod_lt _ (Nat.two_pow_pos _))
  obtain ⟨⟨carry, zero⟩, sign, overflow⟩ :=
    leftFlags_raised w rounds.val rounds.cout (arith && rounds.ovf)
  rw [whole] at zero sign
  refine ⟨⟨shifted.value, congrArg (shiftMask · arith) count⟩, fun positive => carry.trans ?_, zero,
    sign.trans (w.sign_iff _), overflow.trans ?_⟩
  · rw [shifted.cout, decide_eq_true positive, Bool.true_and]
  · rw [shifted.ovf]

/-- A right shift by a count below 64. -/
theorem doShiftRight_exact (a : Quad) {cnt : Quad} (arith : Bool) (w : Width)
    (small : cnt.toNat < 64) :
    let r := doShiftRight a cnt arith w
    let n := cnt.toNat
    ((if arith then w.signed r.value = w.signed a / 2 ^ n
        else w.unsigned r.value = w.unsigned a / 2 ^ n) ∧
      r.value.toNat < 2 ^ w.bits ∧ r.mask = shiftMask n arith) ∧
      (0 < n → raised r.flags fC = decide (w.shiftee arith a / 2 ^ (n - 1) % 2 = 1)) ∧
      raised r.flags fZ = (r.value == 0) ∧ raised r.flags fS = decide (w.signed r.value < 0) ∧
      (arith = true → raised r.flags fPv = false) := by
  intro r n
  let rounds : ShiftState := forUpTo (cnt &&& 0x3F).toNat (fun _ (s : ShiftState) =>
    { s with
      val := (s.val >>> 1) ||| (if arith then s.val &&& w.sign else 0)
      cout := s.val &&& 1 != 0 })
    ⟨w.trunc a, false, false⟩
  have count : (cnt &&& 0x3F).toNat = n := count_toNat small
  have start : ShiftedRight w arith (w.shiftee arith a) 0 ⟨w.trunc a, false, false⟩ := by
    have below := w.unsigned_lt a
    refine ⟨?_, ?_, rfl⟩
    all_goals rw [Int.pow_zero, Int.ediv_one]
    · rw [w.trunc_toNat]
      cases arith with
      | false => exact (Int.emod_eq_of_lt (Int.natCast_nonneg _) (Int.ofNat_lt.mpr below)).symm
      | true => exact w.unsigned_emod a
    · cases arith with
      | false => exact ⟨Int.natCast_nonneg _, Int.ofNat_lt.mpr below⟩
      | true => exact w.signed_fits a
  have shifted : ShiftedRight w arith (w.shiftee arith a) n rounds := by
    rw [← count]
    exact forUpTo.invariant _ _ start fun i s _ shifted => shiftedRight_step shifted
  have bound : rounds.val.toNat < 2 ^ w.bits := by
    have value := shifted.value
    have below := Int.emod_lt_of_pos (w.shiftee arith a / 2 ^ n)
      (Int.natCast_pos.mpr (Nat.two_pow_pos w.bits))
    omega
  have whole : w.trunc rounds.val = rounds.val := Width.trunc_of_lt bound
  obtain ⟨⟨carry, zero⟩, sign, overflow⟩ :=
    rightFlags_raised w (w.trunc rounds.val) arith rounds.cout
  have value : r.value = rounds.val := whole
  have twice : w.trunc (w.trunc rounds.val) = rounds.val := by rw [whole, whole]
  rw [twice] at zero sign
  refine ⟨⟨?_, value ▸ bound, congrArg (shiftMask · arith) count⟩, fun positive => carry.trans ?_,
    ?_, ?_, overflow⟩
  · rw [value]
    cases arith with
    | true => exact Width.signed_of_emod shifted.range shifted.value
    | false =>
      have exact : (rounds.val.toNat : Int) = (w.unsigned a : Int) / 2 ^ n :=
        shifted.value.trans (Int.emod_eq_of_lt shifted.range.1 shifted.range.2)
      rw [if_neg Bool.false_ne_true, Width.unsigned_of_lt bound]
      exact_mod_cast exact
  · rw [shifted.cout, decide_eq_true positive, Bool.true_and]
  · rw [value]
    exact zero
  · rw [value]
    exact sign.trans (w.sign_iff _)

/-! ## The instructions -/

/-- A register operand reads back what was written to it, at the width. -/
theorem Cpu.writeReg_readReg (c : Cpu) (r : Reg) (v : Quad) (w : Width) :
    (c.writeReg r v w).readReg r w = w.trunc v := by
  rw [w.trunc_eq]
  cases w with
  | byte => exact congrArg (BitVec.setWidth 64) (c.wb_rb r (v.setWidth 8))
  | word => exact congrArg (BitVec.setWidth 64) (c.setR_R r (v.setWidth 16))
  | long => exact congrArg (BitVec.setWidth 64) (c.wl_rl r (v.setWidth 32))

/-- A shift is arithmetic or logical. -/
theorem pool_shift : ∀ w ∈ pool, w.exec = .shift → w.aluOp = .sla ∨ w.aluOp = .sll := by
  decide +kernel

/-- The signed count of a shift, static or from a register. -/
def Cpu.shiftCount (c : Cpu) (w : CtrlWord) : Int :=
  (if w.count = .reg then c.rw (nib1 (c.opcode 1)) else c.opcode 1).toInt

/-- The places of a shift from its count word. -/
theorem places_toNat (count : Word) :
    ((if count.msb then -count else count).setWidth 64 : Quad).toNat = count.toInt.natAbs := by
  have bound := count.isLt
  have wide : ∀ v : Word, (v.setWidth 64 : Quad).toNat = v.toNat := by
    intro v
    rw [BitVec.toNat_setWidth, Nat.mod_eq_of_lt (Nat.lt_of_lt_of_le v.isLt (by decide))]
  have msb := BitVec.msb_eq_decide count
  rw [wide, BitVec.toInt_eq_msb_cond]
  split
  · rename_i negative
    rw [negative] at msb
    have top := of_decide_eq_true msb.symm
    rw [BitVec.toNat_neg]
    omega
  · rw [Int.natAbs_natCast]

/-- The last bit that a shift by `k` places takes out of `a`, to the left if `k` is positive. -/
def Width.lastOut (w : Width) (arith : Bool) (a : Quad) (k : Int) : Bool :=
  if 0 < k then decide (w.unsigned a * 2 ^ k.natAbs / 2 ^ w.bits % 2 = 1)
  else decide (w.shiftee arith a / 2 ^ (k.natAbs - 1) % 2 = 1)

/-- What a shift by `k` places does to an operand and the flags: `a` is the operand, `v` the
result, `before` and `after` are the flag and control words. -/
structure ShiftExact (w : Width) (arith : Bool) (k : Int) (a v : Quad) (before after : Word) :
    Prop where
  left : 0 ≤ k → w.unsigned v = w.unsigned a * 2 ^ k.natAbs % 2 ^ w.bits
  overflow : 0 ≤ k → arith = true →
    raised after fPv = decide ¬Fits w.bits (w.signed a * 2 ^ k.natAbs)
  arithRight : k < 0 → arith = true →
    w.signed v = w.signed a / 2 ^ k.natAbs ∧ raised after fPv = false
  logicalRight : k < 0 → arith = false → w.unsigned v = w.unsigned a / 2 ^ k.natAbs
  carry : k ≠ 0 → raised after fC = w.lastOut arith a k
  carryKept : k = 0 → raised after fC = raised before fC
  sign : raised after fS = decide (w.signed v < 0)
  zero : raised after fZ = decide (w.unsigned v = 0)
  overflowKept : arith = false → raised after fPv = raised before fPv

/-- The test for zero of a value of the width. -/
theorem Width.beq_zero {w : Width} {v : Quad} (bound : v.toNat < 2 ^ w.bits) :
    (v == 0) = decide (w.unsigned v = 0) := by
  rw [Width.unsigned_of_lt bound, Bool.eq_iff_iff, beq_iff_eq, decide_eq_true_eq,
    ← BitVec.toNat_inj]
  rfl

/-- The flags that a shift affects. -/
theorem shiftMask_flags (n : Nat) (arith : Bool) :
    (shiftMask n arith &&& fC = if n = 0 then 0 else fC) ∧ shiftMask n arith &&& fZ = fZ ∧
      shiftMask n arith &&& fS = fS ∧ shiftMask n arith &&& fPv = if arith then fPv else 0 := by
  unfold shiftMask
  by_cases zero : n = 0
  · rw [if_pos zero]
    cases arith <;> decide
  · rw [if_neg zero]
    cases arith <;> decide

section Result

variable (d : Cpu) {w : Width} {arith : Bool} {k : Int} {a cnt : Quad}
  (count : cnt.toNat = k.natAbs) (near : k.natAbs ≤ 63)

include count near

theorem shiftExact_left (direction : 0 ≤ k) :
    let r := doShiftLeft a cnt arith w
    ShiftExact w arith k a (w.trunc r.value) d.fcw (d.applyFlags r).fcw := by
  intro r
  obtain ⟨⟨value, mask⟩, carry, zero, sign, overflow⟩ :=
    doShiftLeft_exact a arith w (by omega : cnt.toNat < 64)
  rw [count] at value carry overflow mask
  obtain ⟨onCarry, onZero, onSign, onOverflow⟩ := shiftMask_flags k.natAbs arith
  rw [← mask] at onCarry onZero onSign onOverflow
  have bound : r.value.toNat < 2 ^ w.bits := value ▸ Nat.mod_lt _ (Nat.two_pow_pos _)
  have whole : w.trunc r.value = r.value := Width.trunc_of_lt bound
  rw [whole]
  have right : ¬k < 0 := Int.not_lt.mpr direction
  constructor
  case left => exact fun _ => (Width.unsigned_of_lt bound).trans value
  case overflow =>
    intro _ isArith
    subst isArith
    exact (d.applyFlags_affected r onOverflow).trans overflow
  case arithRight => exact fun negative => absurd negative right
  case logicalRight => exact fun negative => absurd negative right
  case carry =>
    intro moved
    rw [if_neg (by omega)] at onCarry
    rw [Width.lastOut, if_pos (by omega)]
    exact (d.applyFlags_affected r onCarry).trans (carry (by omega))
  case carryKept =>
    intro still
    rw [if_pos (by omega)] at onCarry
    exact d.applyFlags_kept r onCarry
  case sign => exact (d.applyFlags_affected r onSign).trans sign
  case zero => exact (d.applyFlags_affected r onZero).trans (zero.trans (Width.beq_zero bound))
  case overflowKept =>
    intro logical
    subst logical
    exact d.applyFlags_kept r onOverflow

theorem shiftExact_right (direction : k < 0) :
    let r := doShiftRight a cnt arith w
    ShiftExact w arith k a (w.trunc r.value) d.fcw (d.applyFlags r).fcw := by
  intro r
  obtain ⟨⟨value, bound, mask⟩, carry, zero, sign, overflow⟩ :=
    doShiftRight_exact a arith w (by omega : cnt.toNat < 64)
  rw [count] at value carry mask
  obtain ⟨onCarry, onZero, onSign, onOverflow⟩ := shiftMask_flags k.natAbs arith
  rw [← mask] at onCarry onZero onSign onOverflow
  have whole : w.trunc r.value = r.value := Width.trunc_of_lt bound
  rw [whole]
  have right : ¬0 ≤ k := Int.not_le.mpr direction
  constructor
  case left => exact fun positive => absurd positive right
  case overflow => exact fun positive => absurd positive right
  case arithRight =>
    intro _ isArith
    subst isArith
    exact ⟨value, (d.applyFlags_affected r onOverflow).trans (overflow rfl)⟩
  case logicalRight =>
    intro _ logical
    subst logical
    exact value
  case carry =>
    intro moved
    rw [if_neg (by omega)] at onCarry
    rw [Width.lastOut, if_neg (by omega)]
    exact (d.applyFlags_affected r onCarry).trans (carry (by omega))
  case carryKept => exact fun still => absurd still (by omega)
  case sign => exact (d.applyFlags_affected r onSign).trans sign
  case zero => exact (d.applyFlags_affected r onZero).trans (zero.trans (Width.beq_zero bound))
  case overflowKept =>
    intro logical
    subst logical
    exact d.applyFlags_kept r onOverflow

end Result

/-- A shift instruction, for every width, form and count of at most 63 places. -/
theorem execute_shift (m : Machine) {w : CtrlWord} (decoded : w ∈ pool) (shift : w.exec = .shift)
    (near : (m.cpu.shiftCount w).natAbs ≤ 63) :
    let dst := nib2 (m.cpu.opcode 0)
    let x := (execute w m).2.cpu
    ShiftExact w.width (w.aluOp == .sla) (m.cpu.shiftCount w) (m.cpu.readReg dst w.width)
      (x.readReg dst w.width) m.cpu.fcw x.fcw := by
  intro dst x
  have run : x = m.cpu.shift w := by
    show (execute w m).2.cpu = _
    rw [execute, shift]
    rfl
  let count : Word := if w.count = .reg then m.cpu.rw (nib1 (m.cpu.opcode 1)) else m.cpu.opcode 1
  let a := m.cpu.readReg dst w.width
  let cnt : Quad := (if count.msb then -count else count).setWidth 64
  have places : cnt.toNat = (m.cpu.shiftCount w).natAbs := places_toNat count
  have direction : count.msb = decide (m.cpu.shiftCount w < 0) := BitVec.msb_eq_toInt
  have fcw : ∀ v, (m.cpu.writeReg dst v w.width).fcw = m.cpu.fcw := by
    intro v
    cases w.width with
    | byte => exact Cpu.wb_fcw _ _ _
    | _ => rfl
  have read : ∀ r : AluResult, ((m.cpu.writeReg dst r.value w.width).applyFlags r).readReg dst
      w.width = w.width.trunc r.value := by
    intro r
    rw [← m.cpu.writeReg_readReg dst r.value w.width]
    cases w.width <;> rfl
  have operation := pool_shift w decoded shift
  by_cases right : m.cpu.shiftCount w < 0
  · rw [decide_eq_true right] at direction
    let r := doShiftRight a cnt (w.aluOp == .sla) w.width
    have result : x = (m.cpu.writeReg dst r.value w.width).applyFlags r := by
      rw [run, Cpu.shift]
      obtain arith | logical := operation
      · simp only [count, direction, if_true, cnt, r, arith]
        rfl
      · simp only [count, direction, if_true, cnt, r, logical]
        rfl
    have exact : ShiftExact w.width (w.aluOp == .sla) (m.cpu.shiftCount w) a
        (w.width.trunc r.value) (m.cpu.writeReg dst r.value w.width).fcw
        ((m.cpu.writeReg dst r.value w.width).applyFlags r).fcw :=
      shiftExact_right _ places near right
    rw [result, read, ← fcw r.value]
    exact exact
  · rw [decide_eq_false right] at direction
    let r := doShiftLeft a cnt (w.aluOp == .sla) w.width
    have result : x = (m.cpu.writeReg dst r.value w.width).applyFlags r := by
      rw [run, Cpu.shift]
      obtain arith | logical := operation
      · simp only [count, direction, Bool.false_eq_true, if_false, cnt, r, arith]
        rfl
      · simp only [count, direction, Bool.false_eq_true, if_false, cnt, r, logical]
        rfl
    have exact : ShiftExact w.width (w.aluOp == .sla) (m.cpu.shiftCount w) a
        (w.width.trunc r.value) (m.cpu.writeReg dst r.value w.width).fcw
        ((m.cpu.writeReg dst r.value w.width).applyFlags r).fcw :=
      shiftExact_left _ places near (Int.not_lt.mp right)
    rw [result, read, ← fcw r.value]
    exact exact

/-- 4000 in R3, with SLA R3,#1 fetched. -/
def slaByOne : Machine :=
  { (default : Machine) with
    cpu := { (default : Cpu) with
      R := fun r => if r = 3 then 0x4000 else 0
      opcode := fun i => if i = 0 then 0xB339 else 1 } }

/-- SLA of a word by the count in the instruction. -/
def slaWord : CtrlWord := mkShift "SLA" .sla .word .imm

/-- 4000 doubled is a negative word: SLA overflows. -/
theorem execute_shift_sla :
    decodeLookup 0xB339 0 1 = some slaWord ∧
      let x := (execute slaWord slaByOne).2.cpu
      x.rw 3 = 0x8000 ∧ raised x.fcw fPv = true ∧
        ShiftExact .word true 1 0x4000 (x.readReg 3 .word) slaByOne.cpu.fcw x.fcw := by
  have decoded : decodeLookup 0xB339 0 1 = some slaWord := rfl
  refine ⟨decoded, by decide +kernel, by decide +kernel, ?_⟩
  exact execute_shift slaByOne (decodeLookup_mem decoded) rfl (by decide)

end C900
