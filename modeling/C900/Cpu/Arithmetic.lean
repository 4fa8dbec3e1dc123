import C900.Cpu.Alu
import C900.Logic.Adder

/-!
# Arithmetic of the unit

What addition, subtraction, negation and counting leave in the value and in the flags,
in terms of the exact integer result: `Exact` for the operations that set the carry,
`ExactSigned` for the others. The bit-serial adder is compared with the addition of bit
vectors first; the flags then follow from the rules on carries.
-/

namespace C900

/-! ## Operands and flags -/

namespace Width

/-- An operand as an unsigned number of the width. -/
def unsigned (w : Width) (v : Quad) : Nat := (v.setWidth w.bits).toNat

/-- An operand as a signed number of the width. -/
def signed (w : Width) (v : Quad) : Int := (v.setWidth w.bits).toInt

theorem bits_pos (w : Width) : 0 < w.bits := by cases w <;> decide

theorem bits_le (w : Width) : w.bits ≤ 64 := by cases w <;> decide

theorem trunc_eq (w : Width) (v : Quad) : w.trunc v = (v.setWidth w.bits).setWidth 64 := by
  apply BitVec.eq_of_toNat_eq
  have masked : (w.trunc v).toNat = v.toNat % 2 ^ w.bits := by
    unfold trunc
    rw [BitVec.toNat_and]
    cases w with
    | byte => exact Nat.and_two_pow_sub_one_eq_mod _ 8
    | word => exact Nat.and_two_pow_sub_one_eq_mod _ 16
    | long => exact Nat.and_two_pow_sub_one_eq_mod _ 32
  have small : v.toNat % 2 ^ w.bits < 2 ^ 64 :=
    Nat.lt_of_lt_of_le (Nat.mod_lt _ (Nat.two_pow_pos _)) (Nat.pow_le_pow_right (by decide) w.bits_le)
  rw [masked, BitVec.toNat_setWidth, BitVec.toNat_setWidth, Nat.mod_eq_of_lt small]

theorem trunc_toNat (w : Width) (v : Quad) : (w.trunc v).toNat = w.unsigned v := by
  have small : w.unsigned v < 2 ^ 64 :=
    Nat.lt_of_lt_of_le (BitVec.isLt _) (Nat.pow_le_pow_right (by decide) w.bits_le)
  rw [trunc_eq, BitVec.toNat_setWidth]
  exact Nat.mod_eq_of_lt small

theorem setWidth_trunc (w : Width) (v : Quad) :
    (w.trunc v).setWidth w.bits = v.setWidth w.bits := by
  rw [trunc_eq, BitVec.setWidth_setWidth_of_le _ w.bits_le, BitVec.setWidth_eq]

theorem unsigned_lt (w : Width) (v : Quad) : w.unsigned v < 2 ^ w.bits := BitVec.isLt _

theorem unsigned_of_lt {w : Width} {v : Quad} (small : v.toNat < 2 ^ w.bits) :
    w.unsigned v = v.toNat := by
  rw [unsigned, BitVec.toNat_setWidth, Nat.mod_eq_of_lt small]

theorem signed_fits (w : Width) (v : Quad) : HostInt.Fits w.bits (w.signed v) :=
  HostInt.fits_toInt _

theorem signed_trunc (w : Width) (v : Quad) : w.signed (w.trunc v) = w.signed v := by
  rw [signed, setWidth_trunc, signed]

/-- The sign mask selects one bit. -/
theorem and_sign (w : Width) (v : Quad) :
    v &&& w.sign = if v.getLsbD (w.bits - 1) then w.sign else 0 := by
  have single : w.sign = BitVec.twoPow 64 (w.bits - 1) := by cases w <;> rfl
  rw [single, BitVec.and_twoPow]
  rfl

theorem sign_ne_zero (w : Width) : w.sign ≠ 0 := by
  cases w <;> decide

/-- The test of the sign bit. -/
theorem sign_iff (w : Width) (v : Quad) : (v &&& w.sign != 0) = decide (w.signed v < 0) := by
  have top : v.getLsbD (w.bits - 1) = (v.setWidth w.bits).msb := by
    have last : w.bits - 1 < w.bits := Nat.sub_lt w.bits_pos (by decide)
    rw [BitVec.msb_eq_getLsbD_last, BitVec.getLsbD_setWidth, decide_eq_true last, Bool.true_and]
  rw [and_sign, top, signed, ← BitVec.msb_eq_toInt]
  cases (v.setWidth w.bits).msb with
  | true => exact bne_iff_ne.mpr w.sign_ne_zero
  | false => rfl

end Width

/-- A flag is raised in a flag word. -/
def raised (flags flag : Word) : Bool := flags &&& flag != 0

/-- A flag word made of the six flags. -/
def flagWord (c z s v h d : Bool) : Word :=
  flagIf c fC ||| flagIf z fZ ||| flagIf s fS ||| flagIf v fPv ||| flagIf h fH ||| flagIf d fDa

/-- The flags are told apart. -/
theorem raised_flagWord (c z s v h d : Bool) :
    (raised (flagWord c z s v h d) fC = c ∧ raised (flagWord c z s v h d) fZ = z) ∧
      (raised (flagWord c z s v h d) fS = s ∧ raised (flagWord c z s v h d) fPv = v) ∧
      raised (flagWord c z s v h d) fH = h ∧ raised (flagWord c z s v h d) fDa = d := by
  revert c z s v h d
  decide

@[simp] theorem raised_carry (c z s v h d : Bool) : raised (flagWord c z s v h d) fC = c :=
  (raised_flagWord c z s v h d).1.1

@[simp] theorem raised_zero (c z s v h d : Bool) : raised (flagWord c z s v h d) fZ = z :=
  (raised_flagWord c z s v h d).1.2

@[simp] theorem raised_sign (c z s v h d : Bool) : raised (flagWord c z s v h d) fS = s :=
  (raised_flagWord c z s v h d).2.1.1

@[simp] theorem raised_overflow (c z s v h d : Bool) : raised (flagWord c z s v h d) fPv = v :=
  (raised_flagWord c z s v h d).2.1.2

@[simp] theorem raised_half (c z s v h d : Bool) : raised (flagWord c z s v h d) fH = h :=
  (raised_flagWord c z s v h d).2.2.1

@[simp] theorem raised_decimal (c z s v h d : Bool) : raised (flagWord c z s v h d) fDa = d :=
  (raised_flagWord c z s v h d).2.2.2

/-! ## The adder -/

section Adder

variable (a b : Quad) (cin : Bool)

/-- One round of the adder: the sum bit and the next carry. -/
theorem carryChain_round (i : Nat) (small : i < 64) :
    ((a.getLsbD i && b.getLsbD i) || (b.getLsbD i && BitVec.carry i a b cin) ||
        (a.getLsbD i && BitVec.carry i a b cin)) = BitVec.carry (i + 1) a b cin ∧
      (a.getLsbD i ^^ b.getLsbD i ^^ BitVec.carry i a b cin) =
        (a + b + (BitVec.ofBool cin).setWidth 64).getLsbD i := by
  rw [BitVec.carry_succ, BitVec.getLsbD_add_add_bool small]
  cases a.getLsbD i <;> cases b.getLsbD i <;> cases BitVec.carry i a b cin <;> decide

/-- The adder of `n` rounds: its sum, and the carries it exports. -/
structure Summed (n : Nat) (s : CarryChain) : Prop where
  result : ∀ j, s.result.getLsbD j =
    (decide (j < n) && (a + b + (BitVec.ofBool cin).setWidth 64).getLsbD j)
  cout : s.cout = BitVec.carry n a b cin
  c4 : s.c4 = (decide (3 < n) && BitVec.carry 4 a b cin)

variable {a b cin} in
/-- The sum bit of a round joins the sum. -/
theorem summed_bit {i : Nat} {s : CarryChain} (summed : Summed a b cin i s) (inWord : i < 64)
    (j : Nat) :
    (if (a + b + (BitVec.ofBool cin).setWidth 64).getLsbD i then s.result ||| (1 <<< i)
      else s.result).getLsbD j =
      (decide (j < i + 1) && (a + b + (BitVec.ofBool cin).setWidth 64).getLsbD j) := by
  have place : (((1 <<< i : Nat)) : Quad).getLsbD j = decide (i = j) := by
    rw [BitVec.natCast_eq_ofNat, BitVec.getLsbD_ofNat, Nat.one_shiftLeft, Nat.testBit_two_pow]
    by_cases same : i = j
    · rw [decide_eq_true same, decide_eq_true (same ▸ inWord)]
      rfl
    · rw [decide_eq_false same, Bool.and_false]
  have elsewhere : i ≠ j → (if (a + b + (BitVec.ofBool cin).setWidth 64).getLsbD i then
      s.result ||| (1 <<< i) else s.result).getLsbD j = s.result.getLsbD j := by
    intro other
    split
    · rw [BitVec.getLsbD_or, place, decide_eq_false other, Bool.or_false]
    · rfl
  rcases Nat.lt_trichotomy j i with below | rfl | above
  · rw [elsewhere (Nat.ne_of_gt below), summed.result, decide_eq_true below,
      decide_eq_true (Nat.lt_succ_of_lt below)]
  · have fresh : s.result.getLsbD j = false := by
      rw [summed.result, decide_eq_false (Nat.lt_irrefl j), Bool.false_and]
    rw [decide_eq_true (Nat.lt_succ_self j), Bool.true_and]
    split
    · next set => rw [BitVec.getLsbD_or, place, fresh, decide_eq_true rfl, set, Bool.false_or]
    · next clear => rw [fresh, Bool.eq_false_iff.mpr clear]
  · rw [elsewhere (Nat.ne_of_lt above), summed.result, decide_eq_false (Nat.not_lt_of_gt above),
      decide_eq_false (Nat.not_lt.mpr above)]

/-- The carries and the sum bits behind all rounds. -/
theorem carryChain_summed (n : Nat) (small : n ≤ 64) :
    Summed a b cin n (carryChain a b cin n) ∧
      (0 < n → (carryChain a b cin n).cmsbin = BitVec.carry (n - 1) a b cin) := by
  have rounds : Summed a b cin n (carryChain a b cin n) ∧ (n ≤ n → 0 < n →
      (carryChain a b cin n).cmsbin = BitVec.carry (n - 1) a b cin) := by
    refine forUpTo.invariant (fun i s => Summed a b cin i s ∧
      (n ≤ i → 0 < n → s.cmsbin = BitVec.carry (n - 1) a b cin)) n ?_ ?_
    · refine ⟨⟨fun j => ?_, ?_, rfl⟩, fun none some => absurd some (Nat.not_lt.mpr none)⟩
      · rw [decide_eq_false (Nat.not_lt_zero j), Bool.false_and]
        exact BitVec.getLsbD_zero
      · exact BitVec.carry_zero.symm
    · rintro i s inside ⟨summed, -⟩
      have inWord : i < 64 := Nat.lt_of_lt_of_le inside small
      obtain ⟨carry, bit⟩ := carryChain_round a b cin i inWord
      dsimp only
      rw [summed.cout, carry, bit]
      refine ⟨⟨fun j => ?_, rfl, ?_⟩, fun reached _ => ?_⟩
      · exact summed_bit summed inWord j
      · rcases Nat.lt_trichotomy i 3 with before | rfl | behind
        · have early : ¬3 < i := Nat.not_lt_of_gt before
          have still : ¬3 < i + 1 := Nat.not_lt.mpr before
          rw [decide_eq_false still, summed.c4, decide_eq_false early]
          exact if_neg (Nat.ne_of_lt before)
        · rfl
        · rw [decide_eq_true (Nat.lt_succ_of_lt behind), summed.c4, decide_eq_true behind]
          exact if_neg (Nat.ne_of_gt behind)
      · have last : i = n - 1 := by omega
        rw [if_pos last, last]
  exact ⟨rounds.1, rounds.2 (Nat.le_refl n)⟩

/-- The adder at a width, on operands of that width. -/
theorem carryChain_width (w : Width) :
    let s := carryChain a b cin w.bits
    let x := a.setWidth w.bits
    let y := b.setWidth w.bits
    w.unsigned s.result = (x.toNat + y.toNat + cin.toNat) % 2 ^ w.bits ∧
      s.cout = BitVec.carry w.bits x y cin ∧ s.cmsbin = BitVec.carry (w.bits - 1) x y cin ∧
      s.c4 = BitVec.carry 4 x y cin := by
  obtain ⟨summed, last⟩ := carryChain_summed a b cin w.bits w.bits_le
  have four : 3 < w.bits := by cases w <;> decide
  refine ⟨?_, ?_, ?_, ?_⟩
  · have low : (carryChain a b cin w.bits).result.setWidth w.bits =
        (a + b + (BitVec.ofBool cin).setWidth 64).setWidth w.bits := by
      apply BitVec.eq_of_getLsbD_eq
      intro i inside
      rw [BitVec.getLsbD_setWidth, BitVec.getLsbD_setWidth, summed.result, decide_eq_true inside,
        Bool.true_and]
    rw [Width.unsigned, low, BitVec.setWidth_add _ _ w.bits_le, BitVec.setWidth_add _ _ w.bits_le,
      BitVec.toNat_add, BitVec.toNat_add, Nat.mod_add_mod]
    cases cin <;> cases w <;> rfl
  · rw [summed.cout, Adder.carry_setWidth (Nat.le_refl _)]
  · rw [last w.bits_pos, Adder.carry_setWidth (Nat.sub_le _ _)]
  · rw [summed.c4, decide_eq_true four, Bool.true_and, Adder.carry_setWidth four]

end Adder

/-! ## Exact results -/

/-- A result agrees with an integer operation on value, overflow, sign and zero: `u` is the
exact result of the unsigned operands, `s` that of the signed ones. -/
structure ExactSigned (w : Width) (r : AluResult) (u s : Int) : Prop where
  value : (r.value.toNat : Int) = u % (2 ^ w.bits : Nat)
  overflow : raised r.flags fPv = true ↔ ¬HostInt.Fits w.bits s
  sign : raised r.flags fS = true ↔ w.signed r.value < 0
  zero : raised r.flags fZ = true ↔ r.value = 0

/-- It agrees on the carry or borrow as well. -/
structure Exact (w : Width) (r : AluResult) (u s : Int) : Prop extends ExactSigned w r u s where
  carry : raised r.flags fC = true ↔ ¬(0 ≤ u ∧ u < (2 ^ w.bits : Nat))

/-- The sign and zero flags are computed from the value. -/
theorem ExactSigned.ofValue {w : Width} {v : Quad} {u sgn : Int} {c o h d : Bool} (mask : Word)
    (value : (v.toNat : Int) = u % (2 ^ w.bits : Nat))
    (overflow : o = true ↔ ¬HostInt.Fits w.bits sgn) :
    ExactSigned w ⟨v, flagWord c (v == 0) (v &&& w.sign != 0) o h d, mask⟩ u sgn := by
  refine ⟨value, ?_, ?_, ?_⟩
  · rw [raised_overflow]
    exact overflow
  · rw [raised_sign, w.sign_iff, decide_eq_true_eq]
  · rw [raised_zero, beq_iff_eq]

theorem doAdd_exact (a b : Quad) (c : Bool) (w : Width) :
    Exact w (doAdd a b c w) (w.unsigned a + w.unsigned b + c.toNat)
      (w.signed a + w.signed b + c.toNat) := by
  obtain ⟨value, cout, cmsbin, -⟩ := carryChain_width a b c w
  have flags : (doAdd a b c w).flags = flagWord _ _ _ _ _ false := (BitVec.or_zero).symm
  have sum : doAdd a b c w = ⟨_, _, addMask w⟩ := congrArg (AluResult.mk _ · _) flags
  rw [sum]
  refine { ExactSigned.ofValue _ ?_ ?_ with carry := ?_ }
  · rw [w.trunc_toNat, value]
    rfl
  · rw [cout, cmsbin, bne_iff_ne, Width.signed, Width.signed, Adder.fits_add_iff w.bits_pos]
  · rw [raised_carry, cout, BitVec.carry_width, decide_eq_true_eq, Width.unsigned, Width.unsigned]
    omega

theorem doSub_exact (a b : Quad) (c : Bool) (w : Width) :
    Exact w (doSub a b c w) (w.unsigned a - w.unsigned b - c.toNat)
      (w.signed a - w.signed b - c.toNat) := by
  obtain ⟨value, cout, cmsbin, -⟩ := carryChain_width a (w.trunc (~~~b)) (!c) w
  rw [w.setWidth_trunc, BitVec.setWidth_not w.bits_le] at value cout cmsbin
  have difference : doSub a b c w = ⟨_, flagWord _ _ _ _ _ _, addMask w⟩ := rfl
  have boundA := w.unsigned_lt a
  have boundB := w.unsigned_lt b
  have bit : ((!c).toNat : Int) = 1 - c.toNat := by cases c <;> rfl
  rw [difference]
  refine { ExactSigned.ofValue _ ?_ ?_ with carry := ?_ }
  · have complement : ((~~~b.setWidth w.bits).toNat : Int) =
        (2 ^ w.bits : Nat) - 1 - w.unsigned b := by
      rw [BitVec.toNat_not]
      have bound : (b.setWidth w.bits).toNat < 2 ^ w.bits := boundB
      unfold Width.unsigned
      omega
    have around : ((w.unsigned a + (~~~b.setWidth w.bits).toNat + (!c).toNat : Nat) : Int) =
        w.unsigned a - w.unsigned b - c.toNat + (2 ^ w.bits : Nat) := by
      push_cast [complement, bit]
      omega
    rw [w.trunc_toNat, value, Int.natCast_emod]
    exact (congrArg (· % _) around).trans (Int.add_emod_right _ _)
  · rw [cout, cmsbin, bne_iff_ne, Width.signed, Width.signed, Adder.fits_sub_iff w.bits_pos]
  · rw [raised_carry, cout, Adder.carry_not (Nat.le_refl _), Bool.not_eq_true', decide_eq_false_iff_not,
      Nat.mod_eq_of_lt (BitVec.isLt _), Nat.mod_eq_of_lt (BitVec.isLt _)]
    change ¬(w.unsigned b + c.toNat ≤ w.unsigned a) ↔ _
    omega

theorem doNeg_exact (a : Quad) (w : Width) :
    Exact w (doNeg a w) (-(w.unsigned a)) (-(w.signed a)) := by
  have flags : (doNeg a w).flags = flagWord _ _ _ _ false false :=
    (BitVec.or_zero.trans BitVec.or_zero).symm
  have negated : doNeg a w = ⟨_, _, fC ||| fZ ||| fS ||| fPv⟩ :=
    congrArg (AluResult.mk _ · _) flags
  have value : (w.trunc (-a)).toNat = (2 ^ w.bits - w.unsigned a) % 2 ^ w.bits := by
    rw [w.trunc_toNat, Width.unsigned, BitVec.setWidth_neg_of_le w.bits_le, BitVec.toNat_neg]
    rfl
  have bound := w.unsigned_lt a
  have least : (w.trunc a == w.sign) = decide (2 * w.unsigned a = 2 ^ w.bits) := by
    have sign : 2 * w.sign.toNat = 2 ^ w.bits := by cases w <;> rfl
    rw [← w.trunc_toNat, beq_eq_decide, decide_eq_decide, ← BitVec.toNat_inj]
    omega
  rw [negated]
  refine { ExactSigned.ofValue _ ?_ ?_ with carry := ?_ }
  · have around : ((2 ^ w.bits - w.unsigned a : Nat) : Int) =
        -(w.unsigned a) + (2 ^ w.bits : Nat) := by omega
    rw [value, Int.natCast_emod]
    exact (congrArg (· % _) around).trans (Int.add_emod_right _ _)
  · rw [least, decide_eq_true_eq, HostInt.Fits, Width.signed]
    unfold Width.unsigned
    rcases Adder.toInt_cases (a.setWidth w.bits) with ⟨_, signed⟩ | ⟨_, signed⟩ <;>
      rw [signed] <;> cases w <;> simp only [Width.bits] at * <;> omega
  · rw [raised_carry, bne_iff_ne, ← BitVec.toNat_ne_iff_ne, w.trunc_toNat]
    change w.unsigned a ≠ 0 ↔ _
    omega

/-! ### Counting -/

/-- The signs that the overflow tests of INC and DEC compare. -/
theorem sign_xor (w : Width) (x y : Quad) :
    ((x ^^^ y) &&& w.sign != 0) = ((x.setWidth w.bits).msb ^^ (y.setWidth w.bits).msb) := by
  rw [w.sign_iff, Width.signed, ← BitVec.msb_eq_toInt, BitVec.setWidth_xor, BitVec.msb_xor]

/-- Words and bytes are counted at their own width. -/
theorem Width.short_eq {w : Width} (short : w ≠ .long) : w.short = w := by
  cases w with
  | byte | word => rfl
  | long => exact absurd rfl short

/-- The flags that counting affects. -/
theorem countFlags_eq (z s v : Bool) :
    flagIf z fZ ||| flagIf s fS ||| flagIf v fPv = flagWord false z s v false false := by
  revert z s v
  decide

/-- INC affects neither the carry nor the byte flags. -/
theorem doInc_exact (a n : Quad) {w : Width} (short : w ≠ .long) :
    ExactSigned w (doInc a n w) (w.unsigned a + w.unsigned n) (w.signed a + w.signed n) := by
  have counted : doInc a n w = ⟨_, _, fZ ||| fS ||| fPv⟩ :=
    congrArg (AluResult.mk _ · _) (countFlags_eq _ _ _)
  rw [Width.short_eq short] at counted
  rw [counted]
  refine ExactSigned.ofValue _ ?_ ?_
  · rw [w.trunc_toNat, Width.unsigned, BitVec.setWidth_add _ _ w.bits_le, BitVec.toNat_add]
    rfl
  · have overflow : BitVec.saddOverflow (a.setWidth w.bits) (n.setWidth w.bits) = true ↔
        ¬HostInt.Fits w.bits (w.signed a + w.signed n) := by
      simp only [BitVec.saddOverflow, HostInt.Fits, Width.signed, Bool.or_eq_true,
        decide_eq_true_eq]
      omega
    have like : ((a ^^^ n) &&& w.sign == 0) =
        !((a.setWidth w.bits).msb ^^ (n.setWidth w.bits).msb) := by
      rw [← sign_xor, bne, Bool.not_not]
    rw [← overflow, BitVec.saddOverflow_eq, ← BitVec.setWidth_add _ _ w.bits_le, like, sign_xor,
      w.setWidth_trunc]
    cases (a.setWidth w.bits).msb <;> cases (n.setWidth w.bits).msb <;>
      cases ((a + n).setWidth w.bits).msb <;> decide

/-- DEC affects neither the carry nor the byte flags. -/
theorem doDec_exact (a n : Quad) {w : Width} (short : w ≠ .long) :
    ExactSigned w (doDec a n w) (w.unsigned a - w.unsigned n) (w.signed a - w.signed n) := by
  have counted : doDec a n w = ⟨_, _, fZ ||| fS ||| fPv⟩ :=
    congrArg (AluResult.mk _ · _) (countFlags_eq _ _ _)
  have difference : (a - n).setWidth w.bits = a.setWidth w.bits - n.setWidth w.bits := by
    rw [BitVec.sub_eq_add_neg, BitVec.setWidth_add _ _ w.bits_le,
      BitVec.setWidth_neg_of_le w.bits_le, ← BitVec.sub_eq_add_neg]
  rw [Width.short_eq short] at counted
  rw [counted]
  refine ExactSigned.ofValue _ ?_ ?_
  · have bound := w.unsigned_lt n
    have around : ((2 ^ w.bits - w.unsigned n + w.unsigned a : Nat) : Int) =
        w.unsigned a - w.unsigned n + (2 ^ w.bits : Nat) := by omega
    rw [w.trunc_toNat, Width.unsigned, difference, BitVec.toNat_sub, Int.natCast_emod]
    exact (congrArg (· % _) around).trans (Int.add_emod_right _ _)
  · have overflow : BitVec.ssubOverflow (a.setWidth w.bits) (n.setWidth w.bits) = true ↔
        ¬HostInt.Fits w.bits (w.signed a - w.signed n) := by
      simp only [BitVec.ssubOverflow, HostInt.Fits, Width.signed, Bool.or_eq_true,
        decide_eq_true_eq]
      omega
    rw [← overflow, BitVec.ssubOverflow_eq, ← difference, sign_xor, sign_xor, w.setWidth_trunc]
    cases (a.setWidth w.bits).msb <;> cases (n.setWidth w.bits).msb <;>
      cases ((a - n).setWidth w.bits).msb <;> decide

/-! ## The operations -/

/-- Two results agree on the value and on some flags. -/
def AluResult.AgreesOn (flags : List Word) (r s : AluResult) : Prop :=
  r.value = s.value ∧ ∀ flag ∈ flags, raised r.flags flag = raised s.flags flag

/-- Results of one signed operation. -/
theorem ExactSigned.agrees {w : Width} {r t : AluResult} {u s : Int} (first : ExactSigned w r u s)
    (second : ExactSigned w t u s) : r.AgreesOn [fZ, fS, fPv] t := by
  have value : r.value = t.value :=
    BitVec.eq_of_toNat_eq (Int.natCast_inj.mp (first.value.trans second.value.symm))
  refine ⟨value, List.forall_mem_cons.mpr ⟨?_, List.forall_mem_cons.mpr ⟨?_,
    List.forall_mem_singleton.mpr ?_⟩⟩⟩
  · rw [Bool.eq_iff_iff, first.zero, second.zero, value]
  · rw [Bool.eq_iff_iff, first.sign, second.sign, value]
  · rw [Bool.eq_iff_iff, first.overflow, second.overflow]

/-- Results of one operation with a carry. -/
theorem Exact.agrees {w : Width} {r t : AluResult} {u s : Int} (first : Exact w r u s)
    (second : Exact w t u s) : r.AgreesOn [fC, fZ, fS, fPv] t := by
  obtain ⟨value, flags⟩ := first.toExactSigned.agrees second.toExactSigned
  refine ⟨value, List.forall_mem_cons.mpr ⟨?_, flags⟩⟩
  rw [Bool.eq_iff_iff, first.carry, second.carry]

/-- The result of `a + b + c`, with the flags of an addition. -/
structure IsSum (w : Width) (a b : Quad) (c : Bool) (r : AluResult) : Prop where
  exact : Exact w r (w.unsigned a + w.unsigned b + c.toNat) (w.signed a + w.signed b + c.toNat)
  half : w = .byte → (raised r.flags fH = true ↔ 16 ≤ a.toNat % 16 + b.toNat % 16 + c.toNat)
  decimal : w = .byte → raised r.flags fDa = false
  mask : r.mask = addMask w

/-- The result of `a - b - c`, with the flags of a subtraction. -/
structure IsDifference (w : Width) (a b : Quad) (c : Bool) (r : AluResult) : Prop where
  exact : Exact w r (w.unsigned a - w.unsigned b - c.toNat) (w.signed a - w.signed b - c.toNat)
  half : w = .byte → (raised r.flags fH = true ↔ a.toNat % 16 < b.toNat % 16 + c.toNat)
  decimal : w = .byte → raised r.flags fDa = true
  mask : r.mask = addMask w

theorem doAdd_isSum (a b : Quad) (c : Bool) (w : Width) : IsSum w a b c (doAdd a b c w) := by
  have flags : (doAdd a b c w).flags = flagWord _ _ _ _ _ false := (BitVec.or_zero).symm
  refine ⟨doAdd_exact a b c w, fun byte => ?_, fun _ => ?_, rfl⟩
  · obtain ⟨-, -, -, half⟩ := carryChain_width a b c w
    rw [flags, raised_half, half, BitVec.carry, decide_eq_true_eq, byte]
    simp [Width.bits]
  · rw [flags, raised_decimal]

theorem doSub_isDifference (a b : Quad) (c : Bool) (w : Width) :
    IsDifference w a b c (doSub a b c w) := by
  have flags : (doSub a b c w).flags = flagWord _ _ _ _ _ _ := rfl
  refine ⟨doSub_exact a b c w, fun byte => ?_, fun byte => ?_, rfl⟩
  · obtain ⟨-, -, -, half⟩ := carryChain_width a (w.trunc (~~~b)) (!c) w
    rw [w.setWidth_trunc, BitVec.setWidth_not w.bits_le,
      Adder.carry_not (by cases w <;> decide)] at half
    rw [flags, raised_half, half, byte]
    simp [Width.bits]
  · rw [flags, raised_decimal, byte]
    rfl

/-- The flags of the adder and the subtracter at every width; NEG is a subtraction from
zero, and INC and DEC are an addition and a subtraction that keep C, DA and H. -/
theorem aluExec_arithmetic (a b : Quad) (cin : Bool) (w : Width) :
    IsSum w a b false (aluExec .add a b cin w) ∧ IsSum w a b cin (aluExec .adc a b cin w) ∧
      IsDifference w a b false (aluExec .sub a b cin w) ∧
      IsDifference w a b false (aluExec .cp a b cin w) ∧
      IsDifference w a b cin (aluExec .sbc a b cin w) ∧
      (aluExec .neg a b cin w).AgreesOn [fC, fZ, fS, fPv] (aluExec .sub 0 a cin w) ∧
      (w = .long ∨
        (aluExec .inc a b cin w).AgreesOn [fZ, fS, fPv] (aluExec .add a b cin w) ∧
          (aluExec .dec a b cin w).AgreesOn [fZ, fS, fPv] (aluExec .sub a b cin w) ∧
          ∀ flag ∈ [fC, fDa, fH], raised (aluExec .inc a b cin w).mask flag = false ∧
            raised (aluExec .dec a b cin w).mask flag = false) := by
  refine ⟨doAdd_isSum a b false w, doAdd_isSum a b cin w, doSub_isDifference a b false w,
    doSub_isDifference a b false w, doSub_isDifference a b cin w, ?_, ?_⟩
  · have none : w.unsigned 0 = 0 ∧ w.signed 0 = 0 := by cases w <;> decide
    have subtracted := doSub_exact 0 a false w
    rw [none.1, none.2, Bool.toNat_false, Int.natCast_zero, Int.sub_zero, Int.sub_zero, Int.zero_sub,
      Int.zero_sub] at subtracted
    exact (doNeg_exact a w).agrees subtracted
  · by_cases long : w = .long
    · exact Or.inl long
    have added := (doAdd_exact a b false w).toExactSigned
    have subtracted := (doSub_exact a b false w).toExactSigned
    rw [Bool.toNat_false, Int.natCast_zero, Int.add_zero, Int.add_zero] at added
    rw [Bool.toNat_false, Int.natCast_zero, Int.sub_zero, Int.sub_zero] at subtracted
    have kept : ∀ flag ∈ [fC, fDa, fH], raised (fZ ||| fS ||| fPv) flag = false :=
      List.forall_mem_cons.mpr ⟨by decide, List.forall_mem_cons.mpr ⟨by decide,
        List.forall_mem_singleton.mpr (by decide)⟩⟩
    exact Or.inr ⟨(doInc_exact a b long).agrees added, (doDec_exact a b long).agrees subtracted,
      fun flag member => ⟨kept flag member, kept flag member⟩⟩

end C900
