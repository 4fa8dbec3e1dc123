import C900.Cpu.Registers

/-!
# Segmented addresses

The two address forms as a pair of words. The internal form is the segment number
over the offset, and address arithmetic works on the offset alone; the register
form has the segment in bits 14 to 8 of its high word.
-/

namespace C900

/-- The internal address of an offset in the segment that the high word of a
register pair names. -/
def internalAddr (hi lo : Word) : Long := ((hi >>> 8) &&& 0x7F) ++ lo

/-- The segment bits of the high word of a register pair. -/
def segmentBits : Word := 0x7F00

/-! ## Halves -/

theorem append_bit (s o : Word) (i : Nat) : @BitVec.getLsbD 32 (s ++ o) i =
    if i < 16 then o.getLsbD i else s.getLsbD (i - 16) := BitVec.getLsbD_append

theorem long_halves (a : Long) : a = (a >>> 16).setWidth 16 ++ a.setWidth 16 := by
  apply BitVec.eq_of_getLsbD_eq
  intro i bound
  rw [append_bit]
  by_cases small : i < 16
  · simp [small]
  · have shifted : 16 + (i - 16) = i := by omega
    have inHigh : i - 16 < 16 := by omega
    simp [small, shifted, inHigh]

@[simp] theorem high_append (s o : Word) : ((s ++ o : Long) >>> 16).setWidth 16 = s := by
  apply BitVec.eq_of_getLsbD_eq
  intro i bound
  rw [BitVec.getLsbD_setWidth, BitVec.getLsbD_ushiftRight, append_bit]
  simp [bound]

@[simp] theorem low_append (s o : Word) : (s ++ o : Long).setWidth 16 = o := by
  apply BitVec.eq_of_getLsbD_eq
  intro i bound
  rw [BitVec.getLsbD_setWidth, append_bit]
  simp [bound]

/-- The mask idiom of the source: one half of each word. -/
theorem splice_append (s o t p : Word) :
    (((s ++ o : Long) &&& 0xFFFF0000) ||| ((t ++ p : Long) &&& 0xFFFF) : Long) = s ++ p := by
  have high : ∀ i : Fin 32, (0xFFFF0000 : Long).getLsbD i = decide (16 ≤ i.val) := by decide
  have low : ∀ i : Fin 32, (0xFFFF : Long).getLsbD i = decide (i.val < 16) := by decide
  apply BitVec.eq_of_getLsbD_eq
  intro i bound
  have highBit := high ⟨i, bound⟩
  have lowBit := low ⟨i, bound⟩
  dsimp only at highBit lowBit
  simp only [BitVec.getLsbD_or, BitVec.getLsbD_and, append_bit, highBit, lowBit]
  by_cases small : i < 16
  · have below : ¬ 16 ≤ i := by omega
    simp [small, below]
  · have above : 16 ≤ i := by omega
    simp [small, above]

/-! ## Arithmetic -/

@[simp] theorem addrAdd_append (s o : Word) (n : Long) :
    addrAdd (s ++ o) n = s ++ (o + n.setWidth 16) := by
  have low : ((s ++ o : Long) + n).setWidth 16 = o + n.setWidth 16 := by
    rw [BitVec.setWidth_add _ _ (by decide), low_append]
  unfold addrAdd
  rw [long_halves ((s ++ o : Long) + n), splice_append, low]

@[simp] theorem addrSub_append (s o : Word) (n : Long) :
    addrSub (s ++ o) n = s ++ (o - n.setWidth 16) := by
  have low : ((s ++ o : Long) - n).setWidth 16 = o - n.setWidth 16 := by
    rw [BitVec.sub_eq_add_neg, BitVec.setWidth_add _ _ (by decide),
      BitVec.setWidth_neg_of_le (by decide), low_append, BitVec.sub_eq_add_neg]
  unfold addrSub
  rw [long_halves ((s ++ o : Long) - n), splice_append, low]

/-! ## Register pairs -/

namespace Cpu

variable (c : Cpu)

theorem pair_ne (r : Reg) : pairReg r ≠ pairReg r + 1 := by
  revert r
  decide

/-- A register pair reads what was written to it. -/
theorem wl_rl (r : Reg) (v : Long) : (c.wl r v).rl r = v := by
  unfold wl rl
  rw [setR_R, setR_R_of_ne _ (pair_ne r), setR_R]
  exact (long_halves v).symm

/-- A write to another register pair does not change it. -/
theorem wl_rl_of_ne {r s : Reg} (other : pairReg r ≠ pairReg s) (v : Long) :
    (c.wl s v).rl r = c.rl r := by
  have apart : ∀ r s : Reg, pairReg r ≠ pairReg s → pairReg r ≠ pairReg s + 1 ∧
      pairReg r + 1 ≠ pairReg s ∧ pairReg r + 1 ≠ pairReg s + 1 := by decide
  obtain ⟨one, two, three⟩ := apart r s other
  unfold wl rl
  rw [setR_R_of_ne _ one, setR_R_of_ne _ other, setR_R_of_ne _ three, setR_R_of_ne _ two]

end Cpu

/-! ## The two forms -/

theorem segAddr_append (hi lo : Word) : segAddr (hi ++ lo) = internalAddr hi lo := by
  have segment : ∀ i : Fin 40,
      (0x7F000000 : Long).getLsbD i = (decide (24 ≤ i.val) && decide (i.val < 31)) := by decide
  have low : ∀ i : Fin 32, (0xFFFF : Long).getLsbD i = decide (i.val < 16) := by decide
  have seven : ∀ i : Fin 32, (0x7F : Word).getLsbD i = decide (i.val < 7) := by decide
  apply BitVec.eq_of_getLsbD_eq
  intro i bound
  have segmentBit := segment ⟨8 + i, by omega⟩
  have lowBit := low ⟨i, bound⟩
  have sevenBit := seven ⟨i - 16, by omega⟩
  dsimp only at segmentBit lowBit sevenBit
  unfold segAddr internalAddr
  simp only [BitVec.getLsbD_or, BitVec.getLsbD_and, BitVec.getLsbD_ushiftRight, append_bit,
    segmentBit, lowBit, sevenBit]
  by_cases small : i < 16
  · have none : ¬ 24 ≤ 8 + i := by omega
    simp [small, none]
  · have above : ¬ 8 + i < 16 := by omega
    have place : 8 + i - 16 = 8 + (i - 16) := by omega
    have start : 24 ≤ 8 + i := by omega
    have stop : 8 + i < 31 ↔ i - 16 < 7 := by omega
    simp [small, above, place, start, stop]

/-- The register form keeps the segment number and the offset. -/
theorem segAddr_makeSeg (a : Long) : segAddr (makeSeg a) = a &&& 0x7FFFFF := by
  have segment : ∀ i : Fin 40, (0x7F000000 : Long).getLsbD i =
      (decide (24 ≤ i.val) && decide (i.val < 31)) := by decide
  have number : ∀ i : Fin 40, (0x7F0000 : Long).getLsbD i =
      (decide (16 ≤ i.val) && decide (i.val < 23)) := by decide
  have flag : ∀ i : Fin 40, (0x80000000 : Long).getLsbD i = decide (i.val = 31) := by decide
  have low : ∀ i : Fin 40, (0xFFFF : Long).getLsbD i = decide (i.val < 16) := by decide
  have whole : ∀ i : Fin 32, (0x7FFFFF : Long).getLsbD i = decide (i.val < 23) := by decide
  apply BitVec.eq_of_getLsbD_eq
  intro i bound
  have segmentBit := segment ⟨8 + i, by omega⟩
  have numberBit := number ⟨i, by omega⟩
  have numberBelow := number ⟨i - 8, by omega⟩
  have flagHere := flag ⟨i, by omega⟩
  have flagAbove := flag ⟨8 + i, by omega⟩
  have lowHere := low ⟨i, by omega⟩
  have lowAbove := low ⟨8 + i, by omega⟩
  have wholeBit := whole ⟨i, bound⟩
  dsimp only at segmentBit numberBit numberBelow flagHere flagAbove lowHere lowAbove wholeBit
  have back : 8 + i - 8 = i := by omega
  unfold segAddr makeSeg
  simp only [BitVec.getLsbD_or, BitVec.getLsbD_and, BitVec.getLsbD_ushiftRight,
    BitVec.getLsbD_shiftLeft, back, segmentBit, numberBit, numberBelow, flagHere, flagAbove, lowHere,
    lowAbove, wholeBit]
  by_cases small : i < 16
  · have below : ¬ 24 ≤ 8 + i := by omega
    have other : ¬ i = 31 := by omega
    have inside : i < 23 := by omega
    have notNumber : ¬ 16 ≤ i - 8 := by omega
    simp [small, below, other, inside, notNumber]
  · have start : 24 ≤ 8 + i := by omega
    have above : 16 ≤ i := by omega
    by_cases inside : i < 23
    · have stop : 8 + i < 31 := by omega
      have room : 8 + i < 32 := by omega
      have notLow : ¬ 8 + i < 16 := by omega
      have other : ¬ 8 + i = 31 := by omega
      simp [small, start, above, inside, stop, room, notLow, other]
    · have stop : ¬ 8 + i < 31 := by omega
      simp [small, inside, stop]

/-- A register pair that takes an internal address gets the bare segment bits. -/
theorem segmentBits_internalAddr (hi lo : Word) :
    ((internalAddr hi lo) >>> 8).setWidth 16 &&& 0x7F00 = hi &&& segmentBits := by
  have bits : ∀ i : Fin 16, (0x7F00 : Word).getLsbD i =
      (decide (8 ≤ i.val) && decide (i.val < 15)) := by decide
  have seven : ∀ i : Fin 16, (0x7F : Word).getLsbD i = decide (i.val < 7) := by decide
  apply BitVec.eq_of_getLsbD_eq
  intro i bound
  have bit := bits ⟨i, bound⟩
  have sevenBit := seven ⟨i - 8, by omega⟩
  dsimp only at bit sevenBit
  have place : 8 + i - 16 = i - 8 := by omega
  unfold internalAddr segmentBits
  simp only [BitVec.getLsbD_and, BitVec.getLsbD_setWidth, BitVec.getLsbD_ushiftRight, append_bit,
    bit, place, sevenBit]
  by_cases high : 8 ≤ i
  · have above : ¬ 8 + i < 16 := by omega
    have same : 8 + (i - 8) = i := by omega
    have stop : i - 8 < 7 ↔ i < 15 := by omega
    simp [bound, high, above, same, stop]
  · simp [high]

/-- An address in a segment moves by its offset. -/
theorem addrSub_internalAddr (hi lo : Word) (n : Long) :
    addrSub (internalAddr hi lo) n = internalAddr hi (lo - n.setWidth 16) := addrSub_append _ _ _

theorem addrAdd_internalAddr (hi lo : Word) (n : Long) :
    addrAdd (internalAddr hi lo) n = internalAddr hi (lo + n.setWidth 16) := addrAdd_append _ _ _

/-! ## The system stack -/

namespace Cpu

variable (c : Cpu)

/-- The address in the pair R14 and R15. -/
theorem addrFromReg_stack (form : c.seg = true) :
    c.addrFromReg 14 = internalAddr (c.rw 14) (c.rw 15) := by
  rw [addrFromReg, if_pos form]
  exact segAddr_append _ _

/-- Moving the stack pointer: R14 keeps its segment bits, R15 is the new offset. -/
theorem addrToReg_stack (form : c.seg = true) (hi lo : Word) :
    c.addrToReg 14 (internalAddr hi lo) = (c.ww 14 (hi &&& segmentBits)).ww 15 lo := by
  rw [addrToReg, if_pos form, segmentBits_internalAddr]
  have low : (internalAddr hi lo).setWidth 16 = lo := low_append _ _
  rw [low]
  rfl

end Cpu

end C900
