import C900.Cpu.Pointers

/-!
# Instructions from their fields

`instruction` puts an opcode byte and two register numbers together, and the decoder takes them
apart again. The fetch of such a word changes the program counter, inside its segment, and none
of the registers.
-/

namespace C900

/-! ## Instruction words -/

/-- An instruction word: the opcode byte, nibble 2 and nibble 3. -/
def instruction (hi : Byte) (n2 n3 : Reg) : Word := hi ++ (n2 ++ n3)

namespace Instruction

variable (hi : Byte) (n2 n3 : Reg)

theorem bit (i : Nat) : (instruction hi n2 n3).getLsbD i =
    if i < 8 then (if i < 4 then n3.getLsbD i else n2.getLsbD (i - 4)) else hi.getLsbD (i - 8) := by
  have outer : @BitVec.getLsbD 16 (hi ++ (n2 ++ n3)) i =
      if i < 8 then @BitVec.getLsbD 8 (n2 ++ n3) i else hi.getLsbD (i - 8) := BitVec.getLsbD_append
  have inner : @BitVec.getLsbD 8 (n2 ++ n3) i =
      if i < 4 then n3.getLsbD i else n2.getLsbD (i - 4) := BitVec.getLsbD_append
  rw [instruction, outer, inner]

theorem nib2_eq : nib2 (instruction hi n2 n3) = n2 := by
  apply BitVec.eq_of_getLsbD_eq
  intro i bound
  have inside : 4 + i < 8 := by omega
  have above : ¬4 + i < 4 := by omega
  rw [nib2, BitVec.getLsbD_setWidth, BitVec.getLsbD_ushiftRight, bit]
  simp [bound, inside]

theorem nib3_eq : nib3 (instruction hi n2 n3) = n3 := by
  apply BitVec.eq_of_getLsbD_eq
  intro i bound
  have inside : i < 8 := by omega
  rw [nib3, BitVec.getLsbD_setWidth, bit]
  simp [bound, inside]

theorem opcode_eq : (instruction hi n2 n3 >>> 8).toNat = hi.toNat := by
  have high : instruction hi n2 n3 >>> 8 = hi.setWidth 16 := by
    apply BitVec.eq_of_getLsbD_eq
    intro i bound
    have above : ¬8 + i < 8 := by omega
    have place : 8 + i - 8 = i := by omega
    rw [BitVec.getLsbD_ushiftRight, bit, if_neg above, place, BitVec.getLsbD_setWidth]
    simp [bound]
  rw [high, BitVec.toNat_setWidth]
  exact Nat.mod_eq_of_lt (Nat.lt_trans hi.isLt (by decide))

/-- The PC-relative and based forms have one operand word. -/
theorem length_relative (low : 0x30 ≤ hi.toNat) (high : hi.toNat ≤ 0x37) (segmented : Bool) :
    decodeLength (instruction hi n2 n3) segmented = 2 := by
  unfold decodeLength
  rw [opcode_eq]
  rw [if_neg (show ¬hi.toNat ≤ 0x0B by omega), if_neg (show ¬(hi.toNat = 0x0C ∨ hi.toNat = 0x0D) by omega),
    if_neg (show ¬(0x10 ≤ hi.toNat ∧ hi.toNat ≤ 0x17) by omega),
    if_neg (show ¬(hi.toNat = 0x18 ∨ hi.toNat = 0x1A) by omega),
    if_neg (show ¬(hi.toNat = 0x19 ∨ hi.toNat = 0x1B) by omega),
    if_neg (show ¬hi.toNat = 0x1C by omega),
    if_neg (show ¬(0x20 ≤ hi.toNat ∧ hi.toNat ≤ 0x27) by omega), if_pos ⟨low, high⟩]

variable {hi} {n2 n3} {n : Nat} {zero nonzero : CtrlWord} (next : Word)

/-- A slot with one control word. -/
theorem decode_ctrl (slot : rom.lookup hi.toNat = some (.ctrl nonzero)) :
    decodeLookup (instruction hi n2 n3) next n = some nonzero := by
  rw [decodeLookup, opcode_eq, slot]
  rfl

/-- A slot that looks at nibble 2. -/
theorem decode_fork2 (slot : rom.lookup hi.toNat = some (.fork2 zero nonzero)) :
    decodeLookup (instruction hi n2 n3) next n = some (if n2 = 0 then zero else nonzero) := by
  rw [decodeLookup, opcode_eq, slot]
  show (subNib2fork (instruction hi n2 n3) next n).bind (List.lookup · [(0, zero), (1, nonzero)]) = _
  rw [subNib2fork, nib2_eq]
  split_ifs <;> rfl

/-- A slot that looks at nibble 3. -/
theorem decode_fork3 (slot : rom.lookup hi.toNat = some (.fork3 zero nonzero)) :
    decodeLookup (instruction hi n2 n3) next n = some (if n3 = 0 then zero else nonzero) := by
  rw [decodeLookup, opcode_eq, slot]
  show (subNib3fork (instruction hi n2 n3) next n).bind (List.lookup · [(0, zero), (1, nonzero)]) = _
  rw [subNib3fork, nib3_eq]
  split_ifs <;> rfl

end Instruction

/-- The words of an instruction: its first word, then its operand words. -/
def codeWords (op : Word) (operands : Fin 6 → Word) : Fin 6 → Word := Function.update operands 0 op

/-! ## The processor behind a fetch -/

namespace Cpu

variable (c : Cpu) (words : Fin 6 → Word)

theorem fetchedWith_segmentHalf : segmentHalf (c.fetchedWith words).pc = segmentHalf c.pc :=
  segmentHalf_addrAdd _ _

theorem segOf_half {a b : Long} (same : segmentHalf a = segmentHalf b) : segOf a = segOf b := by
  rw [segOf_high, segOf_high]
  exact congrArg (fun s : Word => (s &&& 0x7F).setWidth 8) same

theorem fetchedWith_segOf : segOf (c.fetchedWith words).pc = segOf c.pc :=
  segOf_half (c.fetchedWith_segmentHalf words)

theorem fetchedWith_pcSegment : (c.fetchedWith words).pcSegment = c.pcSegment := by
  rw [pcSegment, segmentPart, fetchedWith_segmentHalf, ← segmentPart, pcSegment]

/-- The offset behind an instruction of two words. -/
theorem fetchedWith_offOf (two : decodeLength (words 0) c.seg = 2) :
    offOf (c.fetchedWith words).pc = offOf c.pc + 4 := by
  have length : (c.fetchedWith words).oplen = 2 := by
    show Cpu.reduceLength _ (decodeLength (words 0) c.seg) = 2
    rw [two]
    rfl
  have next : (c.fetchedWith words).pc =
      addrAdd c.pc (BitVec.ofNat 32 ((c.fetchedWith words).oplen * 2)) := rfl
  rw [next, length, offOf_addrAdd]
  rfl

end Cpu

/-- An instruction that decodes runs its handler. -/
theorem Machine.perform_decoded (m : Machine) {words : Fin 6 → Word} {w : CtrlWord}
    (decoded : ∀ n, decodeLookup (words 0) (words 1) n = some w) :
    m.perform words = (execute w { m with cpu := m.cpu.fetchedWith words }).2 := by
  have known : m.cpu.decodedWith words = some w := decoded _
  rw [Machine.perform, known]

end C900
