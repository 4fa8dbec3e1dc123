import C900.Cpu.Calls
import C900.Cpu.Endless
import C900.Cpu.Lengths

/-!
# Words left over from earlier instructions

The instruction buffer keeps the words of earlier instructions behind those of the current
one. Every handler is run beside itself with other words left over: the two runs make the
same cycles and leave the same state but for the leftover words. `Passes` carries that through a
handler, and with it that the program counter stays behind the instruction unless the
instruction transfers control.
-/

namespace C900

/-! ## Other leftover words -/

/-- The words from `n` on replaced. -/
def Cpu.behind (c : Cpu) (n : Nat) (o : Fin 6 → Word) : Cpu :=
  { c with opcode := fun i => if i.val < n then c.opcode i else o i }

/-- The machine with the words from `n` on replaced. -/
def Machine.behind (m : Machine) (n : Nat) (o : Fin 6 → Word) : Machine :=
  { m with cpu := m.cpu.behind n o }

section Programs

variable {α β : Type} {n : Nat} {o : Fin 6 → Word} {falls : Prop}

/-- The program does the same on `m` with other leftover words; the program counter stays where
it is when `falls` holds. -/
structure Passes (n : Nat) (o : Fin 6 → Word) (falls : Prop) (x : Exec α) (m : Machine) : Prop where
  blind : x (m.behind n o) = ((x m).1, (x m).2.behind n o)
  pc : falls → (x m).2.cpu.pc = m.cpu.pc

namespace Passes

variable {x : Exec α} {m : Machine}

theorem pure (a : α) : Passes n o falls (Pure.pure a : Exec α) m := ⟨rfl, fun _ => rfl⟩

theorem bind {k : α → Exec β} (first : Passes n o falls x m)
    (rest : Passes n o falls (k (x m).1) (x m).2) : Passes n o falls (x >>= k) m := by
  refine ⟨?_, fun stays => (rest.pc stays).trans (first.pc stays)⟩
  rw [StateM.bind_apply, first.blind]
  exact rest.blind

/-- A program that looks at the processor goes on the same way with other leftover words. -/
theorem get {k : Cpu → Exec β} (same : k (m.cpu.behind n o) = k m.cpu)
    (rest : Passes n o falls (k m.cpu) m) : Passes n o falls (getCpu >>= k) m := by
  refine ⟨?_, rest.pc⟩
  show k (m.cpu.behind n o) (m.behind n o) = _
  rw [same]
  exact rest.blind

theorem modify {f : Cpu → Cpu} (blind : f (m.cpu.behind n o) = (f m.cpu).behind n o)
    (pc : falls → (f m.cpu).pc = m.cpu.pc) : Passes n o falls (modifyCpu f) m := by
  refine ⟨?_, pc⟩
  show ((), { m with cpu := f (m.cpu.behind n o) }) = _
  rw [blind]
  rfl

theorem ite {p : Prop} [Decidable p] {y : Exec α} (yes : p → Passes n o falls x m)
    (no : ¬ p → Passes n o falls y m) : Passes n o falls (if p then x else y) m := by
  split
  · exact yes ‹_›
  · exact no ‹_›

theorem readWord (a : Long) : Passes n o falls (memR16 a) m := ⟨rfl, fun _ => rfl⟩

theorem readByte (a : Long) : Passes n o falls (memR8 a) m := ⟨rfl, fun _ => rfl⟩

theorem writeWord (a : Long) (v : Word) : Passes n o falls (memW16 a v) m := ⟨rfl, fun _ => rfl⟩

theorem writeByte (a : Long) (v : Byte) : Passes n o falls (memW8 a v) m := ⟨rfl, fun _ => rfl⟩

theorem readWide (a : Long) (w : Width) : Passes n o falls (memReadW a w) m := by
  cases w with
  | byte => exact (readByte a).bind (pure _)
  | word => exact (readWord a).bind (pure _)
  | long => exact (readWord a).bind ((readWord _).bind (pure _))

theorem writeWide (a : Long) (v : Quad) (w : Width) : Passes n o falls (memWriteW a v w) m := by
  cases w with
  | byte => exact writeByte a _
  | word => exact writeWord a _
  | long => exact (writeWord a _).bind (writeWord _ _)

theorem readElement (w : CtrlWord) (a : Long) : Passes n o falls (memReadElement w a) m :=
  ite (fun _ => (readByte a).bind (pure _)) fun _ => readWord a

theorem writeElement (w : CtrlWord) (a : Long) (v : Word) :
    Passes n o falls (memWriteElement w a v) m :=
  ite (fun _ => writeByte a _) fun _ => writeWord a v

theorem guarded {body : Exec Unit} (inSystem : m.cpu.sysmode = true → Passes n o falls body m) :
    Passes n o falls (privileged body) m := by
  refine get rfl (ite inSystem fun _ => ?_)
  exact modify rfl fun _ => rfl

end Passes

end Programs

/-! ## The processor's part of the handlers -/

namespace Cpu

section

variable (c : Cpu) (w : CtrlWord) (j n : Nat) (o : Fin 6 → Word)

/-- A choice between two processors. -/
theorem choice_behind {p : Prop} [Decidable p] (x y : Cpu) :
    (if p then x else y).behind n o = if p then x.behind n o else y.behind n o := by
  split <;> rfl

/-! The registers and the modes do not depend on the words. -/

theorem rw_behind (r : Reg) : (c.behind n o).rw r = c.rw r := rfl

theorem rb_behind (r : Reg) : (c.behind n o).rb r = c.rb r := rfl

theorem addrFromReg_behind (r : Reg) : (c.behind n o).addrFromReg r = c.addrFromReg r := rfl

theorem reserveAddr_behind (r : Reg) (a : Long) :
    (c.behind n o).reserveAddr r a = c.reserveAddr r a := rfl

theorem choice_pc {p : Prop} [Decidable p] {x y : Cpu} {pc : Long} (yes : x.pc = pc)
    (no : y.pc = pc) : (if p then x else y).pc = pc := by
  split
  · exact yes
  · exact no

theorem wb_behind (r : Reg) (v : Byte) : (c.behind n o).wb r v = (c.wb r v).behind n o := by
  unfold wb
  split <;> rfl

theorem wb_pc (r : Reg) (v : Byte) : (c.wb r v).pc = c.pc := by
  unfold wb
  split <;> rfl

theorem writeReg_behind (r : Reg) (v : Quad) (width : Width) :
    (c.behind n o).writeReg r v width = (c.writeReg r v width).behind n o := by
  cases width with
  | byte => exact c.wb_behind n o r _
  | word | long => rfl

theorem writeReg_pc (r : Reg) (v : Quad) (width : Width) : (c.writeReg r v width).pc = c.pc := by
  cases width with
  | byte => exact c.wb_pc r _
  | word | long => rfl

theorem addrToReg_behind (r : Reg) (a : Long) :
    (c.behind n o).addrToReg r a = (c.addrToReg r a).behind n o := by
  unfold addrToReg
  rw [choice_behind]
  rfl

theorem addrToReg_pc (r : Reg) (a : Long) : (c.addrToReg r a).pc = c.pc := choice_pc rfl rfl

theorem reserve_behind (r : Reg) (a : Long) :
    (c.behind n o).reserve r a = (c.reserve r a).behind n o := by
  unfold reserve
  rw [choice_behind, ← addrToReg_behind]
  rfl

theorem reserve_pc (r : Reg) (a : Long) : (c.reserve r a).pc = c.pc :=
  choice_pc (c.addrToReg_pc r _) rfl

theorem release_behind (r : Reg) (a : Long) :
    (c.behind n o).release r a = (c.release r a).behind n o := by
  unfold release
  rw [choice_behind, ← addrToReg_behind]
  rfl

theorem release_pc (r : Reg) (a : Long) : (c.release r a).pc = c.pc :=
  choice_pc (c.addrToReg_pc r _) rfl

theorem changeFcw_behind (nf : Word) :
    (c.behind n o).changeFcw nf = (c.changeFcw nf).behind n o := by
  have same : (c.behind n o).fcw = c.fcw := rfl
  unfold changeFcw
  rw [same]
  dsimp only
  split_ifs <;> rfl

/-! The handlers that read the first word. -/

theorem unifiedCompute_behind (b : Quad) :
    (c.behind (j + 1) o).unifiedCompute w b = (c.unifiedCompute w b).behind (j + 1) o := by
  unfold unifiedCompute uregWrite
  dsimp only
  rw [choice_behind, ← writeReg_behind]
  rfl

theorem unifiedCompute_pc (b : Quad) : (c.unifiedCompute w b).pc = c.pc :=
  choice_pc (writeReg_pc _ _ _ _) rfl

/-- DJNZ and DBJNZ jump unless they count down to zero. -/
def counts (c : Cpu) : Bool :=
  let reg := nib1 (c.opcode 0)
  if c.opcode 0 &&& 0x0080 != 0 then c.rw reg - 1 != 0 else c.rb reg - 1 != 0

theorem djnz_behind : (c.behind (j + 1) o).djnz = c.djnz.behind (j + 1) o := by
  have op : (c.behind (j + 1) o).opcode 0 = c.opcode 0 := rfl
  have words : ∀ r, (c.behind (j + 1) o).rw r = c.rw r := fun _ => rfl
  have bytes : ∀ r, (c.behind (j + 1) o).rb r = c.rb r := fun _ => rfl
  unfold djnz
  simp only [op, words, bytes, wb_behind]
  split_ifs <;> rfl

theorem djnz_pc (still : c.counts = false) : c.djnz.pc = c.pc := by
  have run : ∀ (p : Bool) (d : Cpu) (a : Long), p = false → d.pc = c.pc →
      (if p then { d with pc := a } else d).pc = c.pc := fun p d a no kept => by
    rw [no]
    exact kept
  exact run c.counts _ _ still (choice_pc rfl (c.wb_pc _ _))

theorem multiply_behind (v : Quad) :
    (c.behind (j + 1) o).multiply w v = (c.multiply w v).behind (j + 1) o := by
  unfold multiply
  dsimp only
  rw [choice_behind]
  rfl

theorem multiply_pc (v : Quad) : (c.multiply w v).pc = c.pc := choice_pc rfl rfl

theorem signExtend_behind : (c.behind (j + 1) o).signExtend w = (c.signExtend w).behind (j + 1) o := by
  unfold signExtend
  cases w.width <;> rfl

theorem signExtend_pc : (c.signExtend w).pc = c.pc := by
  unfold signExtend
  cases w.width <;> rfl

theorem testCondition_behind :
    (c.behind (j + 1) o).testCondition w = (c.testCondition w).behind (j + 1) o := by
  unfold testCondition
  dsimp only
  rw [choice_behind, choice_behind, ← wb_behind]
  rfl

theorem testCondition_pc : (c.testCondition w).pc = c.pc :=
  choice_pc (choice_pc (c.wb_pc _ _) rfl) rfl

theorem decimalAdjust_behind :
    (c.behind (j + 1) o).decimalAdjust = c.decimalAdjust.behind (j + 1) o := by
  show ((c.behind (j + 1) o).wb _ _).applyFlags _ = _
  rw [wb_behind]
  rfl

theorem decimalAdjust_pc : c.decimalAdjust.pc = c.pc := c.wb_pc _ _

theorem divideBy_behind (dividend divisor half : Int) (store : Int → Int → Cpu → Cpu)
    (cut : Int → Bool) (stored : ∀ q r, store q r (c.behind n o) = (store q r c).behind n o) :
    (c.behind n o).divideBy dividend divisor half store cut =
      (c.divideBy dividend divisor half store cut).behind n o := by
  unfold divideBy
  dsimp only
  rw [choice_behind, choice_behind, choice_behind, stored]
  rfl

theorem divideBy_pc (dividend divisor half : Int) (store : Int → Int → Cpu → Cpu)
    (cut : Int → Bool) (stored : ∀ q r, (store q r c).pc = c.pc) :
    (c.divideBy dividend divisor half store cut).pc = c.pc :=
  choice_pc rfl (choice_pc (stored _ _) (choice_pc rfl (stored _ _)))

theorem divide_behind (v : Quad) :
    (c.behind (j + 1) o).divide w v = (c.divide w v).behind (j + 1) o := by
  unfold divide
  dsimp only
  rw [choice_behind]
  refine if_congr Iff.rfl ?_ ?_
  · exact c.divideBy_behind _ o _ _ _ _ _ fun q r => rfl
  · exact c.divideBy_behind _ o _ _ _ _ _ fun q r => rfl

theorem divide_pc (v : Quad) : (c.divide w v).pc = c.pc :=
  choice_pc (c.divideBy_pc _ _ _ _ _ fun _ _ => rfl) (c.divideBy_pc _ _ _ _ _ fun _ _ => rfl)

theorem digitRotate_behind : (c.behind (j + 1) o).digitRotate w = (c.digitRotate w).behind (j + 1) o := by
  show (((c.behind (j + 1) o).wb _ _).wb _ _).putFlag _ _ = _
  rw [wb_behind, wb_behind]
  rfl

theorem digitRotate_pc : (c.digitRotate w).pc = c.pc := (wb_pc _ _ _).trans (c.wb_pc _ _)

theorem fcwOperation_behind :
    (c.behind (j + 1) o).fcwOperation w = (c.fcwOperation w).behind (j + 1) o := by
  unfold fcwOperation
  cases w.fcwOp with
  | storeLo => exact c.wb_behind _ o _ _
  | _ => rfl

theorem fcwOperation_pc : (c.fcwOperation w).pc = c.pc := by
  unfold fcwOperation
  cases w.fcwOp with
  | storeLo => exact c.wb_pc _ _
  | _ => rfl

theorem ldctlWrite_behind : (c.behind (j + 1) o).ldctlWrite = c.ldctlWrite.behind (j + 1) o := by
  have op : (c.behind (j + 1) o).opcode 0 = c.opcode 0 := rfl
  unfold ldctlWrite
  rw [op]
  dsimp only
  generalize (c.opcode 0 &&& 0x07).toNat = control
  rcases control with _ | _ | _ | _ | _ | _ | _ | _ | control
  case succ.succ.zero => exact c.changeFcw_behind _ o _
  all_goals rfl

theorem ldctlWrite_pc : c.ldctlWrite.pc = c.pc := by
  unfold ldctlWrite
  dsimp only
  split
  · exact c.changeFcw_pc _
  all_goals rfl

theorem multiProc_behind : (c.behind n o).multiProc w = (c.multiProc w).behind n o := by
  unfold multiProc
  cases w.mpOp <;> rfl

theorem multiProc_pc : (c.multiProc w).pc = c.pc := by
  unfold multiProc
  cases w.mpOp <;> rfl

/-! The handlers that read the second word. -/

theorem shift_behind : (c.behind (j + 2) o).shift w = (c.shift w).behind (j + 2) o := by
  show ((c.behind (j + 2) o).writeReg _ _ _).applyFlags _ = _
  rw [writeReg_behind]
  rfl

theorem shift_pc : (c.shift w).pc = c.pc := c.writeReg_pc _ _ _

theorem bitDynamic_behind :
    (c.behind (j + 2) o).bitDynamic w = (c.bitDynamic w).behind (j + 2) o := by
  unfold bitDynamic
  dsimp only
  rw [choice_behind]
  refine if_congr Iff.rfl ?_ ?_
  · cases w.aluOp with
    | set | res => exact c.wb_behind _ o _ _
    | _ => rfl
  · cases w.aluOp <;> rfl

theorem bitDynamic_pc : (c.bitDynamic w).pc = c.pc := by
  refine choice_pc ?_ ?_
  · cases w.aluOp with
    | set | res => exact c.wb_pc _ _
    | _ => rfl
  · cases w.aluOp <;> rfl

theorem endTransfer_behind :
    (c.behind (j + 2) o).endTransfer w = (c.endTransfer w).behind (j + 2) o := rfl

theorem endCompare_behind (r : AluResult) (moved : Cpu → Cpu)
    (same : ∀ c : Cpu, moved (c.behind (j + 2) o) = (moved c).behind (j + 2) o) :
    (c.behind (j + 2) o).endCompare w r moved = (c.endCompare w r moved).behind (j + 2) o := by
  have flags : (c.behind (j + 2) o).applyFlags r = (c.applyFlags r).behind (j + 2) o := rfl
  unfold endCompare
  dsimp only
  rw [flags, same]
  rfl

theorem endCompare_pc (r : AluResult) (moved : Cpu → Cpu) (same : ∀ c, (moved c).pc = c.pc) :
    (c.endCompare w r moved).pc = c.pc := same (c.applyFlags r)

theorem endTranslate_behind (v : Byte) :
    (c.behind (j + 2) o).endTranslate w v = (c.endTranslate w v).behind (j + 2) o := by
  unfold endTranslate
  cases w.blockRept <;> rfl

theorem endTranslate_pc (v : Byte) : (c.endTranslate w v).pc = c.pc := by
  unfold endTranslate
  cases w.blockRept <;> rfl

theorem endTranslateTest_behind (v : Byte) :
    (c.behind (j + 2) o).endTranslateTest w v = (c.endTranslateTest w v).behind (j + 2) o := by
  unfold endTranslateTest
  rw [wb_behind]
  rfl

theorem endTranslateTest_pc (v : Byte) : (c.endTranslateTest w v).pc = c.pc := c.wb_pc _ _

end

end Cpu

/-! ## Operands -/

theorem SrcSel.one_le_wordsRead (s : SrcSel) (width : Width) (moved long : Bool) :
    1 ≤ s.wordsRead width moved long := by
  cases s with
  | da | x => exact Nat.le_of_succ_le (addressEnd_pos 1 long)
  | imm | imm2 => exact le_choice (fun _ => by decide) fun _ => by decide
  | _ => exact Nat.le_of_ble_eq_true rfl

theorem DstSel.one_le_wordsRead (d : DstSel) (long : Bool) : 1 ≤ d.wordsRead long := by
  cases d with
  | da | x => exact Nat.le_of_succ_le (addressEnd_pos 1 long)
  | _ => exact Nat.le_of_ble_eq_true rfl

namespace Cpu

/-- The address operand at word `idx` takes two words. -/
def longAddress (c : Cpu) (idx : Fin 6) : Bool := c.seg && c.opcode idx &&& 0x8000 != 0

section

variable {c : Cpu} {w : CtrlWord} {n : Nat} {o : Fin 6 → Word}

theorem release_longAddress (r : Reg) (a : Long) (idx : Fin 6) :
    (c.release r a).longAddress idx = c.longAddress idx := by
  unfold release addrToReg
  split_ifs <;> rfl

theorem opcode_behind {i : Fin 6} (within : i.val < n) :
    (c.behind n o).opcode i = c.opcode i := if_pos within

theorem segAddrOp_behind {idx : Fin 6} (within : addressEnd idx (c.longAddress idx) ≤ n) :
    (c.behind n o).segAddrOp idx = c.segAddrOp idx := by
  have next : ∀ i : Fin 6, (i + 1).val ≤ i.val + 1 := by decide
  have atLeast : idx.val < n := by
    unfold addressEnd at within
    split at within <;> omega
  have here := opcode_behind atLeast (c := c) (o := o)
  cases form : c.seg with
  | false =>
    have nonseg : (c.behind n o).seg = false := form
    simp only [segAddrOp, form, nonseg, Bool.false_eq_true, if_false, here]
    rfl
  | true =>
    have segmented : (c.behind n o).seg = true := form
    simp only [segAddrOp, form, segmented, if_true, here]
    cases long : c.opcode idx &&& 0x8000 != 0 with
    | false => rfl
    | true =>
      have both : c.longAddress idx = true := by rw [longAddress, form, long]; rfl
      rw [both] at within
      have more : (idx + 1).val < n := by
        have step := next idx
        have two : addressEnd idx true = idx.val + 2 := rfl
        omega
      rw [opcode_behind more]

theorem first_behind (one : 1 ≤ n) : (c.behind n o).opcode 0 = c.opcode 0 :=
  opcode_behind (show (0 : Fin 6).val < n from one)

theorem second_behind (two : 2 ≤ n) : (c.behind n o).opcode 1 = c.opcode 1 :=
  opcode_behind (show (1 : Fin 6).val < n from two)

theorem third_behind (three : 3 ≤ n) : (c.behind n o).opcode 2 = c.opcode 2 :=
  opcode_behind (show (2 : Fin 6).val < n from three)

theorem fourth_behind (four : 4 ≤ n) : (c.behind n o).opcode 3 = c.opcode 3 :=
  opcode_behind (show (3 : Fin 6).val < n from four)

theorem unib_behind (one : 1 ≤ n) (s : RegSel) : (c.behind n o).unib s = c.unib s := by
  have first := @first_behind c n o one
  cases s <;> simp only [unib, first]

/-- The address of a source operand. -/
theorem usrcAddr_behind {moved : Bool}
    (within : w.src2.wordsRead w.width moved (c.longAddress 1) ≤ n) :
    (c.behind n o).usrcAddr w = c.usrcAddr w := by
  have one : 1 ≤ n := Nat.le_trans (w.src2.one_le_wordsRead _ _ _) within
  have registers := @unib_behind c n o one
  unfold usrcAddr
  cases form : w.src2 with
  | ir => exact congrArg c.addrFromReg (registers _)
  | da =>
    rw [form] at within
    exact segAddrOp_behind within
  | x =>
    rw [form] at within
    simp only [@segAddrOp_behind c n o 1 within, registers]
    rfl
  | pcRel | based | bx =>
    rw [form] at within
    simp only [bxIndex, @second_behind c n o within, registers]
    rfl
  | _ => rfl

/-- The address of a destination operand. -/
theorem udstAddr_behind (within : w.dst.wordsRead (c.longAddress 1) ≤ n) :
    (c.behind n o).udstAddr w = c.udstAddr w := by
  have one : 1 ≤ n := Nat.le_trans (w.dst.one_le_wordsRead _) within
  have registers := @unib_behind c n o one
  unfold udstAddr
  cases form : w.dst with
  | ir => exact congrArg c.addrFromReg (registers _)
  | da =>
    rw [form] at within
    exact segAddrOp_behind within
  | x =>
    rw [form] at within
    simp only [@segAddrOp_behind c n o 1 within, registers]
    rfl
  | pcRel | based | bx =>
    rw [form] at within
    simp only [bxIndex, @second_behind c n o within, registers]
    rfl
  | _ => rfl

/-- The value of a source operand. -/
theorem ureadSrc2_behind {s : SrcSel}
    (within : s.wordsRead w.width c.segW1 (c.longAddress 1) ≤ n) :
    (c.behind n o).ureadSrc2 w s = c.ureadSrc2 w s := by
  have one : 1 ≤ n := Nat.le_trans (s.one_le_wordsRead _ _ _) within
  have first := @first_behind c n o one
  unfold ureadSrc2
  cases s with
  | reg => exact congrArg (c.readReg · w.width) (unib_behind one _)
  | imm =>
    cases width : w.width with
    | byte | word =>
      rw [width] at within
      simp only [@second_behind c n o within]
    | long =>
      rw [width] at within
      simp only [@second_behind c n o (Nat.le_of_succ_le within), @third_behind c n o within]
  | imm2 =>
    have three : 3 ≤ n := Nat.le_trans (by unfold SrcSel.wordsRead; dsimp only; split <;> decide) within
    have second := @second_behind c n o (Nat.le_of_succ_le three)
    have third := @third_behind c n o three
    simp only [second]
    cases place : c.segW1 && c.seg && c.opcode 1 &&& 0x8000 != 0 with
    | false =>
      have same : ((c.behind n o).segW1 && (c.behind n o).seg && c.opcode 1 &&& 0x8000 != 0) =
          false := place
      simp only [same, Bool.false_eq_true, if_false, third]
    | true =>
      have same : ((c.behind n o).segW1 && (c.behind n o).seg && c.opcode 1 &&& 0x8000 != 0) =
          true := place
      have long : (c.segW1 && c.longAddress 1) = true := by
        rw [longAddress, ← Bool.and_assoc]
        exact place
      have four : 4 ≤ n := by
        have words : SrcSel.imm2.wordsRead w.width c.segW1 (c.longAddress 1) = 4 := if_pos long
        rwa [words] at within
      simp only [same, if_true, @fourth_behind c n o four]
  | nib3Cnt | nib3Bit | nib3CntPlus1 | opLoByte => simp only [first]
  | _ => rfl

/-- The result on a memory operand. -/
theorem memoryResult_behind (within : w.count.wordsRead w.width c.segW1 (c.longAddress 1) ≤ n)
    (b : Quad) : (c.behind n o).memoryResult w b = c.memoryResult w b := by
  unfold memoryResult
  rw [ureadSrc2_behind within]
  rfl

end

end Cpu

end C900
