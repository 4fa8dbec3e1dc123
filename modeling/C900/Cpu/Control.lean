import C900.Cpu.Execute

/-!
# The control state

What the operating system owns of the processor: the control byte of the flag and
control word, the control registers and the halted flag. No register access, flag
update or pointer update reaches it. The wish to repeat is kept with it, for the
instructions that never express one.
-/

namespace C900

/-- The processor state that only privileged instructions change, and the wish to
repeat. -/
structure ControlState where
  modes : Word
  psap : Long
  refresh : Word
  nspseg : Word
  nspoff : Word
  halted : Bool
  repeating : Bool

/-- Bits 15 to 8 of the flag and control word. -/
def controlByte : Word := 0xFF00

namespace Cpu

/-- The control state of a processor. Under a repeating instruction (`rept`) the
wish to repeat is left out. -/
def control (rept : Bool) (c : Cpu) : ControlState where
  modes := c.fcw &&& controlByte
  psap := c.psap
  refresh := c.refresh
  nspseg := c.nspseg
  nspoff := c.nspoff
  halted := c.halted
  repeating := c.repeatPending && !rept

variable {rept : Bool}

theorem control_hidden {c d : Cpu} (same : c.control rept = d.control rept) :
    c.control true = d.control true := by
  simp only [control, ControlState.mk.injEq] at same
  simp only [control, same, Bool.not_true, Bool.and_false]

/-- The processor mode is part of the control state. -/
theorem sysmode_of_control {c d : Cpu} (same : c.control rept = d.control rept) :
    c.sysmode = d.sysmode := by
  have modes : c.fcw &&& controlByte = d.fcw &&& controlByte := congrArg ControlState.modes same
  have mode : ∀ v : Word, v &&& fcwSn = v &&& controlByte &&& fcwSn := fun v => by
    rw [BitVec.and_assoc, show controlByte &&& fcwSn = fcwSn by decide]
  rw [sysmode, sysmode, mode c.fcw, mode d.fcw, modes]

/-- So is the address form. -/
theorem seg_of_control {c d : Cpu} (same : c.control rept = d.control rept) :
    c.seg = d.seg := by
  have modes : c.fcw &&& controlByte = d.fcw &&& controlByte := congrArg ControlState.modes same
  have form : ∀ v : Word, v &&& fcwSeg = v &&& controlByte &&& fcwSeg := fun v => by
    rw [BitVec.and_assoc, show controlByte &&& fcwSeg = fcwSeg by decide]
  rw [seg, seg, form c.fcw, form d.fcw, modes]

/-! ## Registers -/

section

variable (c : Cpu) (r : Reg)

@[simp] theorem setR_control (v : Word) : (c.setR r v).control rept = c.control rept := rfl

@[simp] theorem ww_control (v : Word) : (c.ww r v).control rept = c.control rept := rfl

@[simp] theorem wb_control (v : Byte) : (c.wb r v).control rept = c.control rept := by
  unfold wb
  split <;> rfl

@[simp] theorem wl_control (v : Long) : (c.wl r v).control rept = c.control rept := rfl

@[simp] theorem wq_control (v : Quad) : (c.wq r v).control rept = c.control rept := rfl

@[simp] theorem writeReg_control (v : Quad) (w : Width) :
    (c.writeReg r v w).control rept = c.control rept := by
  cases w with
  | byte => exact c.wb_control r _
  | word | long => rfl

@[simp] theorem addrToReg_control (a : Long) :
    (c.addrToReg r a).control rept = c.control rept := by
  unfold addrToReg
  split <;> rfl

@[simp] theorem addToAddrReg_control (d : Word) :
    (c.addToAddrReg r d).control rept = c.control rept := rfl

@[simp] theorem reserve_control (n : Long) :
    (c.reserve r n).control rept = c.control rept := by
  unfold reserve
  split
  · exact c.addrToReg_control r _
  · rfl

@[simp] theorem release_control (n : Long) :
    (c.release r n).control rept = c.control rept := by
  unfold release
  split
  · exact c.addrToReg_control r _
  · rfl

@[simp] theorem uregWrite_control (s : RegSel) (v : Quad) (w : Width) :
    (c.uregWrite s v w).control rept = c.control rept := c.writeReg_control _ v w

@[simp] theorem request_control (bits : Byte) :
    (c.request bits).control rept = c.control rept := rfl

@[simp] theorem countDown_control : c.countDown.control rept = c.control rept := rfl

@[simp] theorem repeatIf_control (again : Bool) :
    (c.repeatIf (rept && again)).control rept = c.control rept := by
  cases rept with
  | true => simp [control, repeatIf]
  | false => simp [control, repeatIf]

@[simp] theorem jumpIf_control (target : Long) :
    (c.jumpIf r target).control rept = c.control rept := by
  unfold jumpIf
  split <;> rfl

end

/-! ## Flags -/

/-- A word keeps its control byte when only condition flags change. -/
theorem merge_controlByte (fcw flags mask : Word) (low : OnlyConditionFlags mask) :
    ((fcw &&& ~~~mask) ||| (flags &&& mask)) &&& controlByte = fcw &&& controlByte := by
  have outside : mask &&& controlByte = 0 := by
    have inside : mask &&& controlByte &&& ~~~conditionFlags = 0 := by
      rw [BitVec.and_assoc, BitVec.and_comm controlByte, ← BitVec.and_assoc, low]
      exact BitVec.zero_and
    have byte : controlByte &&& ~~~conditionFlags = controlByte := by decide
    rwa [BitVec.and_assoc, byte] at inside
  have kept : ~~~mask &&& controlByte = controlByte := by
    have bits : ∀ i, (mask &&& controlByte).getLsbD i = false := fun i => by rw [outside]; simp
    ext i bound
    have bit := bits i
    simp only [BitVec.getLsbD_eq_getElem bound, BitVec.getElem_and, BitVec.getElem_not] at bit ⊢
    revert bit
    cases mask[i] <;> cases controlByte[i] <;> simp
  rw [BitVec.and_or_distrib_right, BitVec.and_assoc, kept, BitVec.and_assoc, outside]
  simp

theorem mergeFlags_control (c : Cpu) (flags mask : Word) (low : OnlyConditionFlags mask) :
    (c.mergeFlags flags mask).control rept = c.control rept := by
  simp only [control, mergeFlags, merge_controlByte _ _ _ low]

@[simp] theorem applyFlags_control (c : Cpu) (op : AluOp) (a b : Quad) (carryIn : Bool)
    (w : Width) : (c.applyFlags (aluExec op a b carryIn w)).control rept = c.control rept :=
  c.mergeFlags_control _ _ (aluExec_condition ..)

/-- Setting or clearing a flag is a merge of that flag. -/
theorem putFlag_eq (c : Cpu) (flag : Word) (p : Bool) :
    c.putFlag flag p = c.mergeFlags (flagIf p flag) flag := by
  cases p with
  | false => simp [putFlag, mergeFlags, flagIf]
  | true =>
    have merged : c.fcw ||| flag = (c.fcw &&& ~~~flag) ||| (flag &&& flag) := by
      ext i
      simp only [BitVec.getElem_or, BitVec.getElem_and, BitVec.getElem_not]
      cases c.fcw[i] <;> cases flag[i] <;> rfl
    simp only [putFlag, mergeFlags, flagIf, if_true, merged]

theorem putFlag_control (c : Cpu) (flag : Word) (p : Bool) (low : OnlyConditionFlags flag) :
    (c.putFlag flag p).control rept = c.control rept := by
  rw [putFlag_eq, c.mergeFlags_control _ _ low]

end Cpu

/-! ## Handlers on the processor alone -/

namespace Cpu

theorem mulDivMask_condition : OnlyConditionFlags mulDivMask := by decide

theorem fZ_condition : OnlyConditionFlags fZ := by decide

theorem fPv_condition : OnlyConditionFlags fPv := by decide

variable (c : Cpu) (w : CtrlWord)

theorem unifiedCompute_control (b : Quad) :
    (c.unifiedCompute w b).control rept = c.control rept := by
  dsimp only [unifiedCompute]
  split
  · rw [uregWrite_control, applyFlags_control]
  · rw [applyFlags_control]

theorem djnz_control : c.djnz.control rept = c.control rept := by
  have moved : ∀ (p : Bool) (d : Cpu) (a : Long),
      (if p then { d with pc := a } else d).control rept = d.control rept := by
    intro p d a
    cases p <;> rfl
  have counted : ∀ (p : Bool) (r s : Reg) (u : Word) (v : Byte),
      (if p then c.ww r u else c.wb s v).control rept = c.control rept := by
    intro p r s u v
    cases p with
    | false => exact c.wb_control s v
    | true => rfl
  exact (moved _ _ _).trans (counted _ _ _ _ _)

theorem multiply_control (v : Quad) : (c.multiply w v).control rept = c.control rept := by
  dsimp only [multiply]
  split
  · rw [mergeFlags_control _ _ _ mulDivMask_condition, wl_control]
  · rw [mergeFlags_control _ _ _ mulDivMask_condition, wq_control]

theorem divideBy_control (dividend divisor half : Int) (store : Int → Int → Cpu → Cpu)
    (cut : Int → Bool) (stored : ∀ q r, (store q r c).control rept = c.control rept) :
    (c.divideBy dividend divisor half store cut).control rept = c.control rept := by
  dsimp only [divideBy]
  split_ifs
  · rw [mergeFlags_control _ _ _ mulDivMask_condition]
  · rw [mergeFlags_control _ _ _ mulDivMask_condition, stored]
  · rw [mergeFlags_control _ _ _ mulDivMask_condition]
  · rw [mergeFlags_control _ _ _ mulDivMask_condition, stored]

theorem divide_control (v : Quad) : (c.divide w v).control rept = c.control rept := by
  dsimp only [divide]
  split
  · exact c.divideBy_control _ _ _ _ _ fun q r => by rw [ww_control, ww_control]
  · exact c.divideBy_control _ _ _ _ _ fun q r => by rw [wl_control, wl_control]

theorem shift_control : (c.shift w).control rept = c.control rept := by
  dsimp only [shift]
  rw [applyFlags_control, writeReg_control]

theorem signExtend_control : (c.signExtend w).control rept = c.control rept := by
  unfold signExtend
  cases w.width <;> rfl

theorem testCondition_control : (c.testCondition w).control rept = c.control rept := by
  dsimp only [testCondition]
  split_ifs
  · rw [wb_control]
  · rw [ww_control]
  · rfl

theorem decimalAdjust_control : c.decimalAdjust.control rept = c.control rept := by
  dsimp only [decimalAdjust]
  rw [applyFlags_control, wb_control]

theorem loadAddress_control : (c.loadAddress w).control rept = c.control rept :=
  c.addrToReg_control _ _

theorem digitRotate_control : (c.digitRotate w).control rept = c.control rept := by
  dsimp only [digitRotate]
  rw [putFlag_control _ _ _ fZ_condition, wb_control, wb_control]

theorem bitDynamic_control : (c.bitDynamic w).control rept = c.control rept := by
  dsimp only [bitDynamic]
  split
  · split
    · exact c.putFlag_control _ _ fZ_condition
    · exact c.wb_control _ _
    · exact c.wb_control _ _
    · rfl
  · split
    · exact c.putFlag_control _ _ fZ_condition
    · rfl
    · rfl
    · rfl

theorem endTransfer_control : (c.endTransfer w).control w.blockRept = c.control w.blockRept := by
  dsimp only [endTransfer]
  rw [repeatIf_control, putFlag_control _ _ _ fPv_condition, countDown_control]

theorem endCompare_control (a b : Word) (moved : Cpu → Cpu)
    (keeps : ∀ d, (moved d).control w.blockRept = d.control w.blockRept) :
    (c.endCompare w (compareElements w a b) moved).control w.blockRept =
      c.control w.blockRept := by
  dsimp only [endCompare]
  rw [Bool.and_assoc, repeatIf_control, mergeFlags_control _ _ _ (by decide), countDown_control,
    keeps, compareElements, applyFlags_control]

theorem endTranslate_control (v : Byte) :
    (c.endTranslate w v).control w.blockRept = c.control w.blockRept := by
  dsimp only [endTranslate]
  rw [repeatIf_control]
  split
  · rw [countDown_control, addToAddrReg_control]
  · rw [putFlag_control _ _ _ fZ_condition, countDown_control, addToAddrReg_control]

theorem endTranslateTest_control (v : Byte) :
    (c.endTranslateTest w v).control w.blockRept = c.control w.blockRept := by
  dsimp only [endTranslateTest]
  rw [Bool.and_assoc, repeatIf_control, putFlag_control _ _ _ fZ_condition, countDown_control,
    addToAddrReg_control, wb_control]

end Cpu

end C900
