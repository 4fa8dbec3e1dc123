import C900.Cpu.Program

/-!
# What an instruction leaves to the step

The request lines, the fetched words, the counters and the fault flag belong to the
step that runs an instruction, not to the instruction. No instruction changes them,
with one exception: a memory access that the unit refuses sets the fault flag. So
the flag of a step tells whether any of its accesses was refused.
-/

namespace C900

/-- The processor state that belongs to the step. Of the pending requests it holds
those that no instruction makes by itself. -/
structure StepState where
  nmiLine : Bool
  segtLine : Bool
  nviLine : Bool
  viLine : Bool
  viVector : Word
  curOp : Word
  opcode : Fin 6 → Word
  oplen : Nat
  segW1 : Bool
  segW2 : Bool
  instrStart : Long
  insns : Quad
  serviced : Byte
  requests : Byte
  fault : Bool

namespace Cpu

/-- The step's part of a processor. -/
def stepState (c : Cpu) : StepState where
  nmiLine := c.nmiLine
  segtLine := c.segtLine
  nviLine := c.nviLine
  viLine := c.viLine
  viVector := c.viVector
  curOp := c.curOp
  opcode := c.opcode
  oplen := c.oplen
  segW1 := c.segW1
  segW2 := c.segW2
  instrStart := c.instrStart
  insns := c.insns
  serviced := c.serviced
  requests := c.irqReq &&& ~~~(irqTrap ||| irqSyscall)
  fault := c.fault

/-! ## Registers and flags -/

section

variable (c : Cpu) (r : Reg)

@[simp] theorem setR_stepState (v : Word) : (c.setR r v).stepState = c.stepState := rfl

@[simp] theorem ww_stepState (v : Word) : (c.ww r v).stepState = c.stepState := rfl

@[simp] theorem wb_stepState (v : Byte) : (c.wb r v).stepState = c.stepState := by
  unfold wb
  split <;> rfl

@[simp] theorem wl_stepState (v : Long) : (c.wl r v).stepState = c.stepState := rfl

@[simp] theorem wq_stepState (v : Quad) : (c.wq r v).stepState = c.stepState := rfl

@[simp] theorem writeReg_stepState (v : Quad) (w : Width) :
    (c.writeReg r v w).stepState = c.stepState := by
  cases w with
  | byte => exact c.wb_stepState r _
  | word | long => rfl

@[simp] theorem addrToReg_stepState (a : Long) : (c.addrToReg r a).stepState = c.stepState := by
  unfold addrToReg
  split <;> rfl

@[simp] theorem addToAddrReg_stepState (d : Word) :
    (c.addToAddrReg r d).stepState = c.stepState := rfl

@[simp] theorem reserve_stepState (n : Long) : (c.reserve r n).stepState = c.stepState := by
  unfold reserve
  split
  · exact c.addrToReg_stepState r _
  · rfl

@[simp] theorem release_stepState (n : Long) : (c.release r n).stepState = c.stepState := by
  unfold release
  split
  · exact c.addrToReg_stepState r _
  · rfl

@[simp] theorem uregWrite_stepState (s : RegSel) (v : Quad) (w : Width) :
    (c.uregWrite s v w).stepState = c.stepState := c.writeReg_stepState _ v w

@[simp] theorem mergeFlags_stepState (flags mask : Word) :
    (c.mergeFlags flags mask).stepState = c.stepState := rfl

@[simp] theorem applyFlags_stepState (result : AluResult) :
    (c.applyFlags result).stepState = c.stepState := rfl

@[simp] theorem putFlag_stepState (flag : Word) (p : Bool) :
    (c.putFlag flag p).stepState = c.stepState := rfl

@[simp] theorem countDown_stepState : c.countDown.stepState = c.stepState := rfl

@[simp] theorem repeatIf_stepState (again : Bool) :
    (c.repeatIf again).stepState = c.stepState := rfl

@[simp] theorem jumpIf_stepState (target : Long) :
    (c.jumpIf r target).stepState = c.stepState := by
  unfold jumpIf
  split <;> rfl

@[simp] theorem changeFcw_stepState (nf : Word) : (c.changeFcw nf).stepState = c.stepState := by
  dsimp only [changeFcw]
  split_ifs <;> rfl

/-- A request of the instruction itself. -/
theorem request_stepState {bits : Byte} (own : bits &&& ~~~(irqTrap ||| irqSyscall) = 0) :
    (c.request bits).stepState = c.stepState := by
  have kept : (c.irqReq ||| bits) &&& ~~~(irqTrap ||| irqSyscall) =
      c.irqReq &&& ~~~(irqTrap ||| irqSyscall) := by
    rw [BitVec.and_or_distrib_right, own]
    exact BitVec.or_zero
  simp only [stepState, request, kept]

end

/-! ## Handlers on the processor alone -/

section

variable (c : Cpu) (w : CtrlWord)

theorem unifiedCompute_stepState (b : Quad) :
    (c.unifiedCompute w b).stepState = c.stepState := by
  dsimp only [unifiedCompute]
  split
  · rw [uregWrite_stepState, applyFlags_stepState]
  · rfl

theorem djnz_stepState : c.djnz.stepState = c.stepState := by
  have moved : ∀ (p : Bool) (d : Cpu) (a : Long),
      (if p then { d with pc := a } else d).stepState = d.stepState := by
    intro p d a
    cases p <;> rfl
  have counted : ∀ (p : Bool) (r s : Reg) (u : Word) (v : Byte),
      (if p then c.ww r u else c.wb s v).stepState = c.stepState := by
    intro p r s u v
    cases p with
    | false => exact c.wb_stepState s v
    | true => rfl
  exact (moved _ _ _).trans (counted _ _ _ _ _)

theorem multiply_stepState (v : Quad) : (c.multiply w v).stepState = c.stepState := by
  dsimp only [multiply]
  split <;> rfl

theorem divideBy_stepState (dividend divisor half : Int) (store : Int → Int → Cpu → Cpu)
    (cut : Int → Bool) (stored : ∀ q r, (store q r c).stepState = c.stepState) :
    (c.divideBy dividend divisor half store cut).stepState = c.stepState := by
  dsimp only [divideBy]
  split_ifs
  · rfl
  · rw [mergeFlags_stepState, stored]
  · rfl
  · rw [mergeFlags_stepState, stored]

theorem divide_stepState (v : Quad) : (c.divide w v).stepState = c.stepState := by
  dsimp only [divide]
  split
  · exact c.divideBy_stepState _ _ _ _ _ fun _ _ => rfl
  · exact c.divideBy_stepState _ _ _ _ _ fun _ _ => rfl

theorem shift_stepState : (c.shift w).stepState = c.stepState := by
  dsimp only [shift]
  rw [applyFlags_stepState, writeReg_stepState]

theorem signExtend_stepState : (c.signExtend w).stepState = c.stepState := by
  unfold signExtend
  cases w.width <;> rfl

theorem testCondition_stepState : (c.testCondition w).stepState = c.stepState := by
  dsimp only [testCondition]
  split_ifs
  · rw [wb_stepState]
  · rfl
  · rfl

theorem decimalAdjust_stepState : c.decimalAdjust.stepState = c.stepState := by
  dsimp only [decimalAdjust]
  rw [applyFlags_stepState, wb_stepState]

theorem digitRotate_stepState : (c.digitRotate w).stepState = c.stepState := by
  dsimp only [digitRotate]
  rw [putFlag_stepState, wb_stepState, wb_stepState]

theorem bitDynamic_stepState : (c.bitDynamic w).stepState = c.stepState := by
  dsimp only [bitDynamic]
  split
  · split
    · rfl
    · exact c.wb_stepState _ _
    · exact c.wb_stepState _ _
    · rfl
  · split <;> rfl

theorem fcwOperation_stepState : (c.fcwOperation w).stepState = c.stepState := by
  unfold fcwOperation
  cases w.fcwOp with
  | storeLo => exact c.wb_stepState _ _
  | _ => rfl

theorem ldctlWrite_stepState : c.ldctlWrite.stepState = c.stepState := by
  dsimp only [ldctlWrite]
  split
  · exact c.changeFcw_stepState _
  all_goals rfl

theorem multiProc_stepState : (c.multiProc w).stepState = c.stepState := by
  unfold multiProc
  cases w.mpOp <;> rfl

theorem endCompare_stepState (result : AluResult) (moved : Cpu → Cpu)
    (keeps : ∀ d, (moved d).stepState = d.stepState) :
    (c.endCompare w result moved).stepState = c.stepState := by
  dsimp only [endCompare]
  rw [repeatIf_stepState, mergeFlags_stepState, countDown_stepState, keeps, applyFlags_stepState]

theorem endTranslate_stepState (v : Byte) : (c.endTranslate w v).stepState = c.stepState := by
  dsimp only [endTranslate]
  split <;> rfl

theorem endTranslateTest_stepState (v : Byte) :
    (c.endTranslateTest w v).stepState = c.stepState := by
  dsimp only [endTranslateTest]
  rw [repeatIf_stepState, putFlag_stepState, countDown_stepState, addToAddrReg_stepState,
    wb_stepState]

end

end Cpu

/-! ## Refused accesses -/

/-- A memory cycle that the unit refuses. -/
def Event.refused : Event → Bool
  | .mem _ _ _ _ viol => viol
  | _ => false

/-- `x` comes from `m` by cycles of the bus; the step's part is what it was, except
that a refused cycle sets the fault flag. -/
def Latched (m x : Machine) : Prop :=
  ∃ events, x.trace = events ++ m.trace ∧
    x.cpu.stepState =
      { m.cpu.stepState with fault := m.cpu.fault || events.any Event.refused }

namespace Latched

variable {m x y : Machine}

theorem refl (m : Machine) : Latched m m := by
  refine ⟨[], rfl, ?_⟩
  simp [Cpu.stepState]

theorem trans (first : Latched m x) (second : Latched x y) : Latched m y := by
  obtain ⟨earlier, trace, state⟩ := first
  obtain ⟨later, moreTrace, moreState⟩ := second
  refine ⟨later ++ earlier, by rw [moreTrace, trace, List.append_assoc], ?_⟩
  have fault : x.cpu.fault = (m.cpu.fault || earlier.any Event.refused) :=
    congrArg StepState.fault state
  rw [moreState, state, fault, List.any_append, Bool.or_assoc,
    Bool.or_comm (later.any Event.refused)]

theorem ofCpu (m : Machine) {c : Cpu} (keeps : c.stepState = m.cpu.stepState) :
    Latched m { m with cpu := c } := by
  refine ⟨[], rfl, ?_⟩
  rw [List.any_nil, Bool.or_false]
  exact keeps

/-- A translated cycle. -/
theorem ofCycle (m : Machine) (kind : Access) (wide : Bool) (a : Long) (b : Bus) :
    Latched m { m.cycle kind wide a with bus := b } := by
  refine ⟨[m.memEvent kind wide a], rfl, ?_⟩
  have refused : [m.memEvent kind wide a].any Event.refused = m.violates kind a := by
    simp [Machine.memEvent, Event.refused]
  rw [refused]
  rfl

/-- An I/O cycle. -/
theorem ofIo {m x : Machine} {e : Event} (quiet : e.refused = false) (cpu : x.cpu = m.cpu)
    (trace : x.trace = e :: m.trace) : Latched m x := by
  refine ⟨[e], trace, ?_⟩
  rw [cpu, List.any_cons, quiet, List.any_nil, Bool.or_false, Bool.or_false]
  rfl

end Latched

/-! ## Programs -/

/-- A program that latches its refused cycles. -/
def Latching {α : Type} (x : Exec α) : Prop := ∀ m, Latched m (x m).2

theorem ioRead_trace (m : Machine) (port : Word) (special : Bool) :
    (ioRead m port special).2.trace = m.trace := by
  unfold ioRead
  split_ifs <;> rfl

theorem ioWrite_trace (m : Machine) (port data : Word) (special : Bool) :
    (ioWrite m port data special).trace = m.trace := by
  unfold ioWrite
  split_ifs <;> rfl

namespace Latching

theorem get : Latching getCpu := Latched.refl

theorem pure {α : Type} (a : α) : Latching (Pure.pure a : Exec α) := Latched.refl

theorem skip : Latching (Pure.pure () : Exec Unit) := Latched.refl

theorem bind {α β : Type} {x : Exec α} {f : α → Exec β} (first : Latching x)
    (rest : ∀ a, Latching (f a)) : Latching (x >>= f) := fun m => (first m).trans (rest _ _)

theorem ite {α : Type} {p : Prop} [Decidable p] {x y : Exec α} (yes : Latching x)
    (no : Latching y) : Latching (if p then x else y) := by
  split
  · exact yes
  · exact no

theorem forM {ι : Type} (body : ι → Exec PUnit) (latching : ∀ i, Latching (body i))
    (items : List ι) : Latching (items.forM body) := by
  induction items with
  | nil => exact pure _
  | cons i rest inductionHypothesis => exact bind (latching i) fun _ => inductionHypothesis

theorem modify (f : Cpu → Cpu) (keeps : ∀ c, (f c).stepState = c.stepState) :
    Latching (modifyCpu f) := fun m => .ofCpu m (keeps m.cpu)

theorem fetch (a : Long) : Latching (ifetch16 a) := fun m => .ofCycle m .fetch true a m.bus

theorem readWord (a : Long) : Latching (memR16 a) := fun m => .ofCycle m .read true a m.bus

theorem readByte (a : Long) : Latching (memR8 a) := fun m => .ofCycle m .read false a m.bus

theorem writeWord (a : Long) (v : Word) : Latching (memW16 a v) :=
  fun m => .ofCycle m .write true a _

theorem writeByte (a : Long) (v : Byte) : Latching (memW8 a v) :=
  fun m => .ofCycle m .write false a _

theorem ioRead (port : Word) (isByte special : Bool) :
    Latching (ioReadCycle port isByte special) := fun m =>
  .ofIo (m := m) (e := .ioRead port isByte special _) rfl (ioRead_cpu m port special)
    (congrArg _ (ioRead_trace m port special))

theorem ioWrite (port data : Word) (isByte special : Bool) :
    Latching (ioWriteCycle port data isByte special) := fun m =>
  .ofIo (m := m) (e := .ioWrite port data isByte special) rfl (ioWrite_cpu m port data special)
    (congrArg _ (ioWrite_trace m port data special))

/-- A guarded block; in normal mode it makes a request of its own. -/
theorem guarded {body : Exec Unit} (inSystem : Latching body) : Latching (privileged body) :=
  bind get fun _ => ite inSystem (modify _ fun d => d.request_stepState (by decide))

end Latching

open Latching

theorem memReadW_latching (a : Long) (w : Width) : Latching (memReadW a w) := by
  cases w with
  | byte => exact (readByte a).bind fun _ => .pure _
  | long => exact (readWord a).bind fun _ => (readWord _).bind fun _ => .pure _
  | word => exact (readWord a).bind fun _ => .pure _

theorem memWriteW_latching (a : Long) (v : Quad) (w : Width) : Latching (memWriteW a v w) := by
  cases w with
  | byte => exact writeByte a _
  | long => exact (writeWord a _).bind fun _ => writeWord _ _
  | word => exact writeWord a _

theorem memReadElement_latching (w : CtrlWord) (a : Long) : Latching (memReadElement w a) :=
  .ite ((readByte a).bind fun _ => .pure _) (readWord a)

theorem memWriteElement_latching (w : CtrlWord) (a : Long) (v : Word) :
    Latching (memWriteElement w a v) :=
  .ite (writeByte a _) (writeWord a v)

theorem pushWord_latching (v : Word) : Latching (pushWord v) := by
  refine Latching.get.bind fun c => ?_
  cases c.seg with
  | true => exact (modify _ fun d => d.addrToReg_stepState _ _).bind fun _ => writeWord _ _
  | false => exact (modify _ fun d => d.ww_stepState _ _).bind fun _ => writeWord _ _

theorem popWord_latching : Latching popWord := by
  refine Latching.get.bind fun c => ?_
  cases c.seg with
  | true =>
    exact (readWord _).bind fun _ =>
      (modify _ fun d => d.addrToReg_stepState _ _).bind fun _ => .pure _
  | false =>
    exact (readWord _).bind fun _ => (modify _ fun d => d.ww_stepState _ _).bind fun _ => .pure _

/-! ## Handlers -/

theorem execUnified_latching (w : CtrlWord) : Latching (execUnified w) := by
  refine Latching.get.bind fun c => .ite ((memReadW_latching _ _).bind fun b => ?_) ?_
  · have flags : ∀ d : Cpu, (d.applyFlags (d.memoryResult w b)).stepState = d.stepState :=
      fun d => d.applyFlags_stepState _
    refine .ite ((modify _ flags).bind fun _ => memWriteW_latching _ _ _) ?_
    exact .ite (modify _ flags) (modify _ fun d => d.unifiedCompute_stepState w b)
  · exact .ite (memWriteW_latching _ _ _) (modify _ fun d => d.unifiedCompute_stepState w _)

theorem execCall_latching (target : Long) : Latching (execCall target) := by
  refine Latching.get.bind fun c => (pushWord_latching _).bind fun _ => ?_
  have jump : Latching (modifyCpu ({ · with pc := target })) := modify _ fun _ => rfl
  cases c.seg with
  | true => exact (pushWord_latching _).bind fun _ => jump
  | false => exact skip.bind fun _ => jump

theorem execRet_latching : Latching execRet := by
  refine Latching.get.bind fun c => ?_
  cases c.seg with
  | true =>
    exact popWord_latching.bind fun _ => popWord_latching.bind fun _ => modify _ fun _ => rfl
  | false => exact popWord_latching.bind fun _ => modify _ fun _ => rfl

theorem execBranch_latching (w : CtrlWord) : Latching (execBranch w) := by
  refine Latching.get.bind fun c => ?_
  cases w.brMode with
  | jpDa | jpX | jpIr | jr => exact modify _ fun d => d.jumpIf_stepState _ _
  | callDa | callX | callIr | calr | calr12 => exact execCall_latching _
  | djnz => exact modify _ fun d => d.djnz_stepState
  | ret => exact .ite execRet_latching skip

theorem execStack_latching (w : CtrlWord) : Latching (execStack w) := by
  refine Latching.get.bind fun c => ?_
  have reserved : ∀ sp n, Latching (modifyCpu (·.reserve sp n)) :=
    fun sp n => modify _ fun d => d.reserve_stepState sp n
  have released : ∀ sp n, Latching (modifyCpu (·.release sp n)) :=
    fun sp n => modify _ fun d => d.release_stepState sp n
  have loaded : ∀ r v, Latching (modifyCpu (·.ww r v)) := fun r v => modify _ fun _ => rfl
  cases w.stkMode with
  | push | pushImm => exact (reserved _ _).bind fun _ => writeWord _ _
  | pop => exact (released _ _).bind fun _ => (readWord _).bind fun _ => loaded _ _
  | pushL =>
    exact (reserved _ _).bind fun _ => (writeWord _ _).bind fun _ => writeWord _ _
  | popL =>
    exact (released _ _).bind fun _ => (readWord _).bind fun _ => (readWord _).bind fun _ =>
      modify _ fun _ => rfl
  | pushSrc => exact (readWord _).bind fun _ => (reserved _ _).bind fun _ => writeWord _ _
  | popDst => exact (released _ _).bind fun _ => (readWord _).bind fun _ => writeWord _ _
  | pushLSrc =>
    exact (readWord _).bind fun _ => (readWord _).bind fun _ => (reserved _ _).bind fun _ =>
      (writeWord _ _).bind fun _ => writeWord _ _
  | popLDst =>
    exact (released _ _).bind fun _ => (readWord _).bind fun _ => (readWord _).bind fun _ =>
      (writeWord _ _).bind fun _ => writeWord _ _

theorem mulDivOperand_latching (w : CtrlWord) : Latching (mulDivOperand w) := by
  refine Latching.get.bind fun c => ?_
  cases w.src2 with
  | reg | imm => exact .pure _
  | _ => exact memReadW_latching _ _

theorem execLdm_latching (w : CtrlWord) : Latching (execLdm w) := by
  refine Latching.get.bind fun c => .forM _ (fun i => ?_) _
  exact .ite (Latching.get.bind fun _ => writeWord _ _) ((readWord _).bind fun _ => modify _ fun _ => rfl)

theorem execExchange_latching (w : CtrlWord) : Latching (execExchange w) := by
  refine Latching.get.bind fun c => .ite (.ite ?_ ?_) (.ite ?_ ?_)
  · exact (readByte _).bind fun _ => (modify _ fun d => d.wb_stepState _ _).bind fun _ =>
      writeByte _ _
  · exact (readWord _).bind fun _ => (modify _ fun d => d.ww_stepState _ _).bind fun _ =>
      writeWord _ _
  · exact modify _ fun d => by rw [Cpu.wb_stepState, Cpu.wb_stepState]
  · exact modify _ fun _ => rfl

theorem execBlockTransfer_latching (w : CtrlWord) : Latching (execBlockTransfer w) := by
  refine Latching.get.bind fun c => (memReadElement_latching w _).bind fun v => ?_
  exact (memWriteElement_latching w _ v).bind fun _ => modify _ fun _ => rfl

theorem execBlockCompare_latching (w : CtrlWord) : Latching (execBlockCompare w) := by
  refine Latching.get.bind fun c => (memReadElement_latching w _).bind fun v => modify _ fun d => ?_
  exact d.endCompare_stepState w _ _ fun _ => rfl

theorem execBlockString_latching (w : CtrlWord) : Latching (execBlockString w) := by
  refine Latching.get.bind fun c => (memReadElement_latching w _).bind fun a => ?_
  refine (memReadElement_latching w _).bind fun b => modify _ fun d => ?_
  exact d.endCompare_stepState w _ _ fun _ => rfl

theorem execTranslate_latching (w : CtrlWord) : Latching (execTranslate w) := by
  refine Latching.get.bind fun c => (readByte _).bind fun _ => (readByte _).bind fun v => .ite ?_ ?_
  · exact (writeByte _ _).bind fun _ => modify _ fun d => d.endTranslate_stepState w v
  · exact modify _ fun d => d.endTranslateTest_stepState w v

theorem execIo_latching (w : CtrlWord) : Latching (execIo w) := by
  refine .guarded (Latching.get.bind fun c => .ite (.ioWrite _ _ _ _) ((Latching.ioRead _ _ _).bind fun v => ?_))
  refine modify _ fun d => ?_
  split
  · exact d.wb_stepState _ _
  · rfl

theorem execLdctl_latching : Latching execLdctl := by
  refine .guarded (modify _ fun d => ?_)
  split
  · rfl
  · exact d.ldctlWrite_stepState

theorem execLdps_latching (w : CtrlWord) : Latching (execLdps w) := by
  refine .guarded (Latching.get.bind fun c => .ite ?_ ?_)
  · exact (readWord _).bind fun _ => (readWord _).bind fun _ => (readWord _).bind fun _ =>
      modify _ fun _ => Cpu.changeFcw_stepState _ _
  · exact (readWord _).bind fun _ => (readWord _).bind fun _ =>
      modify _ fun _ => Cpu.changeFcw_stepState _ _

theorem execIret_latching : Latching execIret := by
  refine .guarded (popWord_latching.bind fun _ => popWord_latching.bind fun _ =>
    Latching.get.bind fun c => .ite ?_ ?_)
  · exact popWord_latching.bind fun _ => popWord_latching.bind fun _ =>
      modify _ fun _ => Cpu.changeFcw_stepState _ _
  · exact popWord_latching.bind fun _ => modify _ fun _ => Cpu.changeFcw_stepState _ _

theorem execBlockIo_latching (w : CtrlWord) : Latching (execBlockIo w) := by
  refine .guarded (Latching.get.bind fun c => .ite ?_ ?_)
  · exact (memReadElement_latching w _).bind fun _ => (Latching.ioWrite _ _ _ _).bind fun _ =>
      modify _ fun _ => rfl
  · exact (Latching.ioRead _ _ _).bind fun _ => (memWriteElement_latching w _ _).bind fun _ =>
      modify _ fun _ => rfl

theorem execFcwOp_latching (w : CtrlWord) : Latching (execFcwOp w) := by
  have changed : Latching (modifyCpu (·.fcwOperation w)) :=
    modify _ fun d => d.fcwOperation_stepState w
  unfold execFcwOp
  exact .ite (.guarded changed) changed

/-- Every instruction latches its refused cycles. -/
theorem execute_latching (w : CtrlWord) : Latching (execute w) := by
  unfold execute
  cases w.exec with
  | unified => exact execUnified_latching w
  | fcwOp => exact execFcwOp_latching w
  | exts => exact modify _ fun d => d.signExtend_stepState w
  | stack => exact execStack_latching w
  | branch => exact execBranch_latching w
  | tcc => exact modify _ fun d => d.testCondition_stepState w
  | dab => exact modify _ fun d => d.decimalAdjust_stepState
  | exchange => exact execExchange_latching w
  | lea => exact modify _ fun d => d.addrToReg_stepState _ _
  | bcdRotate => exact modify _ fun d => d.digitRotate_stepState w
  | bitDynamic => exact modify _ fun d => d.bitDynamic_stepState w
  | io => exact execIo_latching w
  | ldctl => exact execLdctl_latching
  | shift => exact modify _ fun d => d.shift_stepState w
  | blockTransfer => exact execBlockTransfer_latching w
  | blockCompare => exact execBlockCompare_latching w
  | blockString => exact execBlockString_latching w
  | blockIo => exact execBlockIo_latching w
  | ldm => exact execLdm_latching w
  | multiProc => exact .guarded (modify _ fun d => d.multiProc_stepState w)
  | mul => exact (mulDivOperand_latching w).bind fun v => modify _ fun d => d.multiply_stepState w v
  | div => exact (mulDivOperand_latching w).bind fun v => modify _ fun d => d.divide_stepState w v
  | ldps => exact execLdps_latching w
  | halt => exact .guarded (modify _ fun _ => rfl)
  | sysCall => exact modify _ fun d => d.request_stepState (by decide)
  | iret => exact execIret_latching
  | translate => exact execTranslate_latching w

end C900
