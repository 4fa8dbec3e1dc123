import C900.Cpu.Control
import C900.Logic.Effect

/-!
# Instructions as programs over bus cycles

Every handler is built from reads of the processor, updates that keep the control
state, memory cycles, and guarded blocks. `execute_built` says so for a whole
instruction; what an instruction may do then follows from what each of these
operations may do.
-/

namespace C900

/-- A program expresses no wish to repeat. -/
def Quiet {α : Type} (x : Exec α) : Prop :=
  ∀ m, (x m).2.cpu.repeatPending = m.cpu.repeatPending

/-- The operations of an instruction; `rept` tells whether it may ask to repeat. A
guarded block is one operation: in normal mode it raises a trap request, whatever
its body. -/
inductive UserOp (rept : Bool) : Operations Machine where
  | get : UserOp rept getCpu
  | modify (f : Cpu → Cpu) (keeps : ∀ c, (f c).control rept = c.control rept) :
      UserOp rept (modifyCpu f)
  | fetch (a : Long) : UserOp rept (ifetch16 a)
  | readWord (a : Long) : UserOp rept (memR16 a)
  | readByte (a : Long) : UserOp rept (memR8 a)
  | writeWord (a : Long) (v : Word) : UserOp rept (memW16 a v)
  | writeByte (a : Long) (v : Byte) : UserOp rept (memW8 a v)
  | guarded (body : Exec Unit) (quiet : rept = false → Quiet body) :
      UserOp rept (privileged body)

/-- A program of these operations. -/
abbrev UserProgram (rept : Bool) {α : Type} (x : Exec α) : Prop := Built (UserOp rept) x

/-- The operations without the guarded blocks. -/
inductive PlainOp (rept : Bool) : Operations Machine where
  | get : PlainOp rept getCpu
  | modify (f : Cpu → Cpu) (keeps : ∀ c, (f c).control rept = c.control rept) :
      PlainOp rept (modifyCpu f)
  | fetch (a : Long) : PlainOp rept (ifetch16 a)
  | readWord (a : Long) : PlainOp rept (memR16 a)
  | readByte (a : Long) : PlainOp rept (memR8 a)
  | writeWord (a : Long) (v : Word) : PlainOp rept (memW16 a v)
  | writeByte (a : Long) (v : Byte) : PlainOp rept (memW8 a v)

/-- A program that needs no privilege. -/
abbrev PlainProgram (rept : Bool) {α : Type} (x : Exec α) : Prop := Built (PlainOp rept) x

namespace PlainProgram

variable {rept : Bool}

theorem get : PlainProgram rept getCpu := .op .get

theorem modify (f : Cpu → Cpu) (keeps : ∀ c, (f c).control rept = c.control rept) :
    PlainProgram rept (modifyCpu f) := .op (.modify f keeps)

theorem skip : PlainProgram rept (pure () : Exec Unit) := .pure ()

theorem fetch (a : Long) : PlainProgram rept (ifetch16 a) := .op (.fetch a)

theorem readWord (a : Long) : PlainProgram rept (memR16 a) := .op (.readWord a)

theorem readByte (a : Long) : PlainProgram rept (memR8 a) := .op (.readByte a)

theorem writeWord (a : Long) (v : Word) : PlainProgram rept (memW16 a v) := .op (.writeWord a v)

theorem writeByte (a : Long) (v : Byte) : PlainProgram rept (memW8 a v) := .op (.writeByte a v)

/-- It is a program of the larger family. -/
theorem user {α : Type} {x : Exec α} (program : PlainProgram rept x) : UserProgram rept x := by
  refine program.mono fun β y operation => ?_
  cases operation with
  | get => exact .get
  | modify f keeps => exact .modify f keeps
  | fetch a => exact .fetch a
  | readWord a => exact .readWord a
  | readByte a => exact .readByte a
  | writeWord a v => exact .writeWord a v
  | writeByte a v => exact .writeByte a v

end PlainProgram

open PlainProgram

variable {rept : Bool}

/-! ## Composite accesses -/

theorem memReadW_built (a : Long) (w : Width) : PlainProgram rept (memReadW a w) := by
  cases w with
  | byte => exact (readByte a).bind fun _ => .pure _
  | long => exact (readWord a).bind fun _ => (readWord _).bind fun _ => .pure _
  | word => exact (readWord a).bind fun _ => .pure _

theorem memWriteW_built (a : Long) (v : Quad) (w : Width) : PlainProgram rept (memWriteW a v w) := by
  cases w with
  | byte => exact writeByte a _
  | long => exact (writeWord a _).bind fun _ => writeWord _ _
  | word => exact writeWord a _

theorem memReadElement_built (w : CtrlWord) (a : Long) : PlainProgram rept (memReadElement w a) :=
  .ite ((readByte a).bind fun _ => .pure _) (readWord a)

theorem memWriteElement_built (w : CtrlWord) (a : Long) (v : Word) :
    PlainProgram rept (memWriteElement w a v) :=
  .ite (writeByte a _) (writeWord a v)

theorem pushWord_built (v : Word) : PlainProgram rept (pushWord v) := by
  refine PlainProgram.get.bind fun c => ?_
  cases c.seg with
  | true => exact (modify _ fun d => d.addrToReg_control _ _).bind fun _ => writeWord _ _
  | false => exact (modify _ fun d => d.ww_control _ _).bind fun _ => writeWord _ _

theorem popWord_built : PlainProgram rept popWord := by
  refine PlainProgram.get.bind fun c => ?_
  cases c.seg with
  | true =>
    exact (readWord _).bind fun _ =>
      (modify _ fun d => d.addrToReg_control _ _).bind fun _ => .pure _
  | false =>
    exact (readWord _).bind fun _ => (modify _ fun d => d.ww_control _ _).bind fun _ => .pure _

/-! ## Handlers -/

theorem execUnified_built (w : CtrlWord) : PlainProgram rept (execUnified w) := by
  refine PlainProgram.get.bind fun c => ?_
  have compute : ∀ d : Cpu,
      (d.unifiedCompute w (d.ureadSrc2 w w.src2)).control rept = d.control rept :=
    fun d => d.unifiedCompute_control w _
  refine .ite ((memReadW_built _ _).bind fun b => ?_) ?_
  · have flags : ∀ d : Cpu, (d.applyFlags (d.memoryResult w b)).control rept = d.control rept :=
      fun d => d.applyFlags_control ..
    refine .ite ((modify _ flags).bind fun _ => memWriteW_built _ _ _) ?_
    exact .ite (modify _ flags) (modify _ fun d => d.unifiedCompute_control w b)
  · exact .ite (memWriteW_built _ _ _) (modify _ compute)

theorem execCall_built (target : Long) : PlainProgram rept (execCall target) := by
  refine PlainProgram.get.bind fun c => (pushWord_built _).bind fun _ => ?_
  have jump : PlainProgram rept (modifyCpu ({ · with pc := target })) := modify _ fun _ => rfl
  cases c.seg with
  | true => exact (pushWord_built _).bind fun _ => jump
  | false => exact skip.bind fun _ => jump

theorem execRet_built : PlainProgram rept execRet := by
  refine PlainProgram.get.bind fun c => ?_
  cases c.seg with
  | true => exact popWord_built.bind fun _ => popWord_built.bind fun _ => modify _ fun _ => rfl
  | false => exact popWord_built.bind fun _ => modify _ fun _ => rfl

theorem execBranch_built (w : CtrlWord) : PlainProgram rept (execBranch w) := by
  refine PlainProgram.get.bind fun c => ?_
  cases w.brMode with
  | jpDa | jpX | jpIr | jr => exact modify _ fun d => d.jumpIf_control _ _
  | callDa | callX | callIr | calr | calr12 => exact execCall_built _
  | djnz => exact modify _ fun d => d.djnz_control
  | ret => exact .ite execRet_built skip

theorem execStack_built (w : CtrlWord) : PlainProgram rept (execStack w) := by
  refine PlainProgram.get.bind fun c => ?_
  have reserved : ∀ sp n, PlainProgram rept (modifyCpu (·.reserve sp n)) :=
    fun sp n => modify _ fun d => d.reserve_control sp n
  have released : ∀ sp n, PlainProgram rept (modifyCpu (·.release sp n)) :=
    fun sp n => modify _ fun d => d.release_control sp n
  have loaded : ∀ r v, PlainProgram rept (modifyCpu (·.ww r v)) :=
    fun r v => modify _ fun d => d.ww_control r v
  cases w.stkMode with
  | push | pushImm => exact (reserved _ _).bind fun _ => writeWord _ _
  | pop => exact (released _ _).bind fun _ => (readWord _).bind fun _ => loaded _ _
  | pushL =>
    exact (reserved _ _).bind fun _ => (writeWord _ _).bind fun _ => writeWord _ _
  | popL =>
    exact (released _ _).bind fun _ => (readWord _).bind fun _ => (readWord _).bind fun _ =>
      modify _ fun d => by rw [Cpu.ww_control, Cpu.ww_control]
  | pushSrc => exact (readWord _).bind fun _ => (reserved _ _).bind fun _ => writeWord _ _
  | popDst => exact (released _ _).bind fun _ => (readWord _).bind fun _ => writeWord _ _
  | pushLSrc =>
    exact (readWord _).bind fun _ => (readWord _).bind fun _ => (reserved _ _).bind fun _ =>
      (writeWord _ _).bind fun _ => writeWord _ _
  | popLDst =>
    exact (released _ _).bind fun _ => (readWord _).bind fun _ => (readWord _).bind fun _ =>
      (writeWord _ _).bind fun _ => writeWord _ _

theorem mulDivOperand_built (w : CtrlWord) : PlainProgram rept (mulDivOperand w) := by
  refine PlainProgram.get.bind fun c => ?_
  cases w.src2 with
  | reg | imm => exact .pure _
  | _ => exact memReadW_built _ _

theorem execMul_built (w : CtrlWord) : PlainProgram rept (execMul w) :=
  (mulDivOperand_built w).bind fun v => modify _ fun d => d.multiply_control w v

theorem execDiv_built (w : CtrlWord) : PlainProgram rept (execDiv w) :=
  (mulDivOperand_built w).bind fun v => modify _ fun d => d.divide_control w v

theorem execLdm_built (w : CtrlWord) : PlainProgram rept (execLdm w) := by
  refine PlainProgram.get.bind fun c => .forM _ (fun i => ?_) _
  exact .ite (PlainProgram.get.bind fun _ => writeWord _ _)
    ((readWord _).bind fun _ => modify _ fun d => d.ww_control _ _)

theorem execExchange_built (w : CtrlWord) : PlainProgram rept (execExchange w) := by
  refine PlainProgram.get.bind fun c => .ite (.ite ?_ ?_) (.ite ?_ ?_)
  · exact (readByte _).bind fun _ => (modify _ fun d => d.wb_control _ _).bind fun _ =>
      writeByte _ _
  · exact (readWord _).bind fun _ => (modify _ fun d => d.ww_control _ _).bind fun _ =>
      writeWord _ _
  · exact modify _ fun d => by rw [Cpu.wb_control, Cpu.wb_control]
  · exact modify _ fun d => by rw [Cpu.ww_control, Cpu.ww_control]

theorem execBlockTransfer_built (w : CtrlWord) :
    PlainProgram w.blockRept (execBlockTransfer w) := by
  refine PlainProgram.get.bind fun c => (memReadElement_built w _).bind fun v => ?_
  refine (memWriteElement_built w _ v).bind fun _ => modify _ fun d => ?_
  rw [Cpu.endTransfer_control, Cpu.addToAddrReg_control, Cpu.addToAddrReg_control]

theorem execBlockCompare_built (w : CtrlWord) :
    PlainProgram w.blockRept (execBlockCompare w) := by
  refine PlainProgram.get.bind fun c => (memReadElement_built w _).bind fun v => modify _ fun d => ?_
  exact d.endCompare_control w _ _ _ fun e => e.addToAddrReg_control _ _

theorem execBlockString_built (w : CtrlWord) :
    PlainProgram w.blockRept (execBlockString w) := by
  refine PlainProgram.get.bind fun c => (memReadElement_built w _).bind fun a => ?_
  refine (memReadElement_built w _).bind fun b => modify _ fun d => ?_
  exact d.endCompare_control w _ _ _ fun e => by
    rw [Cpu.addToAddrReg_control, Cpu.addToAddrReg_control]

theorem execTranslate_built (w : CtrlWord) :
    PlainProgram w.blockRept (execTranslate w) := by
  refine PlainProgram.get.bind fun c => (readByte _).bind fun _ => (readByte _).bind fun v => .ite ?_ ?_
  · exact (writeByte _ _).bind fun _ => modify _ fun d => d.endTranslate_control w v
  · exact modify _ fun d => d.endTranslateTest_control w v

/-! ## Guarded blocks

In system mode a guarded block runs; the updates it makes express no wish to
repeat either, those of the repeating input and output apart. -/

namespace Cpu

theorem wb_quiet (c : Cpu) (r : Reg) (v : Byte) : (c.wb r v).repeatPending = c.repeatPending := by
  unfold wb
  split <;> rfl

theorem changeFcw_quiet (c : Cpu) (nf : Word) :
    (c.changeFcw nf).repeatPending = c.repeatPending := by
  dsimp only [changeFcw]
  split_ifs <;> rfl

theorem ldctlWrite_quiet (c : Cpu) : c.ldctlWrite.repeatPending = c.repeatPending := by
  dsimp only [ldctlWrite]
  split
  · exact c.changeFcw_quiet _
  all_goals rfl

theorem fcwOperation_quiet (c : Cpu) (w : CtrlWord) :
    (c.fcwOperation w).repeatPending = c.repeatPending := by
  unfold fcwOperation
  cases w.fcwOp with
  | storeLo => exact c.wb_quiet _ _
  | _ => rfl

theorem multiProc_quiet (c : Cpu) (w : CtrlWord) :
    (c.multiProc w).repeatPending = c.repeatPending := by
  unfold multiProc
  cases w.mpOp <;> rfl

end Cpu


namespace Quiet

theorem get : Quiet getCpu := fun _ => rfl

theorem pure {α : Type} (a : α) : Quiet (Pure.pure a : Exec α) := fun _ => rfl

theorem bind {α β : Type} {x : Exec α} {f : α → Exec β} (first : Quiet x)
    (rest : ∀ a, Quiet (f a)) : Quiet (x >>= f) := fun m => (rest _ _).trans (first m)

theorem ite {α : Type} {p : Prop} [Decidable p] {x y : Exec α} (yes : Quiet x) (no : Quiet y) :
    Quiet (if p then x else y) := by
  split
  · exact yes
  · exact no

theorem modify (f : Cpu → Cpu) (keeps : ∀ c, (f c).repeatPending = c.repeatPending) :
    Quiet (modifyCpu f) := fun m => keeps m.cpu

theorem ioWrite (port data : Word) (isByte special : Bool) :
    Quiet (ioWriteCycle port data isByte special) := fun m => by
  show (C900.ioWrite m port data special).cpu.repeatPending = _
  rw [ioWrite_cpu]

theorem ioRead (port : Word) (isByte special : Bool) :
    Quiet (ioReadCycle port isByte special) := fun m => by
  show (C900.ioRead m port special).2.cpu.repeatPending = _
  rw [ioRead_cpu]

/-- A program of an instruction that may not ask to repeat. -/
theorem ofUser {α : Type} {x : Exec α} (program : UserProgram false x) : Quiet x := by
  refine program.preserves (fun s t => t.cpu.repeatPending = s.cpu.repeatPending) (fun _ => rfl)
    (fun _ _ _ first second => second.trans first) ?_
  intro β y operation s
  cases operation with
  | modify f keeps =>
    have wish := congrArg ControlState.repeating (keeps s.cpu)
    simp only [Cpu.control, Bool.not_false, Bool.and_true] at wish
    exact wish
  | guarded body quiet =>
    have choice : privileged body s =
        (if s.cpu.sysmode then body else modifyCpu (·.request irqTrap)) s := rfl
    rw [choice]
    split
    · exact quiet rfl s
    · rfl
  | _ => rfl

end Quiet

/-- A flag operation that needs no privilege stays within the condition flags. The
toggling forms carry their mask in the opcode; the decoder confines it. -/
theorem Cpu.fcwOperation_control (c : Cpu) (w : CtrlWord) (open_ : w.fcwPriv = false)
    (toggles : w.fcwOp = .toggle → OnlyConditionFlags w.fcwMask) :
    (c.fcwOperation w).control rept = c.control rept := by
  have low : w.fcwOp ≠ .loadLo → w.fcwOp ≠ .storeLo → OnlyConditionFlags w.fcwMask := by
    intro load store
    cases kind : w.fcwOp with
    | set | clear =>
      simp only [CtrlWord.fcwPriv, kind] at open_
      simpa [OnlyConditionFlags] using open_
    | toggle => exact toggles kind
    | loadLo => exact absurd kind load
    | storeLo => exact absurd kind store
  have merged : ∀ flags : Word, OnlyConditionFlags w.fcwMask →
      ∀ v : Word, v = (c.fcw &&& ~~~w.fcwMask) ||| (flags &&& w.fcwMask) →
        ({ c with fcw := v } : Cpu).control rept = c.control rept := by
    rintro flags confined v rfl
    exact c.mergeFlags_control flags w.fcwMask confined
  unfold fcwOperation
  cases kind : w.fcwOp with
  | set =>
    refine merged w.fcwMask (low (by simp [kind]) (by simp [kind])) _ ?_
    ext i
    simp only [BitVec.getElem_or, BitVec.getElem_and, BitVec.getElem_not]
    cases c.fcw[i] <;> cases w.fcwMask[i] <;> rfl
  | clear =>
    refine merged 0 (low (by simp [kind]) (by simp [kind])) _ ?_
    simp
  | toggle =>
    refine merged (~~~c.fcw) (low (by simp [kind]) (by simp [kind])) _ ?_
    ext i
    simp only [BitVec.getElem_or, BitVec.getElem_and, BitVec.getElem_not, BitVec.getElem_xor]
    cases c.fcw[i] <;> cases w.fcwMask[i] <;> rfl
  | loadLo => exact c.mergeFlags_control _ _ (by decide)
  | storeLo => exact c.wb_control _ _

theorem execIo_built (w : CtrlWord) : UserProgram rept (execIo w) := by
  refine .op (.guarded _ fun _ => .bind .get fun c => ?_)
  refine .ite (.ioWrite _ _ _ _) (.bind (.ioRead _ _ _) fun v => .modify _ fun d => ?_)
  split
  · exact Cpu.wb_quiet d _ _
  · rfl

theorem execLdctl_built : UserProgram rept execLdctl := by
  refine .op (.guarded _ fun _ => .modify _ fun c => ?_)
  split
  · rfl
  · exact c.ldctlWrite_quiet

theorem execLdps_built (w : CtrlWord) : UserProgram rept (execLdps w) := by
  have word : ∀ a, Quiet (memR16 a) := fun a => .ofUser (readWord a).user
  refine .op (.guarded _ fun _ => .bind .get fun c => .ite ?_ ?_)
  · exact .bind (word _) fun _ => .bind (word _) fun _ => .bind (word _) fun _ =>
      .modify _ fun d => Cpu.changeFcw_quiet _ _
  · exact .bind (word _) fun _ => .bind (word _) fun _ => .modify _ fun d =>
      Cpu.changeFcw_quiet _ _

theorem execIret_built : UserProgram rept execIret := by
  have pop : Quiet popWord := .ofUser popWord_built.user
  refine .op (.guarded _ fun _ => .bind pop fun _ => .bind pop fun _ => .bind .get fun c => ?_)
  refine .ite (.bind pop fun _ => .bind pop fun _ => ?_) (.bind pop fun _ => ?_)
  · exact .modify _ fun d => Cpu.changeFcw_quiet _ _
  · exact .modify _ fun d => Cpu.changeFcw_quiet _ _

theorem execBlockIo_built (w : CtrlWord) : UserProgram w.blockRept (execBlockIo w) := by
  refine .op (.guarded _ fun single => .bind .get fun c => ?_)
  have finish : Quiet (modifyCpu fun c =>
      (c.addToAddrReg (c.ioAddrReg w) w.delta).endTransfer w) := by
    refine .modify _ fun d => ?_
    have wish := congrArg ControlState.repeating
      ((d.addToAddrReg (d.ioAddrReg w) w.delta).endTransfer_control w)
    simp only [Cpu.control, single, Bool.not_false, Bool.and_true] at wish
    exact wish
  refine .ite ?_ ?_
  · exact .bind (.ofUser (memReadElement_built w _).user) fun _ => .bind (.ioWrite _ _ _ _) fun _ =>
      finish
  · exact .bind (.ioRead _ _ _) fun _ => .bind (.ofUser (memWriteElement_built w _ _).user) fun _ =>
      finish

theorem execMultiProc_built (w : CtrlWord) :
    UserProgram rept (privileged (modifyCpu (·.multiProc w))) :=
  .op (.guarded _ fun _ => .modify _ fun c => c.multiProc_quiet w)

/-! ## Instructions -/

/-- The decoder's flag toggles stay within the condition flags. -/
theorem pool_toggles : ∀ w ∈ pool, w.exec = .fcwOp → w.fcwOp = .toggle →
    OnlyConditionFlags w.fcwMask := by
  decide +kernel

/-- The operation asks for system mode. -/
def CtrlWord.isPrivileged (w : CtrlWord) : Bool :=
  match w.exec with
  | .io | .ldctl | .blockIo | .multiProc | .ldps | .halt | .iret => true
  | .fcwOp => w.fcwPriv
  | _ => false

/-- A decoded instruction that does not ask for system mode needs no privilege. -/
theorem execute_plain {w : CtrlWord} (decoded : w ∈ pool) (open_ : w.isPrivileged = false) :
    PlainProgram w.blockRept (execute w) := by
  unfold CtrlWord.isPrivileged at open_
  unfold execute
  cases kind : w.exec with
  | unified => exact execUnified_built w
  | fcwOp =>
    simp only [kind] at open_
    simp only [execFcwOp, open_, Bool.false_eq_true, if_false]
    exact modify _ fun d => d.fcwOperation_control w open_ (pool_toggles w decoded kind)
  | exts => exact modify _ fun d => d.signExtend_control w
  | stack => exact execStack_built w
  | branch => exact execBranch_built w
  | tcc => exact modify _ fun d => d.testCondition_control w
  | dab => exact modify _ fun d => d.decimalAdjust_control
  | exchange => exact execExchange_built w
  | lea => exact modify _ fun d => d.loadAddress_control w
  | bcdRotate => exact modify _ fun d => d.digitRotate_control w
  | bitDynamic => exact modify _ fun d => d.bitDynamic_control w
  | shift => exact modify _ fun d => d.shift_control w
  | blockTransfer => exact execBlockTransfer_built w
  | blockCompare => exact execBlockCompare_built w
  | blockString => exact execBlockString_built w
  | ldm => exact execLdm_built w
  | mul => exact execMul_built w
  | div => exact execDiv_built w
  | sysCall => exact modify _ fun _ => rfl
  | translate => exact execTranslate_built w
  | io | ldctl | blockIo | multiProc | ldps | halt | iret => simp [kind] at open_

/-- Every decoded instruction is a program of these operations. -/
theorem execute_built {w : CtrlWord} (decoded : w ∈ pool) :
    UserProgram w.blockRept (execute w) := by
  cases guard : w.isPrivileged with
  | false => exact (execute_plain decoded guard).user
  | true =>
    unfold CtrlWord.isPrivileged at guard
    unfold execute
    cases kind : w.exec with
    | fcwOp =>
      simp only [kind] at guard
      simp only [execFcwOp, guard, if_true]
      exact .op (.guarded _ fun _ => .modify _ fun c => c.fcwOperation_quiet w)
    | io => exact execIo_built w
    | ldctl => exact execLdctl_built
    | blockIo => exact execBlockIo_built w
    | multiProc => exact execMultiProc_built w
    | ldps => exact execLdps_built w
    | halt => exact .op (.guarded _ fun _ => .modify _ fun _ => rfl)
    | iret => exact execIret_built
    | _ => simp [kind] at guard

end C900
