import C900.Cpu.Address
import C900.Cpu.Element
import C900.Cpu.Step

/-!
# Trap entry in stages

`enterTrap` as three programs: enter segmented system mode, push the frame, read
the handler's status. Each comes with what it does to the processor.
-/

namespace C900

/-! ## Stack accesses -/

/-- The stack pointer moved by `n`. -/
def Cpu.moveSp (c : Cpu) (n : Word) : Cpu :=
  if c.seg then (c.ww 14 (c.rw 14 &&& segmentBits)).ww 15 (c.rw 15 + n) else c.ww 15 (c.rw 15 + n)

theorem pushWord_cpu (v : Word) (m : Machine) :
    (m.cpu.moveSp (-2)).SameButFault (pushWord v m).2.cpu := by
  cases form : m.cpu.seg with
  | true =>
    have stack : m.cpu.spReg = 14 := by rw [Cpu.spReg, if_pos form]
    have moved : m.cpu.addrToReg 14 (addrSub (m.cpu.addrFromReg 14) 2) = m.cpu.moveSp (-2) := by
      rw [m.cpu.addrFromReg_stack form, addrSub_internalAddr, m.cpu.addrToReg_stack form,
        Cpu.moveSp, if_pos form, BitVec.sub_eq_add_neg, show -((2 : Long).setWidth 16) = (-2 : Word) by decide]
    simp only [pushWord, StateM.bind_apply, getCpu, form, if_true, stack]
    rw [← moved]
    exact ⟨_, rfl⟩
  | false =>
    have stack : m.cpu.spReg = 15 := by rw [Cpu.spReg, if_neg (Bool.not_eq_true _ ▸ form)]
    have moved : m.cpu.ww 15 (m.cpu.rw 15 - 2) = m.cpu.moveSp (-2) := by
      rw [Cpu.moveSp, if_neg (Bool.not_eq_true _ ▸ form), BitVec.sub_eq_add_neg]
    simp only [pushWord, StateM.bind_apply, getCpu, form, Bool.false_eq_true, if_false, stack]
    rw [← moved]
    exact ⟨_, rfl⟩

theorem popWord_cpu (m : Machine) : (m.cpu.moveSp 2).SameButFault (popWord m).2.cpu := by
  cases form : m.cpu.seg with
  | true =>
    have stack : m.cpu.spReg = 14 := by rw [Cpu.spReg, if_pos form]
    have moved : m.cpu.addrToReg 14 (addrAdd (m.cpu.addrFromReg 14) 2) = m.cpu.moveSp 2 := by
      rw [m.cpu.addrFromReg_stack form, addrAdd_internalAddr, m.cpu.addrToReg_stack form,
        Cpu.moveSp, if_pos form]
      rfl
    simp only [popWord, StateM.bind_apply, StateM.pure_apply, getCpu, form, if_true, stack]
    rw [← moved]
    refine ⟨m.cpu.fault || m.violates .read (m.cpu.addrFromReg 14), ?_⟩
    simp only [modifyCpu, memR16, Machine.cycle, Cpu.addrToReg, Cpu.seg] at form ⊢
    simp only [form, if_true]
    rfl
  | false =>
    have stack : m.cpu.spReg = 15 := by rw [Cpu.spReg, if_neg (Bool.not_eq_true _ ▸ form)]
    have moved : m.cpu.ww 15 (m.cpu.rw 15 + 2) = m.cpu.moveSp 2 := by
      rw [Cpu.moveSp, if_neg (Bool.not_eq_true _ ▸ form)]
    simp only [popWord, StateM.bind_apply, StateM.pure_apply, getCpu, form, Bool.false_eq_true,
      if_false, stack]
    rw [← moved]
    exact ⟨_, rfl⟩

/-- The first move of a trap entry: four bytes for the program counter. -/
theorem Cpu.reserveFrame (c : Cpu) (form : c.seg = true) :
    c.addrToReg c.spReg (addrSub (c.addrFromReg c.spReg) 4) = c.moveSp (-4) := by
  have stack : c.spReg = 14 := by rw [spReg, if_pos form]
  rw [stack, c.addrFromReg_stack form, addrSub_internalAddr, c.addrToReg_stack form, moveSp,
    if_pos form, BitVec.sub_eq_add_neg, show -((4 : Long).setWidth 16) = (-4 : Word) by decide]

/-! ## The stages -/

/-- The processor in the mode that the frame is pushed in. -/
def Cpu.enter (c : Cpu) (source : TrapSource) : Cpu :=
  { c.changeFcw (c.fcw ||| fcwSn ||| fcwSeg) with irqReq := c.irqReq &&& ~~~source.bit }

/-- The frame: program counter, old flag and control word, tag. -/
def pushFrame (oldfcw tag : Word) : Exec Unit := do
  let c ← getCpu
  let a := addrSub (c.addrFromReg c.spReg) 4
  modifyCpu fun c => c.addrToReg c.spReg a
  let segpc := makeSeg c.pc
  memW16 a ((segpc >>> 16).setWidth 16)
  memW16 (addrAdd a 2) (segpc.setWidth 16)
  pushWord oldfcw
  pushWord tag

/-- The address of the handler's flag and control word. -/
def Cpu.slotFcw (c : Cpu) (source : TrapSource) : Long := addrAdd (c.vectorAddr source.vecoff) 2

/-- The entry of a device vector, zero for none. -/
def Cpu.slotDevice (c : Cpu) (source : TrapSource) : Long :=
  if source.bit = irqVi ∧ source.tag ≠ 0 then c.deviceVector source.tag else 0

/-- The address of the handler's segment number. -/
def Cpu.slotSegment (c : Cpu) (source : TrapSource) : Long :=
  if c.slotDevice source = 0 then addrAdd (c.vectorAddr source.vecoff) 4 else c.slotDevice source

/-- The address of the handler's offset. -/
def Cpu.slotOffset (c : Cpu) (source : TrapSource) : Long :=
  if c.slotDevice source = 0 then addrAdd (c.vectorAddr source.vecoff) 6
  else addrAdd (c.slotDevice source) 2

/-- The processor at the handler. -/
def Cpu.atHandler (c : Cpu) (source : TrapSource) (nf pcseg pcoff : Word) : Cpu :=
  { { c with pc := pcFromWords pcseg pcoff }.changeFcw nf with
    halted := false, serviced := source.bit }

/-- The reads of the handler's status, and the jump. -/
def loadHandler (source : TrapSource) (c : Cpu) : Exec Unit := do
  let nf ← memR16 (c.slotFcw source)
  let pcseg ← memR16 (c.slotSegment source)
  let pcoff ← memR16 (c.slotOffset source)
  modifyCpu fun c => c.atHandler source nf pcseg pcoff

theorem enterTrap_apply (source : TrapSource) (m : Machine) :
    (enterTrap source m).2 = (loadHandler source m.cpu
      (pushFrame m.cpu.fcw source.tag { m with cpu := m.cpu.enter source }).2).2 := by
  have irq : (m.cpu.changeFcw (m.cpu.fcw ||| fcwSn ||| fcwSeg)).irqReq = m.cpu.irqReq := by
    dsimp only [Cpu.changeFcw]
    split_ifs <;> rfl
  unfold Cpu.enter
  rw [← irq]
  rfl

/-! ## What the stages preserve -/

/-- A relation between processors that the operations of a trap entry keep. -/
structure EntryRelation (R : Cpu → Cpu → Prop) : Prop where
  trans : ∀ {c d e : Cpu}, R c d → R d e → R c e
  ofFault : ∀ {c d : Cpu}, c.SameButFault d → R c d
  moveSp : ∀ (c : Cpu) (n : Word), R c (c.moveSp n)
  reserve : ∀ (c : Cpu) (a : Long), R c (c.addrToReg c.spReg a)
  changeFcw : ∀ (c : Cpu) (nf : Word), R c (c.changeFcw nf)
  course : ∀ (c : Cpu) (pc : Long) (halted : Bool) (serviced : Byte),
    R c { c with pc := pc, halted := halted, serviced := serviced }

namespace EntryRelation

variable {R : Cpu → Cpu → Prop} (relation : EntryRelation R)

include relation

theorem pushWord (v : Word) (m : Machine) : R m.cpu (pushWord v m).2.cpu :=
  relation.trans (relation.moveSp _ _) (relation.ofFault (pushWord_cpu v m))

theorem popWord (m : Machine) : R m.cpu (popWord m).2.cpu :=
  relation.trans (relation.moveSp _ _) (relation.ofFault (popWord_cpu m))

theorem pushFrame (oldfcw tag : Word) (m : Machine) :
    R m.cpu (pushFrame oldfcw tag m).2.cpu := by
  let frame := addrSub (m.cpu.addrFromReg m.cpu.spReg) 4
  let reserved : Machine := { m with cpu := m.cpu.addrToReg m.cpu.spReg frame }
  let high := (memW16 frame (((makeSeg m.cpu.pc) >>> 16).setWidth 16) reserved).2
  let low := (memW16 (addrAdd frame 2) ((makeSeg m.cpu.pc).setWidth 16) high).2
  have moved : R m.cpu reserved.cpu := relation.reserve _ _
  have stored : R reserved.cpu low.cpu :=
    relation.ofFault ((memW16_cpu _ reserved _).trans (memW16_cpu _ high _))
  exact relation.trans (relation.trans moved stored) (relation.trans
    (relation.pushWord oldfcw low) (relation.pushWord tag (C900.pushWord oldfcw low).2))

theorem loadHandler (source : TrapSource) (c : Cpu) (m : Machine) :
    R m.cpu (loadHandler source c m).2.cpu := by
  let first := memR16 (c.slotFcw source) m
  let second := memR16 (c.slotSegment source) first.2
  let third := memR16 (c.slotOffset source) second.2
  let jumped : Cpu := { third.2.cpu with pc := pcFromWords second.1 third.1 }
  have reads : R m.cpu third.2.cpu := relation.ofFault (((memR16_cpu _ m).trans
    (memR16_cpu _ first.2)).trans (memR16_cpu _ second.2))
  have loaded : R third.2.cpu (jumped.changeFcw first.1) := relation.trans
    (relation.course _ _ third.2.cpu.halted third.2.cpu.serviced) (relation.changeFcw jumped first.1)
  exact relation.trans (relation.trans reads loaded)
    (relation.course _ (jumped.changeFcw first.1).pc false source.bit)

end EntryRelation

/-! ## Requests -/

/-- The request lines, the vector and the pending requests are what they were. -/
structure Cpu.SameRequests (c d : Cpu) : Prop where
  irqReq : d.irqReq = c.irqReq
  nmiLine : d.nmiLine = c.nmiLine
  segtLine : d.segtLine = c.segtLine
  nviLine : d.nviLine = c.nviLine
  viLine : d.viLine = c.viLine
  viVector : d.viVector = c.viVector

namespace Cpu.SameRequests

theorem refl (c : Cpu) : c.SameRequests c := ⟨rfl, rfl, rfl, rfl, rfl, rfl⟩

theorem trans {c d e : Cpu} (first : c.SameRequests d) (second : d.SameRequests e) :
    c.SameRequests e :=
  ⟨second.irqReq.trans first.irqReq, second.nmiLine.trans first.nmiLine,
    second.segtLine.trans first.segtLine, second.nviLine.trans first.nviLine,
    second.viLine.trans first.viLine, second.viVector.trans first.viVector⟩

theorem of_sameButFault {c d : Cpu} (same : c.SameButFault d) : c.SameRequests d := by
  obtain ⟨fault, rfl⟩ := same
  exact ⟨rfl, rfl, rfl, rfl, rfl, rfl⟩

theorem addrToReg (c : Cpu) (r : Reg) (a : Long) : c.SameRequests (c.addrToReg r a) := by
  unfold Cpu.addrToReg
  split_ifs <;> exact ⟨rfl, rfl, rfl, rfl, rfl, rfl⟩

theorem moveSp (c : Cpu) (n : Word) : c.SameRequests (c.moveSp n) := by
  unfold Cpu.moveSp
  split_ifs <;> exact ⟨rfl, rfl, rfl, rfl, rfl, rfl⟩

theorem changeFcw (c : Cpu) (nf : Word) : c.SameRequests (c.changeFcw nf) := by
  unfold Cpu.changeFcw
  dsimp only
  split_ifs <;> exact ⟨rfl, rfl, rfl, rfl, rfl, rfl⟩

theorem entryRelation : EntryRelation SameRequests where
  trans := trans
  ofFault := of_sameButFault
  moveSp := moveSp
  reserve c a := addrToReg c c.spReg a
  changeFcw := changeFcw
  course _ _ _ _ := ⟨rfl, rfl, rfl, rfl, rfl, rfl⟩

end Cpu.SameRequests

/-- A trap entry withdraws the request it serves, and no other. -/
theorem enterTrap_requests (source : TrapSource) (m : Machine) :
    { m.cpu with irqReq := m.cpu.irqReq &&& ~~~source.bit }.SameRequests
      (enterTrap source m).2.cpu := by
  have entered := Cpu.SameRequests.changeFcw m.cpu (m.cpu.fcw ||| fcwSn ||| fcwSeg)
  have start : { m.cpu with irqReq := m.cpu.irqReq &&& ~~~source.bit }.SameRequests
      (m.cpu.enter source) :=
    ⟨rfl, entered.nmiLine, entered.segtLine, entered.nviLine, entered.viLine, entered.viVector⟩
  rw [enterTrap_apply]
  have stages := Cpu.SameRequests.entryRelation
  exact start.trans ((stages.pushFrame _ _ { m with cpu := m.cpu.enter source }).trans
    (stages.loadHandler source m.cpu _))

/-! ## The boundary -/

/-- The machine with its request lines sampled. -/
def Machine.sampled (m : Machine) : Machine := { m with cpu := m.cpu.sampleLines }

/-- What follows the sampling of the lines. -/
def takeInterrupt (hook : SysHook) (c : Cpu) : Exec Bool :=
  match c.trapSource with
  | none => return false
  | some source => do
    if source.bit = irqSyscall then
      match hook with
      | none => pure ()
      | some service => modify fun m => service m (loByte c.curOp) c.instrStart
    enterTrap source
    return true

theorem handleInterrupts_apply (hook : SysHook) (m : Machine) :
    handleInterrupts hook m = takeInterrupt hook m.sampled.cpu m.sampled := rfl

/-- No request is accepted. -/
theorem handleInterrupts_idle (hook : SysHook) {m : Machine}
    (idle : m.sampled.cpu.trapSource = none) : handleInterrupts hook m = (false, m.sampled) := by
  rw [handleInterrupts_apply, takeInterrupt, idle]
  rfl

/-- A request is accepted; a system call has no service outside the machine. -/
theorem handleInterrupts_trap {hook : SysHook} {m : Machine} {source : TrapSource}
    (taken : m.sampled.cpu.trapSource = some source)
    (unhooked : hook = none ∨ source.bit ≠ irqSyscall) :
    handleInterrupts hook m = (true, (enterTrap source m.sampled).2) := by
  rw [handleInterrupts_apply, takeInterrupt, taken]
  rcases unhooked with rfl | other
  · dsimp only
    split <;> rfl
  · dsimp only
    rw [if_neg other]
    rfl

/-! ## The return -/

section Return

variable (m : Machine) (system : m.cpu.sysmode = true)

include system

/-- The segmented return pops four words. -/
theorem execIret_seg (seg : (popWord (popWord m).2).2.cpu.seg = true) :
    (execIret m).2 =
      let nf := popWord (popWord m).2
      let hi := popWord nf.2
      let lo := popWord hi.2
      { lo.2 with cpu := { lo.2.cpu with pc := segAddr (hi.1 ++ lo.1) }.changeFcw nf.1 } := by
  unfold execIret
  rw [privileged_system _ m system]
  simp only [StateM.bind_apply, getCpu, StateM.ite_apply, seg, if_true]
  rfl

/-- The other return pops three. -/
theorem execIret_nonseg (seg : (popWord (popWord m).2).2.cpu.seg = false) :
    (execIret m).2 =
      let nf := popWord (popWord m).2
      let lo := popWord nf.2
      { lo.2 with cpu := { lo.2.cpu with pc := lo.1.setWidth 32 }.changeFcw nf.1 } := by
  unfold execIret
  rw [privileged_system _ m system]
  simp only [StateM.bind_apply, getCpu, StateM.ite_apply, seg, Bool.false_eq_true, if_false]
  rfl

end Return

/-! ## LDPS -/

/-- The address of the status block. -/
def Cpu.ldpsBase (c : Cpu) (w : CtrlWord) : Long :=
  let idx := nib2 (c.opcode 0)
  if w.src2 = .ir then c.addrFromReg idx
  else if idx = 0 then c.segAddrOp 1
  else addrAdd (c.segAddrOp 1) ((c.rw idx).setWidth 32)

/-- The status block of the segmented form. -/
def loadStatusSeg (base : Long) : Exec Unit := do
  let nf ← memR16 (addrAdd base 2)
  let pcseg ← memR16 (addrAdd base 4)
  let pcoff ← memR16 (addrAdd base 6)
  modifyCpu fun c => { c with pc := pcFromWords pcseg pcoff }.changeFcw nf

/-- The status block of the other form. -/
def loadStatusNonseg (base : Long) : Exec Unit := do
  let nf ← memR16 base
  let pc ← memR16 (addrAdd base 2)
  modifyCpu fun c => { c with pc := pc.setWidth 32 }.changeFcw nf

theorem execLdps_apply (m : Machine) (system : m.cpu.sysmode = true) (w : CtrlWord) :
    execLdps w m = if m.cpu.seg then loadStatusSeg (m.cpu.ldpsBase w) m
      else loadStatusNonseg (m.cpu.ldpsBase w) m := by
  rw [← StateM.ite_apply]
  exact privileged_system _ m system

/-- LDPS reads a status and jumps. -/
theorem execLdps_jump (m : Machine) (system : m.cpu.sysmode = true) (w : CtrlWord) :
    ∃ fault pc nf, (execLdps w m).2.cpu =
      ({ m.cpu with fault := fault, pc := pc }).changeFcw nf := by
  rw [execLdps_apply m system]
  split
  · let first := memR16 (addrAdd (m.cpu.ldpsBase w) 2) m
    let second := memR16 (addrAdd (m.cpu.ldpsBase w) 4) first.2
    let third := memR16 (addrAdd (m.cpu.ldpsBase w) 6) second.2
    obtain ⟨fault, same⟩ := ((memR16_cpu _ m).trans (memR16_cpu _ first.2)).trans
      (memR16_cpu (addrAdd (m.cpu.ldpsBase w) 6) second.2)
    refine ⟨fault, pcFromWords second.1 third.1, first.1, ?_⟩
    have run : (loadStatusSeg (m.cpu.ldpsBase w) m).2.cpu =
        ({ third.2.cpu with pc := pcFromWords second.1 third.1 } : Cpu).changeFcw first.1 := rfl
    rw [run, same]
  · let first := memR16 (m.cpu.ldpsBase w) m
    let second := memR16 (addrAdd (m.cpu.ldpsBase w) 2) first.2
    obtain ⟨fault, same⟩ := (memR16_cpu _ m).trans
      (memR16_cpu (addrAdd (m.cpu.ldpsBase w) 2) first.2)
    refine ⟨fault, second.1.setWidth 32, first.1, ?_⟩
    have run : (loadStatusNonseg (m.cpu.ldpsBase w) m).2.cpu =
        ({ second.2.cpu with pc := second.1.setWidth 32 } : Cpu).changeFcw first.1 := rfl
    rw [run, same]

end C900
