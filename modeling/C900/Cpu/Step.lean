import C900.Cpu.Execute

/-!
# One step of the processor

Trap entry, instruction fetch, the in-place repeat loop and `cpu_step`. The loop
takes fuel, the number of elements it may still execute; the step returns nothing
when the fuel runs out.
-/

namespace C900

/-! ## Traps and interrupts -/

/-- `m->sys_hook`: it sees the system call number and the program counter. A
machine boot has none. -/
abbrev SysHook := Option (Machine → Byte → Long → Machine)

/-- `psa_addr`. -/
def Cpu.psaAddr (c : Cpu) : Long := c.psap &&& 0x007FFFFF

/-- `vector_addr`. -/
def Cpu.vectorAddr (c : Cpu) (off : Long) : Long := addrAdd c.psaAddr (2 * off)

/-- Sample the request lines. -/
def Cpu.sampleLines (c : Cpu) : Cpu :=
  let c := if c.nmiLine then c.request irqNmi else c
  let c := if c.segtLine then c.request irqSegtrap else c
  let c := if c.nviLine && c.fcw &&& fcwNvie != 0 then c.request irqNvi else c
  if c.viLine && c.fcw &&& fcwVie != 0 then c.request irqVi else c

/-- A source of a trap: its request bit, its slot in the program status area, and
the tag it pushes. -/
structure TrapSource where
  bit : Byte
  vecoff : Long
  tag : Word

/-- The highest-priority pending source. -/
def Cpu.trapSource (c : Cpu) : Option TrapSource :=
  let pending (bit : Byte) := c.irqReq &&& bit != 0
  if pending irqEpu then some ⟨irqEpu, 0x04, c.curOp⟩
  else if pending irqTrap then some ⟨irqTrap, 0x08, c.curOp⟩
  else if pending irqSyscall then some ⟨irqSyscall, 0x0C, c.curOp⟩
  else if pending irqSegtrap then some ⟨irqSegtrap, 0x10, 0⟩
  else if pending irqNmi then some ⟨irqNmi, 0x14, 0⟩
  else if pending irqNvi && c.fcw &&& fcwNvie != 0 then some ⟨irqNvi, 0x18, 0⟩
  else if pending irqVi && c.fcw &&& fcwVie != 0 then some ⟨irqVi, 0x1C, c.viVector⟩
  else none

/-- The table slot of a device vector, `V_BASE + (tag & 0xFF)` doubled. -/
def Cpu.deviceVector (c : Cpu) (tag : Word) : Long :=
  addrAdd c.psaAddr ((0x1E + (tag &&& 0xFF).setWidth 32) <<< 1)

/-- The entry sequence of a trap: push the status, load the handler's. -/
def enterTrap (source : TrapSource) : Exec Unit := do
  let c ← getCpu
  let oldfcw := c.fcw
  let vecaddr := c.vectorAddr source.vecoff
  -- Zero stands for no device vector, as in the source.
  let pervec := if source.bit = irqVi ∧ source.tag ≠ 0 then c.deviceVector source.tag else 0
  modifyCpu fun c =>
    let c := c.changeFcw (c.fcw ||| fcwSn ||| fcwSeg)
    { c with irqReq := c.irqReq &&& ~~~source.bit }
  let c ← getCpu
  let a := addrSub (c.addrFromReg c.spReg) 4
  modifyCpu fun c => c.addrToReg c.spReg a
  let segpc := makeSeg c.pc
  memW16 a ((segpc >>> 16).setWidth 16)
  memW16 (addrAdd a 2) (segpc.setWidth 16)
  pushWord oldfcw
  pushWord source.tag
  let nf ← memR16 (addrAdd vecaddr 2)
  let pcseg ← memR16 (if pervec = 0 then addrAdd vecaddr 4 else pervec)
  let pcoff ← memR16 (if pervec = 0 then addrAdd vecaddr 6 else addrAdd pervec 2)
  modifyCpu fun c =>
    let c := { c with pc := pcFromWords pcseg pcoff }.changeFcw nf
    { c with halted := false, serviced := source.bit }

/-- `handle_interrupts`: the result tells whether a trap was taken. -/
def handleInterrupts (hook : SysHook) : Exec Bool := do
  modifyCpu Cpu.sampleLines
  let c ← getCpu
  match c.trapSource with
  | none => return false
  | some source =>
    if source.bit = irqSyscall then
      match hook with
      | none => pure ()
      | some service => modify fun m => service m (loByte c.curOp) c.instrStart
    enterTrap source
    return true

/-! ## Fetch -/

/-- `c->opcode[i] = v`. -/
def Cpu.setOpcode (c : Cpu) (i : Fin 6) (v : Word) : Cpu :=
  { c with opcode := Function.update c.opcode i v }

/-- The loop over the words behind the first, from the address before them. -/
def fetchOperands : List (Fin 6) → Long → Exec Unit
  | [], _ => pure ()
  | i :: rest, p => do
    let p := addrAdd p 2
    let v ← ifetch16 p
    modifyCpu (·.setOpcode i v)
    fetchOperands rest p

/-- The short-form reductions of the instruction length. -/
def Cpu.reduceLength (c : Cpu) (need : Nat) : Nat :=
  let need := if 3 ≤ need ∧ c.segW1 ∧ c.opcode 1 &&& 0x8000 = 0 then need - 1 else need
  if 4 ≤ need ∧ c.segW2 ∧ c.opcode 2 &&& 0x8000 = 0 then need - 1 else need

/-- The fetch of the instruction at the program counter, and its decoding. -/
def fetchWords : Exec (Option CtrlWord) := do
  let c ← getCpu
  let op0 ← ifetch16 c.pc
  let need := decodeLength op0 c.seg
  modifyCpu fun c =>
    { c.setOpcode 0 op0 with
      segW1 := decodeSegAddrW1 op0 c.seg, segW2 := decodeSegAddrW2 op0 c.seg }
  fetchOperands ([1, 2, 3, 4, 5].take (need - 1)) c.pc
  modifyCpu fun c => { c with oplen := c.reduceLength need, curOp := op0 }
  let c ← getCpu
  return decodeLookup op0 (c.opcode 1) c.oplen

/-- The flags of the processor at the start of an instruction. -/
def Cpu.beginFetch (c : Cpu) : Cpu :=
  { c with fault := false, repeatPending := false, instrStart := c.pc }

/-- The fetch and decode half of `cpu_step`. -/
def fetchDecode : Exec (Option CtrlWord) := do
  modifyCpu Cpu.beginFetch
  fetchWords

/-- `pc_next`, the address behind the instruction. -/
def Cpu.pcNext (c : Cpu) : Long := addrAdd c.instrStart (BitVec.ofNat 32 (c.oplen * 2))

/-! ## Execution -/

/-- A pending write warning becomes a segment trap request. -/
def Machine.takeWarning (m : Machine) : Machine :=
  if m.mmu.warnPending then
    { m with cpu := m.cpu.request irqSegtrap, mmu := { m.mmu with warnPending := false } }
  else m

/-- One `execute` with its instruction count and write warning. -/
def executeElement (w : CtrlWord) (m : Machine) : Machine :=
  let m := (execute w m).2
  { m with cpu := { m.cpu with insns := m.cpu.insns + 1 } }.takeWarning

/-- A hard fault requests a segment trap and sets the program counter. -/
def Machine.abort (m : Machine) (pc : Long) : Machine :=
  { m with cpu := { m.cpu.request irqSegtrap with pc := pc } }

/-- The test at the head of the repeat loop. -/
def Cpu.preempted (c : Cpu) : Bool :=
  c.nmiLine || c.segtLine || (c.viLine && c.fcw &&& fcwVie != 0) ||
    (c.nviLine && c.fcw &&& fcwNvie != 0) || c.irqReq != 0

/-- `c->repeat_pending = false`. -/
def Machine.clearRepeat (m : Machine) : Machine :=
  { m with cpu := { m.cpu with repeatPending := false } }

/-- `c->pc = c->instr_start`. -/
def Machine.rewind (m : Machine) : Machine :=
  { m with cpu := { m.cpu with pc := m.cpu.instrStart } }

/-- The in-place repeat loop. -/
def repeatLoop (w : CtrlWord) : Nat → Machine → Option Machine
  | fuel, m =>
    if m.cpu.repeatPending then
      let m := m.clearRepeat
      if m.cpu.preempted then some m.rewind
      else
        match fuel with
        | 0 => none
        | fuel + 1 =>
          let m := executeElement w m
          if m.cpu.fault then some (m.abort m.cpu.instrStart) else repeatLoop w fuel m
    else some m

/-- The instruction itself, from its first element on. -/
def runInstruction (fuel : Nat) (w : CtrlWord) (m : Machine) : Option Machine :=
  let next := m.cpu.pcNext
  let m := executeElement w { m with cpu := { m.cpu with pc := next } }
  if m.cpu.fault then some (m.abort next) else repeatLoop w fuel m

/-- An unrecognised encoding. -/
def Machine.illegal (m : Machine) : Machine :=
  { m with cpu := { m.cpu.request irqEpu with pc := m.cpu.pcNext } }

/-- `cpu_step` past the interrupt boundary. -/
def stepInstruction (fuel : Nat) (m : Machine) : Option Machine :=
  match fetchDecode m with
  | (none, m) => some m.illegal
  | (some w, m) => runInstruction fuel w m

/-- `c->serviced = 0`. -/
def Machine.beginStep (m : Machine) : Machine := { m with cpu := { m.cpu with serviced := 0 } }

/-- `cpu_step`. -/
def cpuStep (hook : SysHook) (fuel : Nat) (m : Machine) : Option Machine :=
  match handleInterrupts hook m.beginStep with
  | (true, m) => some m
  | (false, m) => if m.cpu.halted then some m else stepInstruction fuel m

/-- `cpu_reset`. -/
def cpuReset (m : Machine) : Machine :=
  { m with cpu := { m.cpu with
      R := fun _ => 0
      fcw := physRead16 m.bus 0x0002
      pc := pcFromWords (physRead16 m.bus 0x0004) (physRead16 m.bus 0x0006)
      psap := 0, refresh := 0, nspseg := 0, nspoff := 0, halted := false, irqReq := 0
      nviLine := false, viLine := false, nmiLine := false, segtLine := false } }

end C900
