import C900.Bus.Io
import C900.Cpu.Registers

/-!
# Bus cycles

The translated memory accesses of `cpu.c`, the I/O cycles, and the stack. Every
access goes through `Machine.cycle`: translate, latch a hard violation in
`fault`, and record the cycle.
-/

namespace C900

/-- A step of the processor. -/
abbrev Exec := StateM Machine

/-! ## Translated cycles -/

/-- The segment number of a logical address. -/
def segOf (a : Long) : Byte := ((a >>> 16) &&& 0x7F).setWidth 8

/-- The offset of a logical address. -/
def offOf (a : Long) : Word := a.setWidth 16

namespace Machine

/-- `mmu_translate` as the access helpers call it. -/
def translate (m : Machine) (kind : Access) (a : Long) : Long × Bool × Mmu :=
  mmuTranslate m.mmu (segOf a) (offOf a) (kind == .write) (!m.cpu.sysmode) (kind == .fetch)

/-- The physical address of an access. -/
def physOf (m : Machine) (kind : Access) (a : Long) : Long := (m.translate kind a).1

/-- The access is a hard violation. -/
def violates (m : Machine) (kind : Access) (a : Long) : Bool := (m.translate kind a).2.1

/-- The record of an access. -/
def memEvent (m : Machine) (kind : Access) (wide : Bool) (a : Long) : Event :=
  .mem kind wide a (m.physOf kind a) (m.violates kind a)

/-- The machine after a translated cycle, before any store. -/
def cycle (m : Machine) (kind : Access) (wide : Bool) (a : Long) : Machine :=
  { m with
    mmu := (m.translate kind a).2.2
    cpu := { m.cpu with fault := m.cpu.fault || m.violates kind a }
    trace := m.memEvent kind wide a :: m.trace }

end Machine

/-- The processor. -/
def getCpu : Exec Cpu := fun m => (m.cpu, m)

/-- Change the processor. -/
def modifyCpu (f : Cpu → Cpu) : Exec Unit := fun m => ((), { m with cpu := f m.cpu })

/-- `ifetch16`. -/
def ifetch16 (a : Long) : Exec Word := fun m =>
  (physRead16 m.bus (m.physOf .fetch a), m.cycle .fetch true a)

/-- `mem_r16`. -/
def memR16 (a : Long) : Exec Word := fun m =>
  (physRead16 m.bus (m.physOf .read a), m.cycle .read true a)

/-- `mem_r8`. -/
def memR8 (a : Long) : Exec Byte := fun m =>
  (physRead8 m.bus (m.physOf .read a), m.cycle .read false a)

/-- `mem_w16`: a violating store is dropped. -/
def memW16 (a : Long) (v : Word) : Exec Unit := fun m =>
  ((), { m.cycle .write true a with
    bus := if m.violates .write a then m.bus else physWrite16 m.bus (m.physOf .write a) v })

/-- `mem_w8`. -/
def memW8 (a : Long) (v : Byte) : Exec Unit := fun m =>
  ((), { m.cycle .write false a with
    bus := if m.violates .write a then m.bus else physWrite8 m.bus (m.physOf .write a) v })

/-- `mem_read_w`. -/
def memReadW (a : Long) (w : Width) : Exec Quad :=
  match w with
  | .byte => do return (← memR8 a).setWidth 64
  | .long => do
    let hi ← memR16 a
    let lo ← memR16 (addrAdd a 2)
    return hi.setWidth 64 <<< 16 ||| lo.setWidth 64
  | .word => do return (← memR16 a).setWidth 64

/-- `mem_write_w`. -/
def memWriteW (a : Long) (v : Quad) (w : Width) : Exec Unit :=
  match w with
  | .byte => memW8 a (v.setWidth 8)
  | .long => do
    memW16 a ((v >>> 16).setWidth 16)
    memW16 (addrAdd a 2) (v.setWidth 16)
  | .word => memW16 a (v.setWidth 16)

/-! ## I/O cycles -/

/-- `io_read`, recorded. -/
def ioReadCycle (port : Word) (isByte special : Bool) : Exec Word := fun m =>
  let (v, after) := ioRead m port special
  (v, { after with trace := .ioRead port isByte special v :: after.trace })

/-- `io_write`, recorded. -/
def ioWriteCycle (port data : Word) (isByte special : Bool) : Exec Unit := fun m =>
  let after := ioWrite m port data special
  ((), { after with trace := .ioWrite port data isByte special :: after.trace })

/-! ## Requests and privilege -/

/-- `c->irq_req |= bits`. -/
def Cpu.request (c : Cpu) (bits : Byte) : Cpu := { c with irqReq := c.irqReq ||| bits }

/-- `if (!check_priv(c)) return; body`. -/
def privileged (body : Exec Unit) : Exec Unit := do
  if (← getCpu).sysmode then body else modifyCpu (·.request irqTrap)

/-! ## Stack -/

/-- `push_word`. -/
def pushWord (v : Word) : Exec Unit := do
  let c ← getCpu
  let sp := c.spReg
  if c.seg then
    let a := addrSub (c.addrFromReg sp) 2
    modifyCpu (·.addrToReg sp a)
    memW16 a v
  else
    let a := c.rw sp - 2
    modifyCpu (·.ww sp a)
    memW16 (c.pcSegment ||| a.setWidth 32) v

/-- `pop_word`. -/
def popWord : Exec Word := do
  let c ← getCpu
  let sp := c.spReg
  if c.seg then
    let a := c.addrFromReg sp
    let v ← memR16 a
    modifyCpu (·.addrToReg sp (addrAdd a 2))
    return v
  else
    let a := c.rw sp
    let v ← memR16 (c.pcSegment ||| a.setWidth 32)
    modifyCpu (·.ww sp (a + 2))
    return v

end C900
