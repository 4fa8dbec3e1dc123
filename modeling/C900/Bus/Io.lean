import C900.Bus.Serial
import C900.Bus.Clock
import C900.Bus.Disk
import C900.Mmu.Translate

/-!
# Input and output

`io_read` and `io_write`: the special address space reaches the MMU command
ports, the normal one the serial chips, the two CIOs, the stop doorbell and the
disk doorbell. `machine_new` is here because it powers all of them up.
-/

namespace C900

/-- The MMU answers a special port by the low byte of its number. -/
def isMmuPort (port : Word) : Bool := loByte port == 0xFC || loByte port == 0xF8

/-- The CIO register of a port, `(port >> 1) & 0x3F`. -/
def cioReg (port : Word) : BitVec 6 := (port >>> 1).setWidth 6

/-- The serial register of a port, `(port >> 1) & 0x0F`. -/
def sccReg (port : Word) : Reg := (port >>> 1).setWidth 4

/-- Bit 5 of a serial port selects channel A. -/
def sccChanA (port : Word) : Bool := (port >>> 5) &&& 1 == 1

/-- A device byte travels on the high lane. -/
def highLane (v : Byte) : Word := v.setWidth 16 <<< 8

/-! ## Reads -/

/-- The normal half of `io_read`. -/
def busRead (b : Bus) (insns : Quad) (port : Word) : Word × Bus :=
  match sccChipAt b port with
  | some chip =>
    let (v, b) := sccRead b insns chip (sccChanA port) (sccReg port)
    (highLane v, b)
  | none =>
    if port &&& 0xFF80 = 0x0000 then
      let reg := cioReg port
      if b.cio1Reset && reg != 0 then (0, b)
      else if reg = cioPbdata then
        let (v, b) := rtcPbReadFrom b insns (b.cio1 reg)
        (highLane v, b)
      else (highLane (b.cio1 reg), b)
    else if port &&& 0xFF80 = 0x0080 then
      let reg := cioReg port
      if b.cio2Reset && reg != 0 then (0, b) else (highLane (b.cio2 reg), b)
    else (0, b)

/-- `io_read`. -/
def ioRead (m : Machine) (port : Word) (special : Bool) : Word × Machine :=
  if special then
    if isMmuPort port then
      let (v, u) := mmuCmdRead m.mmu (hiByte port)
      (v, { m with mmu := u })
    else (0, m)
  else
    let (v, b) := busRead m.bus m.cpu.insns port
    (v, { m with bus := b })

/-! ## Writes -/

/-- The command field of the CT3 Command and Status register, applied to its
IP, IE and IUS bits. -/
def ct3Command (cs cmd : Byte) : Byte :=
  match cmd.toNat with
  | 1 => cs &&& ~~~(0xA0 : Byte)
  | 2 => cs ||| 0x80
  | 3 => cs &&& ~~~(0x80 : Byte)
  | 4 => cs ||| 0x20
  | 5 => cs &&& ~~~(0x20 : Byte)
  | 6 => cs ||| 0x40
  | 7 => cs &&& ~~~(0x40 : Byte)
  | _ => cs

/-- A write to the CT3 Command and Status register. -/
def ct3Write (b : Bus) (v : Byte) : Bus :=
  let cs := ct3Command (b.cio1 0x0C) ((v >>> 5) &&& 0x07)
  let cs := (cs &&& ~~~(0x04 : Byte)) ||| (v &&& 0x04)
  let b :=
    if v &&& 0x02 != 0 && (!b.ct3Running || b.cio1 0x1E &&& 0x04 != 0) then
      { b with ct3Running := true, ct3Accum := 0 }
    else b
  { b with cio1 := Function.update b.cio1 0x0C cs }

/-- A write to CIO #1. A port C write hands the clock the old port B level, so
that only /CS moves. -/
def cio1Write (b : Bus) (insns : Quad) (reg : BitVec 6) (v : Byte) : Bus :=
  let b := if reg = 0 ∧ v &&& 0x01 = 0 then { b with cio1Reset := false } else b
  if reg = 0x0C then ct3Write b v
  else
    let b := { b with cio1 := Function.update b.cio1 reg v }
    if reg = cioPbdata then rtcPbWriteTo b insns v
    else if reg = cioPcdata then rtcPbWriteTo b insns b.rtc.prevPb
    else b

/-- A write to CIO #2. -/
def cio2Write (b : Bus) (reg : BitVec 6) (v : Byte) : Bus :=
  let b := if reg = 0 ∧ v &&& 0x01 = 0 then { b with cio2Reset := false } else b
  { b with cio2 := Function.update b.cio2 reg v }

/-- The normal half of `io_write`. -/
def busWrite (b : Bus) (insns : Quad) (port data : Word) : Bus :=
  match sccChipAt b port with
  | some chip => sccWrite b insns chip (sccChanA port) (sccReg port) (hiByte data)
  | none =>
    if port &&& 0xFF80 = 0x0000 then cio1Write b insns (cioReg port) (hiByte data)
    else if port &&& 0xFF80 = 0x0080 then cio2Write b (cioReg port) (hiByte data)
    else if port = b.stopPort ∧ b.stopPort ≠ 0 then
      if data = 0xC900 then { b with stop := true } else b
    else if port &&& 0xFF00 = 0x0200 then b
    else if 0x0500 ≤ port ∧ port ≤ 0x05FF then
      if data ≠ 0 then hdcDoorbell b else b
    else b

/-- `io_write`. -/
def ioWrite (m : Machine) (port data : Word) (special : Bool) : Machine :=
  if special then
    if isMmuPort port then { m with mmu := mmuCmdWrite m.mmu (hiByte port) (loByte data) }
    else m
  else { m with bus := busWrite m.bus m.cpu.insns port data }

/-- A device reads and writes no register. -/
theorem ioRead_cpu (m : Machine) (port : Word) (special : Bool) :
    (ioRead m port special).2.cpu = m.cpu := by
  unfold ioRead
  split_ifs <;> rfl

theorem ioWrite_cpu (m : Machine) (port data : Word) (special : Bool) :
    (ioWrite m port data special).cpu = m.cpu := by
  unfold ioWrite
  split_ifs <;> rfl

/-! ## Power-up -/

/-- `machine_new`. `default` is the zeroed record that `calloc` returns. -/
def machineNew : Machine :=
  let m : Machine := default
  let b := { m.bus with hdcCmdblk := 0x080000, cio1Reset := true, cio2Reset := true }
  let b := { b with rtc := { b.rtc with ips := rtcDefaultIps } }
  { m with bus := rtcSetTime b 0 1978 1 1 0 0 0, mmu := mmuReset m.mmu }

/-- A new machine has the board's memory decode, and nothing has run past the
end of its RAM. -/
theorem machineNew_board :
    machineNew.bus.flatMem = false ∧ machineNew.bus.overrun = false := ⟨rfl, rfl⟩

end C900
