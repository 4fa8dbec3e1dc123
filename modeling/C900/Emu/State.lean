import Mathlib.Logic.Function.Basic
import Mathlib.Algebra.Ring.Int.Defs
import Mathlib.Algebra.GroupWithZero.Nat

/-!
# The machine record

The types of `emu.h`: the processor, the memory management unit, the bus with
its devices, and the machine that joins them. Fixed-width C integers are bit
vectors of the same width; a C array is a function from its index type, so an
index outside a fixed table cannot be written down.

Two fields are not in the program, and no definition decides anything on them:
`Machine.trace` records the bus cycles of a run, newest first, and `Bus.overrun`
an index outside the RAM array.
-/

namespace C900

/-- `uint8_t`. -/
abbrev Byte := BitVec 8
/-- `uint16_t`. -/
abbrev Word := BitVec 16
/-- `uint32_t`; also every logical and physical address. -/
abbrev Long := BitVec 32
/-- `uint64_t`. -/
abbrev Quad := BitVec 64
/-- A register number, always one opcode nibble. -/
abbrev Reg := BitVec 4

/-- The literals of the index types. -/
instance neZeroThree : NeZero 3 := ⟨by decide⟩

instance neZeroSix : NeZero 6 := ⟨by decide⟩

instance neZeroNine : NeZero 9 := ⟨by decide⟩

/-! ## Flag and control word -/

def fC : Word := 0x0080
def fZ : Word := 0x0040
def fS : Word := 0x0020
def fPv : Word := 0x0010
def fDa : Word := 0x0008
def fH : Word := 0x0004

def fcwSeg : Word := 0x8000
def fcwSn : Word := 0x4000
def fcwVie : Word := 0x1000
def fcwNvie : Word := 0x0800

/-! ## Pending trap and interrupt bits -/

def irqSyscall : Byte := 0x02
def irqVi : Byte := 0x04
def irqNvi : Byte := 0x08
def irqSegtrap : Byte := 0x10
def irqNmi : Byte := 0x20
def irqTrap : Byte := 0x40
def irqEpu : Byte := 0x80

/-! ## Processor -/

/-- `CPU`. The back pointer `m` is the enclosing `Machine`; `nmi_prev` is
written at reset only and is left out. -/
structure Cpu where
  R : Reg → Word
  /-- Segment in bits 22..16, offset in bits 15..0. -/
  pc : Long
  fcw : Word
  psap : Long
  refresh : Word
  nspseg : Word
  nspoff : Word
  halted : Bool
  irqReq : Byte
  nviLine : Bool
  viLine : Bool
  nmiLine : Bool
  segtLine : Bool
  viVector : Word
  curOp : Word
  opcode : Fin 6 → Word
  oplen : Nat
  segW1 : Bool
  segW2 : Bool
  instrStart : Long
  repeatPending : Bool
  fault : Bool
  insns : Quad
  serviced : Byte
deriving Inhabited

/-! ## Memory management unit -/

def aRef : Byte := 0x80
def aChg : Byte := 0x40
def aDirw : Byte := 0x20
def aDmai : Byte := 0x10
def aExc : Byte := 0x08
def aCpu : Byte := 0x04
def aSys : Byte := 0x02
def aRd : Byte := 0x01

def modeMsen : Byte := 0x80
def modeTrns : Byte := 0x40

/-- `MmuDesc`. -/
structure MmuDesc where
  base : Word
  limit : Byte
  attr : Byte
deriving DecidableEq, Inhabited

/-- `MMU`. -/
structure Mmu where
  desc : BitVec 6 → MmuDesc
  mode : Byte
  sar : Byte
  dsc : Byte
  violType : Byte
  violSn : Byte
  violOff : Word
  bcsr : Byte
  isn : Byte
  ioff : Byte
  violCaptured : Bool
  segt : Bool
  warnPending : Bool
  fastBase : BitVec 6 → Long
  fastOk : BitVec 6 → Bool
deriving Inhabited

/-! ## Devices -/

/-- `SCCChan`. -/
structure SccChan where
  wr : Reg → Byte
  ptr : Reg
  rxAvail : Bool
  rxData : Byte
  rxOverrun : Bool
  rxLost : Quad
deriving Inhabited

/-- A host file opened by `fopen`: its bytes, their number, whether the stream
takes writes, and the file position. -/
structure HostFile where
  byte : Nat → Byte
  size : Nat
  writable : Bool
  pos : Nat
deriving Inhabited

/-- `Disk`. The geometry fields are never read. -/
structure Disk where
  fp : HostFile
  sectors : Long
  present : Bool
deriving Inhabited

/-- `RTC`. -/
structure Rtc where
  present : Bool
  regs : Reg → Byte
  addr : Reg
  stopped : Bool
  prevPb : Byte
  prevCs : Bool
  csSince : Quad
  ips : Quad
  base : Quad
  held : Quad
  nRead : Quad
  nWrite : Quad
  nTick : Quad
  nTickSelected : Quad
deriving Inhabited

/-- What lies behind the memory management unit: `struct Machine` without the
processor, the MMU and the scripted-input state of the run loop.

`sent` collects what each serial port hands to the host, newest byte first.
`overrun` is not in the program: it records that a block access indexed `ram`
from 2^24 on, beyond its 16 MiB. -/
structure Bus where
  rom : Long → Byte
  ram : Long → Byte
  flatMem : Bool
  flatMaxseg : Byte
  overrun : Bool
  sccB : SccChan
  sccA : SccChan
  lrSccChan : Fin 4 → SccChan
  lrScc : Bool
  wirePortOn : Fin 6 → Bool
  sent : Fin 6 → List Byte
  disk : Disk
  floppy : Disk
  hdcCmdblk : Long
  cio1 : BitVec 6 → Byte
  cio2 : BitVec 6 → Byte
  cio1Reset : Bool
  cio2Reset : Bool
  rtc : Rtc
  diskVi : Bool
  ct3Running : Bool
  ct3Accum : Long
  stop : Bool
  stopPort : Word
  stopMark : Option (List Byte)
  stopMarkPos : Fin 6 → Nat
  inqMark : Option (List Byte)
  inqMarkPos : Nat
  inqMarkSeen : Bool
  lastTxInsn : Quad
  rxPollStreak : Long
  guestPolls : Bool
  shellUp : Bool
  promptSeq : Long
  atPrompt : Bool
deriving Inhabited

/-! ## Bus cycles and the machine -/

/-- The three kinds of translated memory cycle. -/
inductive Access where
  | fetch
  | read
  | write
deriving DecidableEq

/-- One bus cycle of a run. A memory cycle keeps the physical address the MMU
returned and whether it reported a hard violation. -/
inductive Event where
  | mem (kind : Access) (wide : Bool) (addr phys : Long) (viol : Bool)
  | ioRead (port : Word) (isByte special : Bool) (data : Word)
  | ioWrite (port data : Word) (isByte special : Bool)
deriving DecidableEq

/-- `struct Machine`, with the record of its bus cycles. -/
structure Machine where
  cpu : Cpu
  mmu : Mmu
  bus : Bus
  trace : List Event
deriving Inhabited

end C900
