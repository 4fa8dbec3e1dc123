import C900.Bus.Memory

/-!
# The disk controller

`hdc_process` and the doorbell of `bus.c`, over a model of the C stream calls
on a regular file. The data phases of Read and Write are definitions of their
own (`hdcReadData`, `hdcWriteData`): both choose between a block copy and a loop
over sectors.
-/

namespace C900

/-! ## Host files -/

/-- `fseek(fp, pos, SEEK_SET)`. -/
def HostFile.fseek (f : HostFile) (pos : Nat) : HostFile := { f with pos := pos }

/-- The number of bytes that `fread(_, 1, n, fp)` returns. -/
def HostFile.available (f : HostFile) (n : Nat) : Nat := min n (f.size - f.pos)

/-- The stream after `fread(_, 1, n, fp)`. -/
def HostFile.afterRead (f : HostFile) (n : Nat) : HostFile :=
  { f with pos := f.pos + f.available n }

/-- The `i`-th byte that `fread` delivers. -/
def HostFile.readByte (f : HostFile) (i : Nat) : Byte := f.byte (f.pos + i)

/-- `fwrite(v, 1, n, fp)`. A write beyond the end fills the gap with zeros; a
stream opened for reading only takes nothing. -/
def HostFile.fwrite (f : HostFile) (n : Nat) (v : Nat → Byte) : HostFile :=
  if !f.writable || n == 0 then f
  else
    { f with
      byte := fun j =>
        if f.pos ≤ j ∧ j < f.pos + n then v (j - f.pos)
        else if f.size ≤ j ∧ j < f.pos then 0
        else f.byte j
      size := max f.size (f.pos + n)
      pos := f.pos + n }

/-! ## Command blocks -/

/-- The bytes of a command block that the controller reads. -/
structure HdcCommand where
  opcode : Byte
  lunhi : Byte
  mid : Byte
  low : Byte
  bcnt : Byte
  dmaHi : Byte
  dmaMid : Byte
  dmaLo : Byte

/-- The 24-bit transfer address. -/
def HdcCommand.dma (c : HdcCommand) : Long :=
  (c.dmaHi.setWidth 32 <<< 16) ||| (c.dmaMid.setWidth 32 <<< 8) ||| c.dmaLo.setWidth 32

/-- The block number. -/
def HdcCommand.lba (c : HdcCommand) : Long :=
  ((c.lunhi &&& 0x1F).setWidth 32 <<< 16) ||| (c.mid.setWidth 32 <<< 8) ||| c.low.setWidth 32

/-- `n`, the number of bytes to move. -/
def HdcCommand.length (c : HdcCommand) : Nat := c.bcnt.toNat * 512

/-- The file position of the first byte. -/
def HdcCommand.start (c : HdcCommand) : Nat := c.lba.toNat * 512

/-- The test that selects the block copy: segments of the first and the last
address. -/
def HdcCommand.blockCopy (c : HdcCommand) : Bool :=
  decide ((0x08 : Long) ≤ (c.dma >>> 16) &&& 0xFF) &&
    decide (((c.dma + BitVec.ofNat 32 c.length - 1) >>> 16) &&& 0xFF ≤ 0x17)

/-- The address of byte `i` of the transfer. -/
def HdcCommand.address (c : HdcCommand) (i : Nat) : Long := c.dma + BitVec.ofNat 32 i

/-! ## Data phases -/

/-- The data phase of Read. -/
def hdcReadData (b : Bus) (f : HostFile) (c : HdcCommand) : Bus × HostFile :=
  let f := f.fseek c.start
  let n := c.length
  if c.blockCopy then
    let got := f.available n
    let b := b.ramStore c.dma got f.readByte
    let b := if got < n then b.ramStore (c.address got) (n - got) (fun _ => 0) else b
    (b, f.afterRead n)
  else
    forUpTo c.bcnt.toNat (fun s (b, f) =>
      let buf : Nat → Byte := if f.available 512 ≠ 512 then fun _ => 0 else f.readByte
      (forUpTo 512 (fun i b => physWrite8 b (c.address (s * 512 + i)) (buf i)) b,
        f.afterRead 512)) (b, f)

/-- The data phase of Write. -/
def hdcWriteData (b : Bus) (f : HostFile) (c : HdcCommand) : Bus × HostFile :=
  let f := f.fseek c.start
  let n := c.length
  if c.blockCopy then (b.ramLoad c.dma n, f.fwrite n fun i => b.ram (c.address i))
  else
    forUpTo c.bcnt.toNat (fun s (b, f) =>
      (b, f.fwrite 512 fun i => physRead8 b (c.address (s * 512 + i)))) (b, f)

/-- Read, one byte at a time: the next byte of the file, or 0 past its end, goes
to the next address through `phys_write8`. -/
def hdcReadBytes (b : Bus) (f : HostFile) (c : HdcCommand) : Bus × HostFile :=
  forUpTo c.length (fun i (b, f) =>
    (physWrite8 b (c.address i) (if f.available 1 = 1 then f.readByte 0 else 0),
      f.afterRead 1)) (b, f.fseek c.start)

/-- Write, one byte at a time through `phys_read8`. -/
def hdcWriteBytes (b : Bus) (f : HostFile) (c : HdcCommand) : Bus × HostFile :=
  forUpTo c.length (fun i (b, f) => (b, f.fwrite 1 fun _ => physRead8 b (c.address i)))
    (b, f.fseek c.start)

/-! ## The controller -/

/-- The drive a command block belongs to. -/
def Bus.drive (b : Bus) (isFloppy : Bool) : Disk := if isFloppy then b.floppy else b.disk

/-- Put back the stream of a drive. -/
def Bus.setFile (b : Bus) (isFloppy : Bool) (f : HostFile) : Bus :=
  if isFloppy then { b with floppy := { b.floppy with fp := f } }
  else { b with disk := { b.disk with fp := f } }

/-- The command bytes at `cb`. -/
def hdcCommand (b : Bus) (cb : Long) : HdcCommand where
  opcode := physRead8 b cb
  lunhi := physRead8 b (cb + 0x01)
  mid := physRead8 b (cb + 0x02)
  low := physRead8 b (cb + 0x03)
  bcnt := physRead8 b (cb + 0x04)
  dmaHi := physRead8 b (cb + 0x06)
  dmaMid := physRead8 b (cb + 0x07)
  dmaLo := physRead8 b (cb + 0x08)

/-- A data transfer is refused: no drive, or blocks beyond the last one. -/
def Disk.refuses (d : Disk) (c : HdcCommand) : Bool :=
  !d.present || decide (d.sectors < c.lba + c.bcnt.setWidth 32)

/-- The opcode switch of `hdc_process`: the status byte and the bus after it. -/
def hdcExecute (b : Bus) (c : HdcCommand) (isFloppy : Bool) : Byte × Bus :=
  let disk := b.drive isFloppy
  match c.opcode.toNat with
  | 0x00 | 0x0C | 0x01 | 0x05 | 0x03 => (if disk.present then 0x00 else 0x92, b)
  | 0x04 => (if disk.present then 0x80 else 0x92, b)
  | 0x0F => (0x00, if isFloppy then b else { b with hdcCmdblk := c.dma })
  | 0x08 =>
    if disk.refuses c then (0x92, b)
    else
      let (b, f) := hdcReadData b disk.fp c
      (0x80, b.setFile isFloppy f)
  | 0x0A =>
    if disk.refuses c then (0x92, b)
    else
      let (b, f) := hdcWriteData b disk.fp c
      (0x80, b.setFile isFloppy f)
  | _ => (0x81, b)

/-- `hdc_process`. -/
def hdcProcess (b : Bus) (cb : Long) (isFloppy : Bool) : Bus :=
  if physRead8 b (cb + 0x0C) != 0xFF then b
  else
    let c := hdcCommand b cb
    let (status, b) := hdcExecute b c isFloppy
    let b := physWrite8 b (cb + 0x0C) status
    let b := physWrite8 b (cb + 0x0D) c.lunhi
    let b := physWrite8 b (cb + 0x0E) c.mid
    { b with diskVi := true }

/-- `hdc_doorbell`. -/
def hdcDoorbell (b : Bus) : Bus :=
  let b := hdcProcess b b.hdcCmdblk false
  hdcProcess b (b.hdcCmdblk + 0x10) true

end C900
