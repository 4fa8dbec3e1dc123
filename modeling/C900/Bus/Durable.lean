import C900.Bus.Transfer
import Mathlib.Logic.Relation

/-!
# Written sectors are read back

`hdc_process` does not look at what the host seek and write return, and the open mode of the
image was chosen by a fallback in `machine_attach_disk`. `readsBack_iff` tells when a Write that
is reported as done can be read back, whatever the machine does in between.
-/

namespace C900

/-! ## Images -/

/-- A file of the host, with the modes that `fopen` grants for it. -/
structure HostImage where
  byte : Nat → Byte
  size : Nat
  /-- `fopen(path, "r+b")` succeeds. -/
  readWrite : Bool
  /-- `fopen(path, "rb")` succeeds. -/
  readOnly : Bool

/-- `FLOPPY_BLOCKS`. -/
def floppyBlocks : Long := 2392

/-- The `fopen` calls of the attach functions: reading and writing, else reading only. -/
def HostImage.fopen (image : HostImage) : Option HostFile :=
  if image.readWrite then some ⟨image.byte, image.size, true, 0⟩
  else if image.readOnly then some ⟨image.byte, image.size, false, 0⟩
  else none

/-- `machine_attach_disk`. -/
def machineAttachDisk (b : Bus) (image : HostImage) : Option Bus :=
  image.fopen.map fun f =>
    { b with disk := { fp := f, sectors := BitVec.ofNat 32 (image.size / 512), present := true } }

/-- `machine_attach_floppy`: the image may be shorter than the floppy. -/
def machineAttachFloppy (b : Bus) (image : HostImage) : Option Bus :=
  image.fopen.map fun f =>
    { b with floppy := { fp := f, sectors := floppyBlocks, present := true } }

/-- Attach an image to one of the drives. -/
def machineAttach (b : Bus) (isFloppy : Bool) (image : HostImage) : Option Bus :=
  if isFloppy then machineAttachFloppy b image else machineAttachDisk b image

/-- The streams differ in their position at most. -/
structure HostFile.SameImage (f g : HostFile) : Prop where
  byte : g.byte = f.byte
  size : g.size = f.size
  writable : g.writable = f.writable

/-- Byte `j` of an image; behind the end of the file there are zeros. -/
def HostFile.content (f : HostFile) (j : Nat) : Byte := if j < f.size then f.byte j else 0

namespace HostFile

variable {f g h : HostFile}

theorem SameImage.refl (f : HostFile) : f.SameImage f := ⟨rfl, rfl, rfl⟩

theorem SameImage.trans (first : f.SameImage g) (second : g.SameImage h) : f.SameImage h :=
  ⟨second.byte.trans first.byte, second.size.trans first.size,
    second.writable.trans first.writable⟩

theorem SameImage.content (same : f.SameImage g) (j : Nat) : g.content j = f.content j := by
  unfold HostFile.content
  rw [same.byte, same.size]

/-- A stream opened for reading takes no write. -/
theorem fwrite_readOnly (readOnly : f.writable = false) (n : Nat) (v : Nat → Byte) :
    f.fwrite n v = f := by
  unfold fwrite
  rw [readOnly]
  rfl

theorem fwrite_zero (f : HostFile) (v : Nat → Byte) : f.fwrite 0 v = f := by
  unfold fwrite
  rw [if_pos (by rw [beq_self_eq_true, Bool.or_true])]

theorem fwrite_writable (f : HostFile) (n : Nat) (v : Nat → Byte) :
    (f.fwrite n v).writable = f.writable := by
  unfold fwrite
  split <;> rfl

/-- A write never shortens an image. -/
theorem size_le_fwrite (f : HostFile) (n : Nat) (v : Nat → Byte) : f.size ≤ (f.fwrite n v).size := by
  unfold fwrite
  split
  · exact Nat.le_refl _
  · exact Nat.le_max_left _ _

/-- The image after a write: the bytes written in their places, and the others as they were. -/
theorem fwrite_content (writable : f.writable = true) (n : Nat) (v : Nat → Byte) (j : Nat) :
    (f.fwrite n v).content j =
      if f.pos ≤ j ∧ j < f.pos + n then v (j - f.pos) else f.content j := by
  by_cases some : n = 0
  · have outside : ¬(f.pos ≤ j ∧ j < f.pos + n) := by omega
    rw [if_neg outside, some, fwrite_zero]
  · have nonempty : ¬(!true || n == 0) = true := by simpa using some
    unfold fwrite content
    rw [writable, if_neg nonempty]
    dsimp only
    by_cases inside : f.pos ≤ j ∧ j < f.pos + n
    · rw [if_pos inside, if_pos inside, if_pos (by omega)]
    · rw [if_neg inside, if_neg inside]
      split_ifs <;> first | rfl | omega

/-- A write reaches the end of its range. -/
theorem fwrite_reaches (writable : f.writable = true) {n : Nat} (some : n ≠ 0) (v : Nat → Byte) :
    f.pos + n ≤ (f.fwrite n v).size := by
  have nonempty : ¬(!f.writable || n == 0) = true := by
    rw [writable]
    simpa using some
  unfold fwrite
  rw [if_neg nonempty]
  exact Nat.le_max_right _ _

theorem fseek_sameImage (f : HostFile) (pos : Nat) : f.SameImage (f.fseek pos) := ⟨rfl, rfl, rfl⟩

/-- A write at a position leaves the other bytes of the image. -/
theorem fwrite_outside (f : HostFile) {start n j : Nat} (v : Nat → Byte)
    (outside : j < start ∨ start + n ≤ j) :
    ((f.fseek start).fwrite n v).content j = f.content j := by
  have moved := (f.fseek_sameImage start).content j
  have position : (f.fseek start).pos = start := rfl
  cases writable : (f.fseek start).writable with
  | true => rw [fwrite_content writable, position, if_neg (by omega), moved]
  | false => rw [fwrite_readOnly writable, moved]

/-- A write at a position stores its bytes there. -/
theorem fwrite_inside (writable : f.writable = true) {start n i : Nat} (v : Nat → Byte)
    (small : i < n) : ((f.fseek start).fwrite n v).content (start + i) = v i := by
  have position : (f.fseek start).pos = start := rfl
  rw [fwrite_content (f := f.fseek start) writable, position, if_pos (by omega),
    Nat.add_sub_cancel_left]

end HostFile

/-! ## What a command does to the drives -/

/-- The drives and the memory decode are as before. -/
structure Bus.SameDrives (b b' : Bus) : Prop where
  disk : b'.disk = b.disk
  floppy : b'.floppy = b.floppy
  flatMem : b'.flatMem = b.flatMem

namespace Bus.SameDrives

variable {b c d : Bus}

theorem refl (b : Bus) : b.SameDrives b := ⟨rfl, rfl, rfl⟩

theorem trans (first : b.SameDrives c) (second : c.SameDrives d) : b.SameDrives d :=
  ⟨second.disk.trans first.disk, second.floppy.trans first.floppy,
    second.flatMem.trans first.flatMem⟩

theorem drive (same : b.SameDrives c) (isFloppy : Bool) : c.drive isFloppy = b.drive isFloppy := by
  unfold Bus.drive
  rw [same.disk, same.floppy]

theorem write8 (b : Bus) (a : Long) (v : Byte) : b.SameDrives (physWrite8 b a v) := by
  obtain ⟨ram, store⟩ := physWrite8_frame b a v
  rw [store]
  exact ⟨rfl, rfl, rfl⟩

/-- A loop of rounds that keep the drives. -/
theorem loop {body : Nat → Bus → Bus} (n : Nat) (b : Bus)
    (round : ∀ i s, Bus.SameDrives s (body i s)) : b.SameDrives (forUpTo n body b) :=
  forUpTo.invariant (fun _ s => b.SameDrives s) n (refl b) fun i s _ kept => kept.trans (round i s)

theorem ramStore (b : Bus) (a : Long) (n : Nat) (v : Nat → Byte) :
    b.SameDrives (b.ramStore a n v) := loop n b fun _ _ => ⟨rfl, rfl, rfl⟩

theorem ramLoad (b : Bus) (a : Long) (n : Nat) : b.SameDrives (b.ramLoad a n) :=
  loop n b fun _ _ => ⟨rfl, rfl, rfl⟩

theorem deposit (b : Bus) (c : HdcCommand) (n : Nat) (v : Nat → Byte) :
    b.SameDrives (c.deposit b n v) := loop n b fun _ s => write8 s _ _

end Bus.SameDrives

namespace HdcCommand

variable (c : HdcCommand)

/-- The byte that Write takes from memory as the `i`-th one. -/
def source (b : Bus) (i : Nat) : Byte :=
  if c.blockCopy then b.ram (c.address i) else physRead8 b (c.address i)

/-- The byte that Read takes from the image as the `i`-th one. -/
def delivered (f : HostFile) (i : Nat) : Byte :=
  if c.blockCopy then c.imageByte f i else c.sectorByte f i

variable {c}

/-- A transfer that fits takes its bytes from memory. -/
theorem Fits.source_eq (fits : c.Fits) {b : Bus} (board : b.flatMem = false) {i : Nat}
    (small : i < c.length) : c.source b i = physRead8 b (c.address i) := by
  unfold HdcCommand.source
  split
  case isTrue copy =>
    rcases c.blockCopy_iff.mp copy with within | past
    · exact (within.physRead8_eq board small).symm
    · exact absurd fits past
  case isFalse => rfl

/-- The image bytes of a transfer depend on the image only. -/
theorem delivered_same {f g : HostFile} (same : f.SameImage g) (i : Nat) :
    c.delivered g i = c.delivered f i := by
  unfold delivered imageByte sectorByte
  rw [same.byte, same.size]

/-- An image that covers the sectors delivers its own bytes. -/
theorem delivered_covered {f : HostFile} (covered : c.start + c.length ≤ f.size) {i : Nat}
    (small : i < c.length) : c.delivered f i = f.content (c.start + i) := by
  have sector : (i / 512 + 1) * 512 ≤ c.length := by
    unfold length at small ⊢
    omega
  unfold delivered imageByte sectorByte HostFile.content
  rw [if_pos (show c.start + i < f.size by omega),
    if_pos (show c.start + (i / 512 + 1) * 512 ≤ f.size by omega), ite_self]

end HdcCommand

/-- The stream after the data phase of Write. -/
theorem hdcWriteData_file (b : Bus) (f : HostFile) (c : HdcCommand) :
    (hdcWriteData b f c).2 = (f.fseek c.start).fwrite c.length (c.source b) := by
  cases copy : c.blockCopy with
  | true =>
    have source : c.source b = fun i => b.ram (c.address i) := by
      funext i
      unfold HdcCommand.source
      rw [copy, if_pos rfl]
    unfold hdcWriteData
    rw [source, copy, if_pos rfl]
  | false =>
    have source : c.source b = fun i => physRead8 b (c.address i) := by
      funext i
      unfold HdcCommand.source
      rw [copy, if_neg Bool.false_ne_true]
    rw [hdcWriteData_sectors b f c copy, hdcWriteBytes_eq, source]

/-- The data phase of Write stores nothing. -/
theorem hdcWriteData_drives (b : Bus) (f : HostFile) (c : HdcCommand) :
    b.SameDrives (hdcWriteData b f c).1 := by
  cases copy : c.blockCopy with
  | true =>
    unfold hdcWriteData
    rw [copy, if_pos rfl]
    exact .ramLoad _ _ _
  | false =>
    rw [hdcWriteData_sectors b f c copy, hdcWriteBytes_eq]
    exact .refl b

/-- The data phase of Read: the drives are as before, and the stream moves. -/
theorem hdcReadData_drives (b : Bus) (f : HostFile) (c : HdcCommand) :
    b.SameDrives (hdcReadData b f c).1 ∧ f.SameImage (hdcReadData b f c).2 := by
  cases copy : c.blockCopy with
  | true =>
    rw [hdcReadData_blockCopy b f c copy]
    exact ⟨.ramStore _ _ _ _, ⟨rfl, rfl, rfl⟩⟩
  | false =>
    rw [hdcReadData_sectors b f c copy]
    exact ⟨.deposit _ _ _ _, ⟨rfl, rfl, rfl⟩⟩

/-- A Read that fits deposits the bytes of the image. -/
theorem hdcReadData_delivered {b : Bus} (board : b.flatMem = false) (f : HostFile) {c : HdcCommand}
    (fits : c.Fits) : (hdcReadData b f c).1 = c.deposit b c.length (c.delivered f) := by
  cases copy : c.blockCopy with
  | true =>
    have within : c.WithinDram := (c.blockCopy_iff.mp copy).resolve_right (not_not.mpr fits)
    have delivered : c.delivered f = c.imageByte f := by
      funext i
      unfold HdcCommand.delivered
      rw [copy, if_pos rfl]
    rw [hdcReadData_blockCopy b f c copy, within.ramStore_eq board, delivered]
  | false =>
    have delivered : c.delivered f = c.sectorByte f := by
      funext i
      unfold HdcCommand.delivered
      rw [copy, if_neg Bool.false_ne_true]
    rw [hdcReadData_sectors b f c copy, delivered]

/-! ## Commands -/

/-- Putting back the stream of a drive. -/
theorem Bus.setFile_drive (b : Bus) (isFloppy : Bool) (f : HostFile) :
    (b.setFile isFloppy f).drive isFloppy = { b.drive isFloppy with fp := f } := by
  cases isFloppy <;> rfl

theorem Bus.setFile_drive_other (b : Bus) (isFloppy : Bool) (f : HostFile) :
    (b.setFile isFloppy f).drive (!isFloppy) = b.drive (!isFloppy) := by
  cases isFloppy <;> rfl

theorem Bus.setFile_flatMem (b : Bus) (isFloppy : Bool) (f : HostFile) :
    (b.setFile isFloppy f).flatMem = b.flatMem := by
  cases isFloppy <;> rfl

theorem Bus.setFile_overrun (b : Bus) (isFloppy : Bool) (f : HostFile) :
    (b.setFile isFloppy f).overrun = b.overrun := by
  cases isFloppy <;> rfl

/-- What the drives are after a command: the stream of its drive has moved, or it was written. -/
structure Commanded (b : Bus) (c : HdcCommand) (isFloppy : Bool) (b' : Bus) : Prop where
  own : ∃ f, b'.drive isFloppy = { b.drive isFloppy with fp := f } ∧
    ((b.drive isFloppy).fp.SameImage f ∨
      c.opcode = 0x0A ∧ f = (hdcWriteData b (b.drive isFloppy).fp c).2)
  other : b'.drive (!isFloppy) = b.drive (!isFloppy)
  flatMem : b'.flatMem = b.flatMem

namespace Commanded

variable {b x : Bus} {c : HdcCommand} {isFloppy : Bool}

/-- A command without a data phase. -/
theorem idle (same : b.SameDrives x) : Commanded b c isFloppy x :=
  ⟨⟨(b.drive isFloppy).fp, same.drive isFloppy, Or.inl (.refl _)⟩, same.drive (!isFloppy),
    same.flatMem⟩

/-- A command with a data phase. -/
theorem data (same : b.SameDrives x) {f : HostFile}
    (stream : (b.drive isFloppy).fp.SameImage f ∨
      c.opcode = 0x0A ∧ f = (hdcWriteData b (b.drive isFloppy).fp c).2) :
    Commanded b c isFloppy (x.setFile isFloppy f) := by
  refine ⟨⟨f, ?_, stream⟩, ?_, ?_⟩
  · rw [x.setFile_drive, same.drive]
  · rw [x.setFile_drive_other, same.drive]
  · rw [x.setFile_flatMem, same.flatMem]

/-- Later stores to memory. -/
theorem stores {x' : Bus} (commanded : Commanded b c isFloppy x) (same : x.SameDrives x') :
    Commanded b c isFloppy x' := by
  obtain ⟨⟨f, own, stream⟩, other, flatMem⟩ := commanded
  exact ⟨⟨f, (same.drive isFloppy).trans own, stream⟩, (same.drive (!isFloppy)).trans other,
    same.flatMem.trans flatMem⟩

end Commanded

/-- The opcode switch. -/
theorem hdcExecute_commanded (b : Bus) (c : HdcCommand) (isFloppy : Bool) :
    Commanded b c isFloppy (hdcExecute b c isFloppy).2 := by
  unfold hdcExecute
  dsimp only
  split
  case h_7 =>
    split
    · exact .idle (.refl b)
    · cases isFloppy <;> exact .idle ⟨rfl, rfl, rfl⟩
  case h_8 =>
    split
    · exact .idle (.refl b)
    · obtain ⟨drives, stream⟩ := hdcReadData_drives b (b.drive isFloppy).fp c
      exact .data drives (Or.inl stream)
  case h_9 opcode =>
    have write : c.opcode = 0x0A := BitVec.eq_of_toNat_eq opcode
    split
    · exact .idle (.refl b)
    · exact .data (hdcWriteData_drives b _ c) (Or.inr ⟨write, rfl⟩)
  all_goals exact .idle (.refl b)

/-- The completion of a command: three status bytes and the interrupt. -/
theorem hdcProcess_armed {b : Bus} {cb : Long} (isFloppy : Bool)
    (armed : physRead8 b (cb + 0x0C) = 0xFF) :
    ∃ x, (hdcExecute b (hdcCommand b cb) isFloppy).2.SameDrives x ∧
      x.overrun = (hdcExecute b (hdcCommand b cb) isFloppy).2.overrun ∧
      hdcProcess b cb isFloppy = x := by
  have taken : ¬(physRead8 b (cb + 0x0C) != 0xFF) = true := by
    rw [armed]
    exact Bool.false_ne_true
  unfold hdcProcess
  rw [if_neg taken]
  dsimp only
  refine ⟨_, ?_, ?_, rfl⟩
  · have status := Bus.SameDrives.write8 (hdcExecute b (hdcCommand b cb) isFloppy).2 (cb + 0x0C)
      (hdcExecute b (hdcCommand b cb) isFloppy).1
    exact ((status.trans (.write8 _ _ _)).trans (.write8 _ _ _)).trans ⟨rfl, rfl, rfl⟩
  · dsimp only
    rw [physWrite8_overrun, physWrite8_overrun, physWrite8_overrun]

/-- `hdc_process`, whatever the command block says. -/
theorem hdcProcess_commanded (b : Bus) (cb : Long) (isFloppy : Bool) :
    Commanded b (hdcCommand b cb) isFloppy (hdcProcess b cb isFloppy) := by
  by_cases armed : physRead8 b (cb + 0x0C) = 0xFF
  · obtain ⟨x, same, -, done⟩ := hdcProcess_armed isFloppy armed
    rw [done]
    exact (hdcExecute_commanded b (hdcCommand b cb) isFloppy).stores same
  · have ignored : hdcProcess b cb isFloppy = b := if_pos (bne_iff_ne.mpr armed)
    rw [ignored]
    exact .idle (.refl b)

/-- The command block at `cb` is an armed data transfer that the drive accepts, so that it
completes with status 0x80. -/
structure Transfers (b : Bus) (cb : Long) (isFloppy : Bool) (opcode : Byte) : Prop where
  armed : physRead8 b (cb + 0x0C) = 0xFF
  opcode : (hdcCommand b cb).opcode = opcode
  accepted : (b.drive isFloppy).refuses (hdcCommand b cb) = false

/-- A completed Write. -/
theorem Transfers.write {b : Bus} {cb : Long} {isFloppy : Bool}
    (transfers : Transfers b cb isFloppy 0x0A) :
    (hdcExecute b (hdcCommand b cb) isFloppy).1 = 0x80 ∧
      ((hdcProcess b cb isFloppy).drive isFloppy).fp =
        (hdcWriteData b (b.drive isFloppy).fp (hdcCommand b cb)).2 ∧
      (hdcProcess b cb isFloppy).overrun =
        (hdcWriteData b (b.drive isFloppy).fp (hdcCommand b cb)).1.overrun := by
  have opcode : (hdcCommand b cb).opcode.toNat = 0x0A := by
    rw [transfers.opcode]
    rfl
  have executed : hdcExecute b (hdcCommand b cb) isFloppy =
      (0x80, (hdcWriteData b (b.drive isFloppy).fp (hdcCommand b cb)).1.setFile isFloppy
        (hdcWriteData b (b.drive isFloppy).fp (hdcCommand b cb)).2) := by
    unfold hdcExecute
    simp only [opcode, transfers.accepted, Bool.false_eq_true, if_false]
  obtain ⟨x, same, overrun, done⟩ := hdcProcess_armed isFloppy transfers.armed
  rw [executed] at same overrun ⊢
  refine ⟨rfl, ?_, ?_⟩
  · rw [done, same.drive, Bus.setFile_drive]
  · rw [done, overrun, Bus.setFile_overrun]

/-! ## Runs -/

/-- One change of the bus: a command that is allowed, or anything else that the machine does,
which leaves the drives alone. -/
inductive BusStep (allowed : HdcCommand → Bool → Prop) : Bus → Bus → Prop where
  | other {b b' : Bus} (same : b.SameDrives b') : BusStep allowed b b'
  | command {b : Bus} (cb : Long) (isFloppy : Bool) (permitted : allowed (hdcCommand b cb) isFloppy) :
    BusStep allowed b (hdcProcess b cb isFloppy)

/-- Any number of changes of the bus. -/
abbrev BusRun (allowed : HdcCommand → Bool → Prop) : Bus → Bus → Prop :=
  Relation.ReflTransGen (BusStep allowed)

/-- The commands that are no Write to the sectors of `c`. -/
def HdcCommand.Spares (c : HdcCommand) (isFloppy : Bool) (d : HdcCommand) (onFloppy : Bool) : Prop :=
  onFloppy = isFloppy → d.opcode = 0x0A →
    d.start + d.length ≤ c.start ∨ c.start + c.length ≤ d.start

/-- What a run keeps of a stream. -/
structure HdcCommand.Keeps (c : HdcCommand) (f g : HostFile) : Prop where
  covered : c.start + c.length ≤ f.size → c.start + c.length ≤ g.size
  content : ∀ i < c.length, g.content (c.start + i) = f.content (c.start + i)
  readOnly : f.writable = false → f.SameImage g
  writable : g.writable = f.writable

namespace HdcCommand.Keeps

variable {c d : HdcCommand} {f g h : HostFile}

theorem of_sameImage (same : f.SameImage g) : c.Keeps f g :=
  ⟨fun covered => same.size ▸ covered, fun _ _ => same.content _, fun _ => same, same.writable⟩

theorem trans (first : c.Keeps f g) (second : c.Keeps g h) : c.Keeps f h where
  covered := fun covered => second.covered (first.covered covered)
  content := fun i small => (second.content i small).trans (first.content i small)
  readOnly := fun readOnly =>
    (first.readOnly readOnly).trans (second.readOnly (first.writable.trans readOnly))
  writable := second.writable.trans first.writable

/-- A Write to other sectors. -/
theorem fwrite (f : HostFile) (v : Nat → Byte)
    (apart : d.start + d.length ≤ c.start ∨ c.start + c.length ≤ d.start) :
    c.Keeps f ((f.fseek d.start).fwrite d.length v) := by
  refine ⟨fun covered => ?_, fun _ small => ?_, fun readOnly => ?_, ?_⟩
  · exact Nat.le_trans covered ((f.fseek d.start).size_le_fwrite d.length v)
  · exact f.fwrite_outside v (by omega)
  · rw [HostFile.fwrite_readOnly (f := f.fseek d.start) readOnly]
    exact f.fseek_sameImage d.start
  · exact HostFile.fwrite_writable _ _ _

end HdcCommand.Keeps

/-- A step that spares the sectors of a command. -/
theorem BusStep.keeps {c : HdcCommand} {isFloppy : Bool} {b b' : Bus}
    (step : BusStep (c.Spares isFloppy) b b') :
    c.Keeps (b.drive isFloppy).fp (b'.drive isFloppy).fp ∧ b'.flatMem = b.flatMem := by
  cases step with
  | other same =>
    rw [same.drive isFloppy]
    exact ⟨.of_sameImage (.refl _), same.flatMem⟩
  | command cb onFloppy permitted =>
    have commanded := hdcProcess_commanded b cb onFloppy
    refine ⟨?_, commanded.flatMem⟩
    by_cases onDrive : onFloppy = isFloppy
    · subst onDrive
      obtain ⟨f, own, stream⟩ := commanded.own
      rw [own]
      rcases stream with moved | ⟨write, rfl⟩
      · exact .of_sameImage moved
      · rw [hdcWriteData_file]
        exact .fwrite _ _ (permitted rfl write)
    · obtain rfl : isFloppy = !onFloppy := by cases isFloppy <;> cases onFloppy <;> simp_all
      rw [commanded.other]
      exact .of_sameImage (.refl _)

/-- A run that spares the sectors of a command. -/
theorem BusRun.keeps {c : HdcCommand} {isFloppy : Bool} {b b' : Bus}
    (run : BusRun (c.Spares isFloppy) b b') :
    c.Keeps (b.drive isFloppy).fp (b'.drive isFloppy).fp ∧ b'.flatMem = b.flatMem := by
  induction run with
  | refl => exact ⟨.of_sameImage (.refl _), rfl⟩
  | tail _ step inductionHypothesis =>
    obtain ⟨before, board⟩ := inductionHypothesis
    obtain ⟨keeps, still⟩ := step.keeps
    exact ⟨before.trans keeps, still.trans board⟩

/-- The open mode of a drive is settled when its image is attached. -/
theorem BusRun.writable (isFloppy : Bool) {b b' : Bus} (run : BusRun (fun _ _ => True) b b') :
    (b'.drive isFloppy).fp.writable = (b.drive isFloppy).fp.writable ∧
      b'.flatMem = b.flatMem := by
  -- A command without sectors is spared by every command.
  let none : HdcCommand := ⟨0, 0, 0, 0, 0, 0, 0, 0⟩
  have spared : BusRun (none.Spares isFloppy) b b' := by
    refine Relation.ReflTransGen.mono ?_ _ _ run
    intro x y step
    cases step with
    | other same => exact .other same
    | command cb onFloppy _ =>
      refine .command cb onFloppy fun _ _ => Or.inr ?_
      have nothing : none.start + none.length = 0 := by decide
      omega
  obtain ⟨keeps, board⟩ := spared.keeps
  exact ⟨keeps.writable, board⟩

/-! ## Reading back -/

/-- What a Write that is reported as done promises of a Read from the same sectors. -/
structure ReadsBack (b : Bus) (cb : Long) (isFloppy : Bool) (b' : Bus) (cb' : Long) : Prop where
  /-- The bytes that are written come out of memory. -/
  taken : (hdcProcess b cb isFloppy).overrun = false
  /-- The bytes that are read go to memory. -/
  placed : (hdcProcess b' cb' isFloppy).overrun = false
  /-- The data phase of the Read puts the bytes that were in memory at the Write where the
  address of the Read says. -/
  returned : (hdcExecute b' (hdcCommand b' cb') isFloppy).2.ram =
    ((hdcCommand b' cb').deposit b' (hdcCommand b' cb').length fun i =>
      physRead8 b ((hdcCommand b cb).address i)).ram
  sectors : ∀ j, j < (hdcCommand b cb).start ∨
      (hdcCommand b cb).start + (hdcCommand b cb).length ≤ j →
    ((hdcProcess b cb isFloppy).drive isFloppy).fp.content j = (b.drive isFloppy).fp.content j
  otherDrive : (hdcProcess b cb isFloppy).drive (!isFloppy) = b.drive (!isFloppy)

/-- A completed Read. -/
theorem Transfers.read {b : Bus} {cb : Long} {isFloppy : Bool}
    (transfers : Transfers b cb isFloppy 0x08) :
    (hdcExecute b (hdcCommand b cb) isFloppy).1 = 0x80 ∧
      (hdcExecute b (hdcCommand b cb) isFloppy).2.ram =
        (hdcReadData b (b.drive isFloppy).fp (hdcCommand b cb)).1.ram ∧
      (hdcProcess b cb isFloppy).overrun =
        (hdcReadData b (b.drive isFloppy).fp (hdcCommand b cb)).1.overrun := by
  have opcode : (hdcCommand b cb).opcode.toNat = 0x08 := by
    rw [transfers.opcode]
    rfl
  have executed : hdcExecute b (hdcCommand b cb) isFloppy =
      (0x80, (hdcReadData b (b.drive isFloppy).fp (hdcCommand b cb)).1.setFile isFloppy
        (hdcReadData b (b.drive isFloppy).fp (hdcCommand b cb)).2) := by
    unfold hdcExecute
    simp only [opcode, transfers.accepted, Bool.false_eq_true, if_false]
  obtain ⟨x, -, overrun, done⟩ := hdcProcess_armed isFloppy transfers.armed
  rw [executed] at overrun ⊢
  refine ⟨rfl, ?_, ?_⟩
  · cases isFloppy <;> rfl
  · rw [done, overrun, Bus.setFile_overrun]

/-- A deposit stores in memory only. -/
theorem HdcCommand.deposit_frame (c : HdcCommand) (b : Bus) (n : Nat) (v : Nat → Byte) :
    ∃ ram, c.deposit b n v = { b with ram := ram } := by
  refine forUpTo.invariant (fun _ (s : Bus) => ∃ ram, s = { b with ram := ram }) n ⟨_, rfl⟩ ?_
  rintro i s - ⟨ram, rfl⟩
  obtain ⟨stored, store⟩ := physWrite8_frame { b with ram := ram } (c.address i) (v i)
  exact ⟨stored, store⟩

/-- Two deposits leave the same memory exactly when they agree on DRAM. -/
theorem HdcCommand.Fits.deposit_ram_iff {c : HdcCommand} (fits : c.Fits) {b : Bus}
    (board : b.flatMem = false) (v w : Nat → Byte) :
    (c.deposit b c.length v).ram = (c.deposit b c.length w).ram ↔
      ∀ i < c.length, segPopulated (c.address i) = true → v i = w i := by
  rw [← fits.deposit_eq_iff board]
  obtain ⟨first, left⟩ := c.deposit_frame b c.length v
  obtain ⟨second, right⟩ := c.deposit_frame b c.length w
  rw [left, right]
  exact ⟨fun same => congrArg (fun ram => { b with ram := ram }) same, congrArg Bus.ram⟩

/-- A Write changes no byte of the image outside its sectors. -/
theorem Transfers.sectors {b : Bus} {cb : Long} {isFloppy : Bool}
    (write : Transfers b cb isFloppy 0x0A) {j : Nat}
    (outside : j < (hdcCommand b cb).start ∨
      (hdcCommand b cb).start + (hdcCommand b cb).length ≤ j) :
    ((hdcProcess b cb isFloppy).drive isFloppy).fp.content j =
      (b.drive isFloppy).fp.content j := by
  rw [write.write.2.1, hdcWriteData_file]
  exact (b.drive isFloppy).fp.fwrite_outside _ outside

/-- The open mode of an attached image. -/
theorem machineAttach_drive {before start : Bus} {isFloppy : Bool} {image : HostImage}
    (attached : machineAttach before isFloppy image = some start) :
    (start.drive isFloppy).fp.writable = image.readWrite ∧ start.flatMem = before.flatMem := by
  have opened : ∀ f, image.fopen = some f → f.writable = image.readWrite := fun f granted => by
    unfold HostImage.fopen at granted
    split_ifs at granted with both
    · rw [← Option.some.inj granted, both]
    · rw [← Option.some.inj granted, eq_false_of_ne_true both]
  cases isFloppy with
  | true =>
    obtain ⟨f, granted, rfl⟩ := Option.map_eq_some_iff.mp attached
    exact ⟨opened f granted, rfl⟩
  | false =>
    obtain ⟨f, granted, rfl⟩ := Option.map_eq_some_iff.mp attached
    exact ⟨opened f granted, rfl⟩

section

variable {b b' : Bus} {cb cb' : Long} {isFloppy : Bool}

/-- What a later Read of the sectors of a Write takes from the image. -/
theorem delivered_later (board : b.flatMem = false) (write : Transfers b cb isFloppy 0x0A)
    (later : BusRun ((hdcCommand b cb).Spares isFloppy) (hdcProcess b cb isFloppy) b')
    {c : HdcCommand} (lba : c.lba = (hdcCommand b cb).lba) (bcnt : c.bcnt = (hdcCommand b cb).bcnt)
    (fits : (hdcCommand b cb).Fits) {i : Nat} (small : i < c.length) :
    c.delivered (b'.drive isFloppy).fp i =
      if (b.drive isFloppy).fp.writable then physRead8 b ((hdcCommand b cb).address i)
      else c.delivered (b.drive isFloppy).fp i := by
  have keeps := later.keeps.1
  have start : c.start = (hdcCommand b cb).start := congrArg (fun n => n.toNat * 512) lba
  have length : c.length = (hdcCommand b cb).length := congrArg (fun n => n.toNat * 512) bcnt
  have stream := write.write.2.1
  rw [hdcWriteData_file] at stream
  rw [stream] at keeps
  cases writable : (b.drive isFloppy).fp.writable with
  | true =>
    have some : (hdcCommand b cb).length ≠ 0 := by omega
    have seeked : ((b.drive isFloppy).fp.fseek (hdcCommand b cb).start).writable = true := writable
    have reaches := keeps.covered (HostFile.fwrite_reaches seeked some _)
    have kept := keeps.content i (by omega)
    rw [HostFile.fwrite_inside writable _ (by omega),
      fits.source_eq board (by omega)] at kept
    rw [if_pos rfl, HdcCommand.delivered_covered (by omega) small, start, kept]
  | false =>
    have seeked : ((b.drive isFloppy).fp.fseek (hdcCommand b cb).start).writable = false := writable
    rw [HostFile.fwrite_readOnly seeked] at keeps
    rw [if_neg Bool.false_ne_true, HdcCommand.delivered_same
      (((b.drive isFloppy).fp.fseek_sameImage _).trans (keeps.readOnly writable))]

/-- A Write with status 0x80 is read back exactly when the stream takes writes or held the bytes
already, and neither transfer runs past the top of memory. -/
theorem Transfers.readsBack_iff (board : b.flatMem = false) (inside : b.overrun = false)
    (write : Transfers b cb isFloppy 0x0A)
    (later : BusRun ((hdcCommand b cb).Spares isFloppy) (hdcProcess b cb isFloppy) b')
    (inside' : b'.overrun = false) (read : Transfers b' cb' isFloppy 0x08)
    (lba : (hdcCommand b' cb').lba = (hdcCommand b cb).lba)
    (bcnt : (hdcCommand b' cb').bcnt = (hdcCommand b cb).bcnt) :
    ReadsBack b cb isFloppy b' cb' ↔
      (hdcCommand b cb).Fits ∧ (hdcCommand b' cb').Fits ∧
        ((b.drive isFloppy).fp.writable = true ∨ ∀ i < (hdcCommand b' cb').length,
          segPopulated ((hdcCommand b' cb').address i) = true →
            (hdcCommand b' cb').delivered (b.drive isFloppy).fp i =
              physRead8 b ((hdcCommand b cb).address i)) := by
  have board' : b'.flatMem = false :=
    (later.keeps.2.trans (hdcProcess_commanded b cb isFloppy).flatMem).trans board
  have overrun := write.write.2.2
  obtain ⟨-, ram, placed⟩ := read.read
  constructor
  · intro readsBack
    have fits : (hdcCommand b cb).Fits := by
      by_contra past
      rw [hdcWriteData_overrun past] at overrun
      exact Bool.false_ne_true (readsBack.taken.symm.trans overrun)
    have fits' : (hdcCommand b' cb').Fits := by
      by_contra past
      rw [hdcReadData_overrun past] at placed
      exact Bool.false_ne_true (readsBack.placed.symm.trans placed)
    refine ⟨fits, fits', ?_⟩
    have returned := readsBack.returned
    rw [ram, hdcReadData_delivered board' _ fits', fits'.deposit_ram_iff board'] at returned
    cases writable : (b.drive isFloppy).fp.writable with
    | true => exact Or.inl rfl
    | false =>
      refine Or.inr fun i small populated => ?_
      have same := returned i small populated
      rw [delivered_later board write later lba bcnt fits small, writable,
        if_neg Bool.false_ne_true] at same
      exact same
  · rintro ⟨fits, fits', held⟩
    refine ⟨?_, ?_, ?_, fun j => write.sectors, (hdcProcess_commanded b cb isFloppy).other⟩
    · rw [overrun]
      exact ((hdcWriteData_eq_bytes_iff board inside _ _).mpr fits).2
    · rw [placed, hdcReadData_delivered board' _ fits', HdcCommand.deposit_overrun, inside']
    · rw [ram, hdcReadData_delivered board' _ fits', fits'.deposit_ram_iff board']
      intro i small populated
      rw [delivered_later board write later lba bcnt fits small]
      rcases held with writable | already
      · rw [writable, if_pos rfl]
      · rw [already i small populated, ite_self]

/-- A Write with status 0x80 to an attached image is read back, after any run that does not
write to its sectors, exactly when the image could be opened for writing or held the bytes
already, and neither transfer runs past the top of memory. -/
theorem attached_readsBack_iff {before start : Bus} {image : HostImage}
    (attached : machineAttach before isFloppy image = some start)
    (board : before.flatMem = false) (run : BusRun (fun _ _ => True) start b)
    (inside : b.overrun = false) (write : Transfers b cb isFloppy 0x0A)
    (later : BusRun ((hdcCommand b cb).Spares isFloppy) (hdcProcess b cb isFloppy) b')
    (inside' : b'.overrun = false) (read : Transfers b' cb' isFloppy 0x08)
    (lba : (hdcCommand b' cb').lba = (hdcCommand b cb).lba)
    (bcnt : (hdcCommand b' cb').bcnt = (hdcCommand b cb).bcnt) :
    ReadsBack b cb isFloppy b' cb' ↔
      (hdcCommand b cb).Fits ∧ (hdcCommand b' cb').Fits ∧
        (image.readWrite = true ∨ ∀ i < (hdcCommand b' cb').length,
          segPopulated ((hdcCommand b' cb').address i) = true →
            (hdcCommand b' cb').delivered (b.drive isFloppy).fp i =
              physRead8 b ((hdcCommand b cb).address i)) := by
  obtain ⟨mode, startBoard⟩ := machineAttach_drive attached
  obtain ⟨opened, runBoard⟩ := run.writable isFloppy
  rw [← mode, ← opened]
  exact write.readsBack_iff ((runBoard.trans startBoard).trans board) inside later inside' read
    lba bcnt

end

/-! ## An image that can only be read -/

/-- One block of 0xA5 that the host opens for reading only. -/
def protectedImage : HostImage where
  byte := fun _ => 0xA5
  size := 512
  readWrite := false
  readOnly := true

/-- The disk with that image. -/
def protectedDisk : Disk where
  fp := ⟨fun _ => 0xA5, 512, false, 0⟩
  sectors := 1
  present := true

/-- Memory with an armed command block at 0x080000: one block at 0x090000, opcode as given. -/
def blockMemory (opcode : Byte) : Long → Byte := fun a =>
  if a = 0x080000 then opcode
  else if a = 0x080004 then 1
  else if a = 0x080006 then 0x09
  else if a = 0x08000C then 0xFF
  else 0

/-- The guest asks for a Write of a block of zeros. -/
def protectedWrite : Bus :=
  { (default : Bus) with disk := protectedDisk, ram := blockMemory 0x0A }

/-- Later it asks for a Read of the block. -/
def protectedRead : Bus :=
  { hdcProcess protectedWrite 0x080000 false with
    ram := blockMemory 0x08, overrun := false, flatMem := false }

theorem protectedWrite_transfers : Transfers protectedWrite 0x080000 false 0x0A :=
  ⟨by decide, by decide, by decide⟩

theorem protectedRead_drives :
    (hdcProcess protectedWrite 0x080000 false).SameDrives protectedRead :=
  ⟨rfl, rfl, (hdcProcess_commanded protectedWrite 0x080000 false).flatMem.symm⟩

theorem protectedRead_transfers : Transfers protectedRead 0x080000 false 0x08 := by
  obtain ⟨f, own, -⟩ := (hdcProcess_commanded protectedWrite 0x080000 false).own
  have drive : protectedRead.drive false = { protectedDisk with fp := f } :=
    (protectedRead_drives.drive false).trans own
  have stream : ∀ c : HdcCommand, ({ protectedDisk with fp := f } : Disk).refuses c =
      protectedDisk.refuses c := fun _ => rfl
  refine ⟨by decide, by decide, ?_⟩
  rw [drive, stream]
  decide

theorem attached_readsBack_iff_protected :
    ReadsBack protectedWrite 0x080000 false protectedRead 0x080000 ↔
      (hdcCommand protectedWrite 0x080000).Fits ∧ (hdcCommand protectedRead 0x080000).Fits ∧
        (protectedImage.readWrite = true ∨ ∀ i < (hdcCommand protectedRead 0x080000).length,
          segPopulated ((hdcCommand protectedRead 0x080000).address i) = true →
            (hdcCommand protectedRead 0x080000).delivered (protectedWrite.drive false).fp i =
              physRead8 protectedWrite ((hdcCommand protectedWrite 0x080000).address i)) := by
  have attached : machineAttach default false protectedImage =
      some { (default : Bus) with disk := protectedDisk } := rfl
  exact attached_readsBack_iff attached rfl (.single (.other ⟨rfl, rfl, rfl⟩)) rfl
    protectedWrite_transfers (.single (.other protectedRead_drives)) rfl protectedRead_transfers
    (by decide) (by decide)

/-- The Write is reported as done, and the Read returns the old bytes. -/
theorem protectedImage_loses :
    machineAttach default false protectedImage =
        some { (default : Bus) with disk := protectedDisk } ∧
      Transfers protectedWrite 0x080000 false 0x0A ∧
      BusRun ((hdcCommand protectedWrite 0x080000).Spares false)
        (hdcProcess protectedWrite 0x080000 false) protectedRead ∧
      Transfers protectedRead 0x080000 false 0x08 ∧
      (hdcCommand protectedRead 0x080000).start = (hdcCommand protectedWrite 0x080000).start ∧
      ¬ReadsBack protectedWrite 0x080000 false protectedRead 0x080000 := by
  have later : BusRun ((hdcCommand protectedWrite 0x080000).Spares false)
      (hdcProcess protectedWrite 0x080000 false) protectedRead := .single (.other protectedRead_drives)
  refine ⟨rfl, protectedWrite_transfers, later, protectedRead_transfers, by decide,
    fun readsBack => ?_⟩
  have held := ((protectedWrite_transfers.readsBack_iff rfl rfl later rfl protectedRead_transfers
    (by decide) (by decide)).mp readsBack).2.2
  rcases held with writable | already
  · exact absurd writable Bool.false_ne_true
  · have first := already 0 (by decide) (by decide)
    exact absurd first (by decide)

end C900
