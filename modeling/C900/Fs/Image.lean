import C900.Logic.Buffer

/-!
# Disk images

The image of `disk.py`: a byte array shared by the partitions, its 512-byte
blocks, and the errors of the file system code. A method of `CoherentFS` is an
`FsM` program: an exception leaves the image as it is at the `raise`.
-/

namespace C900

/-- `BLOCK`. -/
def blockSize : Nat := 512

/-- `NICFREE`, the capacity of the free-block cache. -/
def nicFree : Nat := 64

/-- `INODES_PER_BLOCK`. -/
def inodesPerBlock : Nat := 8

/-! ## Superblock and link block fields -/

def sbIsize : Nat := 0
def sbFsize : Nat := 2
def sbNfree : Nat := 6
def sbFree : Nat := 8
def sbNinode : Nat := 264
def sbFlock : Nat := 466
def sbIlock : Nat := 467
def sbFmod : Nat := 468
def sbTime : Nat := 470
def sbTfree : Nat := 474
def sbTinode : Nat := 478
def fblkNfree : Nat := 0
def fblkFree : Nat := 2

/-- The exceptions. -/
inductive FsError where
  | outOfFreeBlocks
  | badChainBlock (b : Nat)
  | badChainNfree (n : Int)
  | allocatedOutside (b isize fsize : Nat)
  | freeZero
  | freeOutside (b isize fsize : Nat)
  | corruptNfree (n : Int)
  | writeOutside (bno len : Nat)
  | badSuperblock (isize fsize : Nat)
  | writeLength (bno len : Nat)
  | fileTooLarge
  | entryOutside (idx : Nat)
  | outOfFreeInodes
  | freeInodeZero (ino : Nat)
  | notRegular (ino : Nat)
  | notDirectory (ino : Nat)
  | entryExists (name : List Char)
  | invalidName (name : List Char)
  | nameTooLong (name : List Char)
  | unpackOutside
  | packOutside
  | encodeOutside
deriving DecidableEq

/-- The exceptions that are `FSError`; the others are `struct.error` and `UnicodeEncodeError`. -/
def FsError.isFsError : FsError → Bool
  | .unpackOutside | .packOutside | .encodeOutside => false
  | _ => true

/-- `MAX_NAME`. -/
def maxName : Nat := 14

/-- A character of `repr` of a string in the quotes `quote`. -/
def reprChar (quote c : Char) : List Char :=
  let backslash := Char.ofNat 0x5C
  let code := c.toNat
  if c = quote ∨ c = backslash then [backslash, c]
  else if code = 9 then [backslash, 't']
  else if code = 10 then [backslash, 'n']
  else if code = 13 then [backslash, 'r']
  else if code < 32 ∨ (127 ≤ code ∧ code ≤ 160) ∨ code = 173 then
    [backslash, 'x', Nat.digitChar (code / 16), Nat.digitChar (code % 16)]
  else [c]

/-- `repr` of a string; characters beyond Latin-1 are taken as printable. -/
def reprStr (name : List Char) : String :=
  let single := Char.ofNat 0x27
  let double := Char.ofNat 0x22
  let quote := if single ∈ name ∧ double ∉ name then double else single
  String.ofList (quote :: (name.flatMap (reprChar quote) ++ [quote]))

/-- The text of an exception. -/
def FsError.message : FsError → String
  | .outOfFreeBlocks => "out of free blocks"
  | .badChainBlock b => s!"bad free-list chain block {b}"
  | .badChainNfree n => s!"bad chain df_nfree {n}"
  | .allocatedOutside b isize fsize => s!"allocated block {b} out of [{isize}, {fsize})"
  | .freeZero => "refusing to free block 0"
  | .freeOutside b isize fsize => s!"free_block({b}) out of [{isize}, {fsize})"
  | .corruptNfree n => s!"corrupt s_nfree={n}"
  | .writeOutside bno len => s!"write_block({bno}) out of range (image {len} bytes)"
  | .badSuperblock isize fsize => s!"fsck: implausible superblock isize={isize} fsize={fsize}"
  | .writeLength bno len => s!"write_block({bno}): {len} bytes, want {blockSize}"
  | .fileTooLarge => "file too large for triple indirect"
  | .entryOutside idx => s!"indirect entry idx {idx} out of range"
  | .outOfFreeInodes => "out of free inodes"
  | .freeInodeZero ino => s!"free_inode({ino})"
  | .notRegular ino => s!"inode {ino} is not a regular file"
  | .notDirectory ino => s!"parent ino {ino} is not a directory"
  | .entryExists name => s!"entry {reprStr name} already exists"
  | .invalidName name => s!"invalid entry name {reprStr name}"
  | .nameTooLong name => s!"name {reprStr name} exceeds {maxName} bytes"
  | .unpackOutside => "unpack_from requires a larger buffer"
  | .packOutside => "'H' format requires 0 <= number <= 65535"
  | .encodeOutside => "'latin-1' codec can't encode character"

/-- `image`, the shared bytearray. -/
structure Image where
  len : Nat
  byte : Buffer

/-- Block `bno` lies in the image. -/
def Image.hasBlock (image : Image) (bno : Nat) : Bool :=
  decide (bno * blockSize + blockSize ≤ image.len)

/-- `read_block`: zeros past the end of the image. A block has 512 bytes; the
buffer is zero beyond them. -/
def Image.readBlock (image : Image) (bno : Nat) : Buffer := fun i =>
  if image.hasBlock bno ∧ i < blockSize then image.byte (bno * blockSize + i) else 0

/-- The image with one block replaced. -/
def Image.setBlock (image : Image) (bno : Nat) (data : Buffer) : Image :=
  { image with byte := image.byte.blit (bno * blockSize) data 0 blockSize }

/-- A program over the image that may raise. -/
abbrev FsM := EStateM FsError Image

/-- `read_block` as a program. -/
def readBlock (bno : Nat) : FsM Buffer := return (← get).readBlock bno

/-- `write_block`. -/
def writeBlock (bno : Nat) (data : Buffer) : FsM Unit := do
  let image ← get
  if image.hasBlock bno then set (image.setBlock bno data)
  else throw (.writeOutside bno image.len)

/-- `_s16`: a 16-bit field read as a signed short. -/
def s16 (v : Nat) : Int := if 0x7FFF < v then (v : Int) - 0x10000 else v

/-- `CoherentFS`, the handle of one partition. The mount table is left out. -/
structure CoherentFs where
  /-- Partition offset in blocks. -/
  partOff : Nat

/-- `_read_sb`. -/
def CoherentFs.readSb (fs : CoherentFs) : FsM Buffer := readBlock (fs.partOff + 1)

/-- `_write_sb`. -/
def CoherentFs.writeSb (fs : CoherentFs) (sb : Buffer) : FsM Unit :=
  writeBlock (fs.partOff + 1) sb

/-- `_touch_sb` at time `now`. -/
def touchSb (sb : Buffer) (now : Nat) : Buffer :=
  (sb.set8 sbFmod 1).set32 sbTime now

/-! ## Blocks -/

/-- Reading the block just written. -/
theorem Image.readBlock_setBlock_same {image : Image} {bno : Nat} (data : Buffer)
    (inside : image.hasBlock bno) {i : Nat} (small : i < blockSize) :
    (image.setBlock bno data).readBlock bno i = data i := by
  have still : (image.setBlock bno data).hasBlock bno = true := inside
  rw [Image.readBlock, if_pos ⟨still, small⟩, Image.setBlock]
  dsimp only
  rw [Buffer.blit_apply_of_mem (by omega)]
  congr 1
  omega

/-- Writing one block leaves the others. -/
theorem Image.readBlock_setBlock_other (image : Image) {bno other : Nat} (data : Buffer)
    (ne : other ≠ bno) : (image.setBlock bno data).readBlock other = image.readBlock other := by
  funext i
  unfold Image.readBlock
  have same : (image.setBlock bno data).hasBlock other = image.hasBlock other := rfl
  rw [same]
  split
  case isTrue inside =>
    have apart : other * blockSize + i < bno * blockSize ∨
        bno * blockSize + blockSize ≤ other * blockSize + i := by
      have small := inside.2
      unfold blockSize at *
      omega
    exact Buffer.blit_apply_of_ne apart
  case isFalse => rfl

/-- An image that has a block has the blocks below it. -/
theorem Image.hasBlock_mono {image : Image} {low high : Nat} (le : low ≤ high)
    (inside : image.hasBlock high = true) : image.hasBlock low = true := by
  have fits : high * blockSize + blockSize ≤ image.len := of_decide_eq_true inside
  have scaled := Nat.mul_le_mul_right blockSize le
  exact decide_eq_true (by omega)

/-- Two images of the same length that agree on every block but those in
`changed`. -/
structure Image.AgreeExcept (changed : Nat → Prop) (before after : Image) : Prop where
  len : after.len = before.len
  block : ∀ bno, ¬ changed bno → after.readBlock bno = before.readBlock bno

theorem Image.AgreeExcept.refl (changed : Nat → Prop) (image : Image) :
    Image.AgreeExcept changed image image :=
  ⟨rfl, fun _ _ => rfl⟩

theorem Image.AgreeExcept.trans {changed : Nat → Prop} {first second third : Image}
    (one : Image.AgreeExcept changed first second)
    (two : Image.AgreeExcept changed second third) : Image.AgreeExcept changed first third :=
  ⟨two.len.trans one.len, fun bno kept => (two.block bno kept).trans (one.block bno kept)⟩

theorem Image.AgreeExcept.mono {changed larger : Nat → Prop} {before after : Image}
    (agree : Image.AgreeExcept changed before after)
    (sub : ∀ bno, changed bno → larger bno) : Image.AgreeExcept larger before after :=
  ⟨agree.len, fun bno kept => agree.block bno fun was => kept (sub bno was)⟩

theorem Image.AgreeExcept.hasBlock {changed : Nat → Prop} {before after : Image}
    (agree : Image.AgreeExcept changed before after) (bno : Nat) :
    after.hasBlock bno = before.hasBlock bno := by
  unfold Image.hasBlock
  rw [agree.len]

theorem Image.setBlock_agreeExcept (image : Image) (bno : Nat) (data : Buffer) :
    Image.AgreeExcept (· = bno) image (image.setBlock bno data) :=
  ⟨rfl, fun _ other => image.readBlock_setBlock_other data other⟩

/-! ## Running programs -/

theorem FsM.bind_apply {α β : Type} (x : FsM α) (f : α → FsM β) (image : Image) :
    (x >>= f) image =
      match x image with
      | .ok a image => f a image
      | .error e image => .error e image := by
  change EStateM.bind x f image = _
  unfold EStateM.bind
  cases x image <;> rfl

@[simp] theorem FsM.pure_apply {α : Type} (a : α) (image : Image) :
    (pure a : FsM α) image = .ok a image := rfl

@[simp] theorem FsM.throw_apply {α : Type} (e : FsError) (image : Image) :
    (throw e : FsM α) image = .error e image := rfl

@[simp] theorem FsM.get_apply (image : Image) :
    (get : FsM Image) image = .ok image image := rfl

@[simp] theorem readBlock_apply (bno : Nat) (image : Image) :
    readBlock bno image = .ok (image.readBlock bno) image := rfl

@[simp] theorem CoherentFs.readSb_apply (fs : CoherentFs) (image : Image) :
    fs.readSb image = .ok (image.readBlock (fs.partOff + 1)) image := rfl

theorem writeBlock_inside {bno : Nat} {image : Image} (inside : image.hasBlock bno = true)
    (data : Buffer) : writeBlock bno data image = .ok () (image.setBlock bno data) := by
  unfold writeBlock
  rw [FsM.bind_apply]
  simp only [FsM.get_apply, inside, if_true]
  rfl

theorem writeBlock_outside {bno : Nat} {image : Image} (outside : image.hasBlock bno = false)
    (data : Buffer) : writeBlock bno data image = .error (.writeOutside bno image.len) image := by
  unfold writeBlock
  rw [FsM.bind_apply]
  simp only [FsM.get_apply, outside, Bool.false_eq_true, if_false, FsM.throw_apply]

end C900
