import C900.Fs.Check
import C900.Logic.Raising

/-!
# Writing files

The write side of `disk.py` on one inode: the mapping of logical blocks, growing and shrinking,
`write_inode` and `write_file`. A method works on the image and on an `Inode` object, which keeps
what was done to it when an exception ends the call.
-/

namespace C900

/-- `Inode`, with the fields that only the writers use. -/
structure OpenInode extends Inode where
  ino : Nat
  nlinks : Nat
  uid : Nat
  gid : Nat
  atime : Nat
  mtime : Nat
  ctime : Nat
deriving DecidableEq

/-- A call of an allocator. -/
inductive AllocCall where
  | tookBlock (b : Nat)
  | gaveBlock (b : Nat)
  | tookInode (ino : Nat)
  | gaveInode (ino : Nat)
deriving DecidableEq

/-- The shared image, the times that the clock is going to give, the `Inode` object that a method
works on, and the allocator calls so far, newest first. -/
structure Session where
  image : Image
  clock : Nat → Nat
  inode : OpenInode
  calls : List AllocCall

/-- A program of the write side. -/
abbrev WriteM := EStateM FsError Session

/-! ## Steps -/

/-- A step on the image. -/
def onImage {α : Type} (x : FsM α) : WriteM α := fun s =>
  match x s.image with
  | .ok a image => .ok a { s with image := image }
  | .error e image => .error e { s with image := image }

/-- `int (time.time ())`. -/
def timeNow : WriteM Nat := fun s =>
  .ok (s.clock 0) { s with clock := fun i => s.clock (i + 1) }

/-- A call is recorded. -/
def record (call : AllocCall) : WriteM Unit := modify fun s => { s with calls := call :: s.calls }

/-- `alloc_block`, at the time of the call. -/
def CoherentFs.takeBlock (fs : CoherentFs) : WriteM Nat := do
  let now ← timeNow
  let b ← onImage (fs.allocBlock now)
  record (.tookBlock b)
  pure b

/-- `free_block`, at the time of the call. -/
def CoherentFs.giveBlock (fs : CoherentFs) (b : Nat) : WriteM Unit := do
  let now ← timeNow
  onImage (fs.freeBlock now b)
  record (.gaveBlock b)

/-- `inode.addrs [slot]`. -/
def addrAt (slot : Nat) : WriteM Nat := return (← get).inode.addrs.getD slot 0

/-- An inode with one address replaced. -/
def OpenInode.setAddr (inode : OpenInode) (slot b : Nat) : OpenInode :=
  { inode with addrs := inode.addrs.set slot b }

/-- `inode.addrs [slot] = b`. -/
def setAddr (slot b : Nat) : WriteM Unit :=
  modify fun s => { s with inode := s.inode.setAddr slot b }

/-- `write_indirect_entry`. -/
def writeIndirectEntry (blk : Buffer) (idx val : Nat) : Except FsError Buffer :=
  if indirectCount ≤ idx then .error (.entryOutside idx) else .ok (blk.set32 (idx * 4) val)

/-- `_zero_block`. -/
def CoherentFs.zeroBlock (fs : CoherentFs) (rel : Nat) : WriteM Unit :=
  onImage (writeBlock (fs.partOff + rel) fun _ => 0)

/-! ## Growing -/

/-- `_classify_index`: the depth, the slot of a direct block, and the path below the root. -/
def classifyIndex (n idx : Nat) : Except FsError (Nat × Option Nat × List Nat) :=
  if idx < nDirect then .ok (0, some idx, [])
  else
    let r := idx - nDirect
    if r < n then .ok (1, none, [r])
    else
      let r := r - n
      if r < n * n then .ok (2, none, [r / n, r % n])
      else
        let r := r - n * n
        if r < n ^ 3 then .ok (3, none, [r / (n * n), r % (n * n) / n, r % n])
        else .error .fileTooLarge

/-- `_ensure_indirect_child`. -/
def CoherentFs.ensureIndirectChild (fs : CoherentFs) : Nat → Nat → List Nat → WriteM Nat
  | 0, indirBlk, _ => pure indirBlk
  | depth + 1, indirBlk, coords => do
    let blk ← onImage (readBlock (fs.partOff + indirBlk))
    let slot := coords.headD 0
    let cur := blk.get32 (slot * 4)
    if depth = 0 then
      if cur = 0 then do
        let cur ← fs.takeBlock
        let blk ← ofExcept (writeIndirectEntry blk slot cur)
        onImage (writeBlock (fs.partOff + indirBlk) blk)
        pure cur
      else pure cur
    else if cur = 0 then do
      let cur ← fs.takeBlock
      fs.zeroBlock cur
      let blk ← ofExcept (writeIndirectEntry blk slot cur)
      onImage (writeBlock (fs.partOff + indirBlk) blk)
      fs.ensureIndirectChild depth cur coords.tail
    else fs.ensureIndirectChild depth cur coords.tail

/-- The root of the tree of a depth, allocated and cleared where it is missing. -/
def CoherentFs.ensureRoot (fs : CoherentFs) (rootSlot : Nat) : WriteM Unit := do
  let root ← addrAt rootSlot
  if root = 0 then do
    let b ← fs.takeBlock
    setAddr rootSlot b
    fs.zeroBlock b
  else pure ()

/-- `_ensure_data_block`. -/
def CoherentFs.ensureDataBlock (fs : CoherentFs) (idx : Nat) : WriteM Nat := do
  let (depth, slot, coords) ← ofExcept (classifyIndex indirectCount idx)
  if depth = 0 then do
    let slot := slot.getD 0
    let cur ← addrAt slot
    if cur = 0 then do
      let b ← fs.takeBlock
      setAddr slot b
      pure b
    else pure cur
  else do
    let rootSlot := nDirect + depth - 1
    fs.ensureRoot rootSlot
    let root ← addrAt rootSlot
    fs.ensureIndirectChild depth root coords

/-- `_grow_to_n_blocks`. -/
def CoherentFs.growToNBlocks (fs : CoherentFs) (nBlocks : Nat) : WriteM (List Nat) :=
  (List.range nBlocks).foldlM (fun blocks i => do
    let b ← fs.ensureDataBlock i
    pure (blocks ++ [b])) []

/-! ## Shrinking -/

/-- The local variables of `_shrink_indirect`. -/
structure Pruning where
  work : Buffer
  dirty : Bool
  allZero : Bool

/-- An entry of `_shrink_indirect` whose block is given up. -/
def CoherentFs.dropEntry (fs : CoherentFs) (p : Pruning) (slot entry : Nat) : WriteM Pruning := do
  fs.giveBlock entry
  let work ← ofExcept (writeIndirectEntry p.work slot 0)
  pure { p with work := work, dirty := true }

/-- `_shrink_indirect`. -/
def CoherentFs.shrinkIndirect (fs : CoherentFs) : Nat → Nat → Nat → WriteM Bool
  | 0, _, _ => pure true
  | depth + 1, indirBlk, keep => do
    let work ← onImage (readBlock (fs.partOff + indirBlk))
    let p ← (List.range indirectCount).foldlM (fun (p : Pruning) slot => do
      let entry := p.work.get32 (slot * 4)
      if entry = 0 then pure p
      else if depth = 0 then
        if slot < keep then pure { p with allZero := false }
        else fs.dropEntry p slot entry
      else
        let subSpan := indirectCount ^ depth
        let base := slot * subSpan
        if base + subSpan ≤ keep then pure { p with allZero := false }
        else do
          let empty ← fs.shrinkIndirect depth entry (keep - base)
          if empty then fs.dropEntry p slot entry
          else pure { p with allZero := false }) ⟨work, false, true⟩
    if p.dirty ∧ ¬ p.allZero then onImage (writeBlock (fs.partOff + indirBlk) p.work) else pure ()
    pure p.allZero

/-- A direct block of `_shrink_to_n_blocks`. -/
def CoherentFs.dropDirect (fs : CoherentFs) (i : Nat) : WriteM Unit := do
  let b ← addrAt i
  if b ≠ 0 then do
    fs.giveBlock b
    setAddr i 0
  else pure ()

/-- A tree of `_shrink_to_n_blocks`: the tree of depth `d + 1`, of which `cut` leaves lie below
the new end. -/
def CoherentFs.shrinkTree (fs : CoherentFs) (d cut : Nat) : WriteM Unit := do
  let rootSlot := nDirect + d
  let root ← addrAt rootSlot
  if root = 0 then pure ()
  else do
    let keep := min cut (indirectCount ^ (d + 1))
    let empty ← fs.shrinkIndirect (d + 1) root keep
    if empty then do
      fs.giveBlock root
      setAddr rootSlot 0
    else pure ()

/-- `_shrink_to_n_blocks`. -/
def CoherentFs.shrinkToNBlocks (fs : CoherentFs) (nBlocks : Nat) : WriteM Unit := do
  (List.range' nBlocks (nDirect - nBlocks)).foldlM (fun _ i => fs.dropDirect i) ()
  let n := indirectCount
  fs.shrinkTree 0 (nBlocks - nDirect)
  fs.shrinkTree 1 (nBlocks - nDirect - n)
  fs.shrinkTree 2 (nBlocks - nDirect - n - n * n)

/-! ## Inodes and files -/

/-- `write_addr24`. -/
def writeAddr24 (buf : Buffer) (off v : Nat) : Buffer :=
  (buf.set8 off (BitVec.ofNat 8 (v / 65536))).set16 (off + 1) (v % 65536)

/-- The block of an inode, `2 + (ino - 1) // INODES_PER_BLOCK`; number 0 counts down from the
first one. -/
def CoherentFs.inodeBlock (fs : CoherentFs) (ino : Nat) : Nat :=
  fs.partOff + 1 + (ino + inodesPerBlock - 1) / inodesPerBlock

/-- The position of an inode in its block. -/
def inodeOffset (ino : Nat) : Nat := (ino + inodesPerBlock - 1) % inodesPerBlock * inodeSize

/-- The bytes of an inode in its block. -/
def packInode (out : Buffer) (off : Nat) (inode : OpenInode) : Buffer :=
  let out := out.set16 off (inode.mode % 65536)
  let out := out.set16 (off + 2) (inode.nlinks % 65536)
  let out := out.set16 (off + 4) (inode.uid % 65536)
  let out := out.set16 (off + 6) (inode.gid % 65536)
  let out := out.set32 (off + 8) inode.size
  let out := forUpTo 13 (fun j out =>
    writeAddr24 out (off + 12 + j * 3) (inode.addrs.getD j 0)) out
  let out := out.set32 (off + 51) inode.atime
  let out := out.set32 (off + 55) inode.mtime
  out.set32 (off + 59) inode.ctime

/-- `write_inode`. -/
def CoherentFs.writeInode (fs : CoherentFs) : WriteM Unit := do
  let inode := (← get).inode
  let blkNum := fs.inodeBlock inode.ino
  let out ← onImage (readBlock blkNum)
  onImage (writeBlock blkNum (packInode out (inodeOffset inode.ino) inode))

/-- Block `i` of the data, filled up with zeros. -/
def chunkOf (data : List (BitVec 8)) (i : Nat) : Buffer := fun k =>
  ((data.drop (i * blockSize)).take blockSize).getD k 0

/-- The number of blocks of a length. -/
def blocksOf (len : Nat) : Nat := (len + blockSize - 1) / blockSize

/-- The loop of `write_file` over its blocks. -/
def CoherentFs.writeChunks (fs : CoherentFs) (data : List (BitVec 8)) (blocks : List Nat) :
    WriteM Unit :=
  blocks.zipIdx.foldlM (fun _ (rel, i) =>
    onImage (writeBlock (fs.partOff + rel) (chunkOf data i))) ()

/-- `write_file`. -/
def CoherentFs.writeFile (fs : CoherentFs) (data : List (BitVec 8)) : WriteM Unit := do
  let inode := (← get).inode
  if !inode.isFile then throw (.notRegular inode.ino)
  let nNew := blocksOf data.length
  let nOld := blocksOf inode.size
  if nNew < nOld then fs.shrinkToNBlocks nNew
  let blocks ← fs.growToNBlocks nNew
  fs.writeChunks data blocks
  let now ← timeNow
  modify fun s => { s with
    inode := { s.inode with size := data.length, atime := now, mtime := now, ctime := now } }
  fs.writeInode

end C900
