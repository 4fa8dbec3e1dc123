import C900.Fs.CopyOut
import C900.Fs.Writer

/-!
# Creating files

The inode allocator of `disk.py`, `add_dir_entry`, `create_file` and `create_dir`. The numbers of
free inodes are cached in the superblock; an empty cache is filled up from the inode table.
-/

namespace C900

/-- `NICINODE`, the capacity of the inode cache. -/
def nicInode : Nat := 100

def sbInode : Nat := 266

/-! ## The inode allocator -/

/-- The local variables of the scan of `alloc_inode`. -/
structure InodeScan where
  sb : Buffer
  ino : Nat
  idx : Nat

/-- A slot of the inode table. -/
def InodeScan.slot (body : Buffer) (scan : InodeScan) (off : Nat) : Except FsError InodeScan :=
  if nicInode ≤ scan.idx then .ok scan
  else if body.get16 off = 0 then
    if 65535 < scan.ino then .error .packOutside
    else .ok ⟨scan.sb.set16 (sbInode + scan.idx * 2) scan.ino, scan.ino + 1, scan.idx + 1⟩
  else .ok { scan with ino := scan.ino + 1 }

/-- A block of the inode table. -/
def InodeScan.block (fs : CoherentFs) (image : Image) (scan : InodeScan) (blk : Nat) :
    Except FsError InodeScan :=
  if nicInode ≤ scan.idx then .ok scan
  else
    let body := image.readBlock (fs.partOff + blk)
    (List.range inodesPerBlock).foldlM (fun scan k => scan.slot body (k * inodeSize)) scan

/-- The scan of `alloc_inode`. -/
def CoherentFs.scanInodes (fs : CoherentFs) (image : Image) (sb : Buffer) :
    Except FsError InodeScan :=
  (List.range' 2 (sb.get16 sbIsize - 2)).foldlM (fun scan blk => scan.block fs image blk) ⟨sb, 1, 0⟩

/-- `alloc_inode`. -/
def CoherentFs.allocInode (fs : CoherentFs) (now : Nat) : FsM Nat := do
  let sb ← fs.readSb
  let ninode := s16 (sb.get16 sbNinode)
  let (sb, ninode) ←
    if ninode = 0 then do
      let scan ← ofExcept (fs.scanInodes (← get) sb)
      let sb := scan.sb.set16 sbNinode scan.idx
      if scan.idx = 0 then do
        fs.writeSb (touchSb (sb.set16 sbTinode 0) now)
        throw .outOfFreeInodes
      else pure (sb, (scan.idx : Int))
    else pure (sb, ninode)
  -- A negative count cannot be packed.
  if ninode ≤ 0 then throw .packOutside
  let ninode := (ninode - 1).toNat
  if blockSize < sbInode + ninode * 2 + 2 then throw .unpackOutside
  let ino := sb.get16 (sbInode + ninode * 2)
  let sb := sb.set16 sbNinode ninode
  let tinode := sb.get16 sbTinode
  let sb := if 0 < tinode then sb.set16 sbTinode (tinode - 1) else sb
  fs.writeSb (touchSb sb now)
  return ino

/-- `free_inode`. -/
def CoherentFs.freeInode (fs : CoherentFs) (now ino : Nat) : FsM Unit := do
  if ino < 1 then throw (.freeInodeZero ino)
  let out ← readBlock (fs.inodeBlock ino)
  writeBlock (fs.inodeBlock ino) (out.blit (inodeOffset ino) (fun _ => 0) 0 inodeSize)
  let sb ← fs.readSb
  let ninode := s16 (sb.get16 sbNinode)
  let sb ←
    if ninode < nicInode then do
      if 65535 < ino ∨ ninode < -1 then throw .packOutside
      pure ((sb.set16 (sbInode + ninode * 2).toNat ino).set16 sbNinode (ninode + 1).toNat)
    else pure sb
  let tinode := sb.get16 sbTinode
  if 65535 < tinode + 1 then throw .packOutside
  fs.writeSb (touchSb (sb.set16 sbTinode (tinode + 1)) now)

/-- `alloc_inode`, at the time of the call. -/
def CoherentFs.takeInode (fs : CoherentFs) : WriteM Nat := do
  let now ← timeNow
  let ino ← onImage (fs.allocInode now)
  record (.tookInode ino)
  pure ino

/-- `free_inode`, at the time of the call. -/
def CoherentFs.giveInode (fs : CoherentFs) (ino : Nat) : WriteM Unit := do
  let now ← timeNow
  onImage (fs.freeInode now ino)
  record (.gaveInode ino)

/-! ## Directory entries -/

/-- `validate_name`; `encode ("latin-1", "replace")` gives a byte for each character. -/
def validateName (name : PosixPath) : Except FsError Unit :=
  if name = [] ∨ name = ['.'] ∨ name = PosixPath.dotDot ∨ '/' ∈ name ∨ Char.ofNat 0 ∈ name then
    .error (.invalidName name)
  else if maxName < name.length then .error (.nameTooLong name)
  else .ok ()

/-- `_encode_dirent`. -/
def encodeDirent (ino : Nat) (name : PosixPath) : Except FsError (List (BitVec 8)) :=
  if 65535 < ino then .error .packOutside
  else if name.any fun c => 255 < c.toNat then .error .encodeOutside
  else
    let bytes := name.map fun c => BitVec.ofNat 8 c.toNat
    .ok (BitVec.ofNat 8 ino :: BitVec.ofNat 8 (ino / 256) ::
      (bytes ++ List.replicate (maxName - name.length) 0))

/-- An entry of a directory in the scan of `add_dir_entry`: the first free one is kept. -/
def scanDirent (body : List (BitVec 8)) (name : PosixPath) (reuseOff : Option Nat) (k : Nat) :
    Except FsError (Option Nat) :=
  let entry := (body.drop (direntSize * k)).take direntSize
  let ino := (entry.getD 0 0).toNat + 256 * (entry.getD 1 0).toNat
  if ino = 0 then .ok (some (reuseOff.getD (direntSize * k)))
  else if ((entry.drop 2).takeWhile (· ≠ 0)).map (fun b => Char.ofNat b.toNat) = name then
    .error (.entryExists name)
  else .ok reuseOff

/-- The scan of `add_dir_entry`. -/
def scanDir (body : List (BitVec 8)) (name : PosixPath) : Except FsError (Option Nat) :=
  (List.range (body.length / direntSize)).foldlM (scanDirent body name) none

/-- A byte string in a block. A byte string that does not fit makes the block longer. -/
def CoherentFs.writeBytes (fs : CoherentFs) (rel off : Nat) (bytes : List (BitVec 8)) :
    FsM Unit := do
  let out ← readBlock (fs.partOff + rel)
  if blockSize < off + bytes.length then throw (.writeLength (fs.partOff + rel) (off + bytes.length))
  writeBlock (fs.partOff + rel) (out.blit off (fun i => bytes.getD i 0) 0 bytes.length)

/-- `add_dir_entry`, on the inode of the parent. -/
def CoherentFs.addDirEntry (fs : CoherentFs) (name : PosixPath) (childIno : Nat) : WriteM Unit := do
  ofExcept (validateName name)
  let s ← get
  if !s.inode.isDir then throw (.notDirectory s.inode.ino)
  let reuseOff ← ofExcept (scanDir (fs.readFile s.image s.inode.toInode) name)
  let entry ← ofExcept (encodeDirent childIno name)
  let newOff := reuseOff.getD s.inode.size
  -- Without a free entry the directory grows by one.
  let size := if reuseOff = none then s.inode.size + direntSize else s.inode.size
  modify fun s => { s with inode := { s.inode with size := size } }
  let blocks ← fs.growToNBlocks (blocksOf size)
  onImage (fs.writeBytes (blocks.getD (newOff / blockSize) 0) (newOff % blockSize) entry)
  let now ← timeNow
  modify fun s => { s with inode := { s.inode with mtime := now, ctime := now } }
  fs.writeInode

/-! ## New files and directories -/

/-- A step on the object of the parent, which the session comes back from. A step that fails
leaves the caller's object behind, with the size that `add_dir_entry` has set in it: nothing
reads that object again, and the inode on the disk is what counts. -/
def onParent (parent : OpenInode) (x : WriteM Unit) : WriteM OpenInode := fun s =>
  match x { s with inode := parent } with
  | .ok _ t => .ok t.inode { t with inode := s.inode }
  | .error e t => .error e { t with inode := s.inode }

/-- `Inode (owner, ino)` with the fields that `create_file` and `create_dir` set. -/
def newInode (ino mode nlinks size : Nat) (addrs : List Nat) (now : Nat) : OpenInode where
  ino := ino
  mode := mode
  nlinks := nlinks
  size := size
  addrs := addrs
  uid := 0
  gid := 0
  atime := now
  mtime := now
  ctime := now

/-- An `except FSError` that goes on with `raise`. -/
def onFsError {α : Type} (body : WriteM α) (handler : WriteM Unit) : WriteM α :=
  tryCatch body fun e => do
    if e.isFsError then handler
    throw e

/-- `create_file`, on the inode of the parent; the session goes on with the new inode. -/
def CoherentFs.createFile (fs : CoherentFs) (name : PosixPath) (data : List (BitVec 8))
    (mode : Nat) : WriteM Unit := do
  ofExcept (validateName name)
  let parent := (← get).inode
  let ino ← fs.takeInode
  let now ← timeNow
  modify fun s => { s with
    inode := newInode ino ((mode &&& 0xFFF) ||| sIfreg) 1 0 (List.replicate 13 0) now }
  onFsError (do
    fs.writeInode
    fs.writeFile data
    let _ ← onParent parent (fs.addDirEntry name ino)) do
      fs.shrinkToNBlocks 0
      fs.giveInode ino

/-- The first block of a new directory. -/
def dirBlock (dot dotDot : List (BitVec 8)) : Buffer := fun i =>
  (dot ++ dotDot).getD i 0

/-- `create_dir`, on the inode of the parent; the session goes on with the new inode. -/
def CoherentFs.createDir (fs : CoherentFs) (name : PosixPath) (mode : Nat) : WriteM Unit := do
  ofExcept (validateName name)
  let parent := (← get).inode
  let ino ← fs.takeInode
  let dataBlk ← onFsError fs.takeBlock (fs.giveInode ino)
  let dot ← ofExcept (encodeDirent ino ['.'])
  let dotDot ← ofExcept (encodeDirent parent.ino PosixPath.dotDot)
  let now ← timeNow
  modify fun s => { s with
    inode := newInode ino ((mode &&& 0xFFF) ||| sIfdir) 2 (2 * direntSize)
      (dataBlk :: List.replicate 12 0) now }
  let parent ← onFsError (do
    onImage (writeBlock (fs.partOff + dataBlk) (dirBlock dot dotDot))
    fs.writeInode
    onParent parent (fs.addDirEntry name ino)) do
      fs.giveBlock dataBlk
      fs.giveInode ino
  let _ ← onParent { parent with nlinks := parent.nlinks + 1, mtime := now, ctime := now }
    fs.writeInode

end C900
