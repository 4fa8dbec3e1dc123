import C900.Fs.Alloc
import C900.Logic.Loop

/-!
# Inodes, the consistency check and the free-list rebuild

`stat`, `walk_inode_blocks`, `check_blocks` and `rebuild_free_list` of
`disk.py`. Of an inode only the fields these read are kept. A walk returns the
calls of its `visit` argument as a list, in order.
-/

namespace C900

def inodeSize : Nat := 64
def nDirect : Nat := 10
def sIfreg : Nat := 0x8000
def sIfdir : Nat := 0x4000

/-- `INDIRECT_COUNT`. -/
def indirectCount : Nat := 128

/-- `Inode`. -/
structure Inode where
  mode : Nat
  size : Nat
  addrs : List Nat
deriving DecidableEq

def Inode.isFile (inode : Inode) : Bool := inode.mode &&& 0xF000 == sIfreg

def Inode.isDir (inode : Inode) : Bool := inode.mode &&& 0xF000 == sIfdir

/-- `read_addr24`: high byte first, then a little-endian word. -/
def readAddr24 (buf : Buffer) (off : Nat) : Nat :=
  65536 * (buf off).toNat + buf.get16 (off + 1)

/-- `stat`. -/
def CoherentFs.stat (fs : CoherentFs) (image : Image) (ino : Nat) : Option Inode :=
  if ino < 1 then none
  else
    let idx := ino - 1
    let raw := image.readBlock (fs.partOff + 2 + idx / inodesPerBlock)
    let off := idx % inodesPerBlock * inodeSize
    let mode := raw.get16 off
    if mode = 0 then none
    else some {
      mode := mode
      size := raw.get32 (off + 8)
      addrs := (List.range 13).map fun j => readAddr24 raw (off + 12 + j * 3) }

/-! ## Walking the blocks of an inode -/

/-- A call `visit(rel, is_indirect)`. -/
abbrev Visit := Nat × Bool

/-- The state of a walk: the calls so far, and `got`, the number of logical
blocks passed. -/
abbrev Walk := List Visit × Nat

/-- `_span`. -/
def span (depth : Nat) : Nat := indirectCount ^ depth

/-- `_walk_indirect_blocks`. -/
def CoherentFs.walkIndirectBlocks (fs : CoherentFs) (image : Image) (need : Nat) :
    Nat → Nat → Walk → Walk
  | 0, _, walk => walk
  | depth + 1, bno, (visits, got) =>
    if need ≤ got then (visits, got)
    else if bno = 0 then (visits, min need (got + span (depth + 1)))
    else
      let visits := visits ++ [(bno, true)]
      if image.len < (fs.partOff + bno + 1) * blockSize then
        (visits, min need (got + span (depth + 1)))
      else
        let blk := image.readBlock (fs.partOff + bno)
        forUpTo indirectCount (fun i (visits, got) =>
          if got < need then
            let entry := blk.get32 (i * 4)
            if depth = 0 then
              (if entry ≠ 0 then visits ++ [(entry, false)] else visits, got + 1)
            else fs.walkIndirectBlocks image need depth entry (visits, got)
          else (visits, got)) (visits, got)

/-- `walk_inode_blocks`. -/
def CoherentFs.walkInodeBlocks (fs : CoherentFs) (image : Image) (inode : Inode) : List Visit :=
  let need := (inode.size + blockSize - 1) / blockSize
  let direct := (inode.addrs.take nDirect).foldl (fun (visits, got) b =>
    if need ≤ got then (visits, got)
    else (if b ≠ 0 then visits ++ [(b, false)] else visits, got + 1)) (([], 0) : Walk)
  let addr := fun j => inode.addrs.getD j 0
  let single := fs.walkIndirectBlocks image need 1 (addr 10) direct
  let double := fs.walkIndirectBlocks image need 2 (addr 11) single
  (fs.walkIndirectBlocks image need 3 (addr 12) double).1

/-- The inodes that own blocks: files and directories, with their numbers, in
table order. -/
def CoherentFs.blockOwners (fs : CoherentFs) (image : Image) (isize : Nat) : List (Nat × Inode) :=
  (List.range ((isize - 2) * inodesPerBlock)).filterMap fun i =>
    match fs.stat image (i + 1) with
    | none => none
    | some inode => if !inode.isFile && !inode.isDir then none else some (i + 1, inode)

/-! ## The consistency check -/

/-- `FsckReport`. The two dictionaries are association lists, oldest key
first. -/
structure FsckReport where
  isize : Nat
  fsize : Nat
  usedInodes : Nat
  freeInodes : Nat
  usedBlocks : Nat
  freeBlocks : Int
  crossLinked : List (Nat × List Nat)
  outOfRange : List (Nat × List Nat)

/-- `d.setdefault(key, initial).append(value)`. -/
def appendTo (dict : List (Nat × List Nat)) (key : Nat) (initial : List Nat) (value : Nat) :
    List (Nat × List Nat) :=
  if dict.any (·.1 == key) then
    dict.map fun (k, values) => if k == key then (k, values ++ [value]) else (k, values)
  else dict ++ [(key, initial ++ [value])]

/-- The `visit` of `check_blocks`: the first claim of a block makes an owner, a
later one a cross link. -/
def checkVisit (ino : Nat) (state : FsckReport × List (Nat × Nat)) (visit : Visit) :
    FsckReport × List (Nat × Nat) :=
  let (rep, owner) := state
  let rel := visit.1
  if rel < rep.isize ∨ rep.fsize ≤ rel then
    ({ rep with outOfRange := appendTo rep.outOfRange ino [] rel }, owner)
  else
    match owner.lookup rel with
    | some first => ({ rep with crossLinked := appendTo rep.crossLinked rel [first] ino }, owner)
    | none => ({ rep with usedBlocks := rep.usedBlocks + 1 }, owner ++ [(rel, ino)])

/-- The report before any block is visited: the counts of the inode table. -/
def CoherentFs.startReport (fs : CoherentFs) (image : Image) (isize fsize : Nat) : FsckReport :=
  let inodes := (List.range ((isize - 2) * inodesPerBlock)).map fun i => fs.stat image (i + 1)
  { isize := isize
    fsize := fsize
    usedInodes := inodes.countP Option.isSome
    freeInodes := inodes.countP Option.isNone
    usedBlocks := 0
    freeBlocks := 0
    crossLinked := []
    outOfRange := [] }

/-- `check_blocks`. -/
def CoherentFs.checkBlocks (fs : CoherentFs) (image : Image) : Except FsError FsckReport :=
  let sb := image.readBlock (fs.partOff + 1)
  let isize := sb.get16 sbIsize
  let fsize := sb.get32 sbFsize
  if isize < 2 ∨ fsize ≤ isize then .error (.badSuperblock isize fsize)
  else
    let (rep, _) := (fs.blockOwners image isize).foldl (fun state (ino, inode) =>
      (fs.walkInodeBlocks image inode).foldl (checkVisit ino) state)
      (fs.startReport image isize fsize, [])
    .ok { rep with freeBlocks := (fsize : Int) - isize - rep.usedBlocks }

/-! ## The rebuild -/

/-- `used`: the blocks that files and directories reference. -/
def CoherentFs.usedBlocks (fs : CoherentFs) (image : Image) (rep : FsckReport) : List Nat :=
  ((fs.blockOwners image rep.isize).flatMap fun (_, inode) =>
    (fs.walkInodeBlocks image inode).map Prod.fst).filter
      fun rel => decide (rep.isize ≤ rel ∧ rel < rep.fsize)

/-- The blocks that no file or directory references, in ascending order. -/
def CoherentFs.unusedBlocks (fs : CoherentFs) (image : Image) (rep : FsckReport) : List Nat :=
  (List.range' rep.isize (rep.fsize - rep.isize)).filter fun b =>
    !(fs.usedBlocks image rep).contains b

/-- The superblock that the rebuild starts from: no free blocks, no cached
inodes, no locks. -/
def emptiedSb (sb : Buffer) (freeInodes now : Nat) : Buffer :=
  let sb := sb.set16 sbNfree 0
  let sb := forUpTo nicFree (fun i sb => sb.set32 (sbFree + i * 4) 0) sb
  let sb := sb.set32 sbTfree 0
  let sb := sb.set16 sbNinode 0
  let sb := sb.set16 sbTinode (freeInodes % 65536)
  let sb := (sb.set8 sbFlock 0).set8 sbIlock 0
  touchSb sb now

/-- Free the blocks of a list in order; `clock b` is the time of the call for
block `b`. -/
def CoherentFs.freeAll (fs : CoherentFs) (clock : Nat → Nat) : List Nat → FsM Unit
  | [] => pure ()
  | b :: rest => do
    fs.freeBlock (clock b) b
    fs.freeAll clock rest

/-- `rebuild_free_list`. -/
def CoherentFs.rebuildFreeList (fs : CoherentFs) (now : Nat) (clock : Nat → Nat) :
    FsM FsckReport := do
  let image ← get
  match fs.checkBlocks image with
  | .error e => throw e
  | .ok rep =>
    let used := fs.usedBlocks image rep
    let sb ← fs.readSb
    fs.writeSb (emptiedSb sb rep.freeInodes now)
    -- `range(fsize - 1, isize - 1, -1)`
    let area := (List.range' rep.isize (rep.fsize - rep.isize)).reverse
    fs.freeAll clock (area.filter fun b => !used.contains b)
    return rep

end C900
