import C900.Fs.Image

/-!
# The block allocator

`alloc_block` and `free_block` of `disk.py`. The free list is a stack: a cache
of up to 64 block numbers in the superblock, and, below its lowest entry, a
chain of caches that were spilled into free blocks.
-/

namespace C900

/-- `alloc_block`. -/
def CoherentFs.allocBlock (fs : CoherentFs) (now : Nat) : FsM Nat := do
  let sb ← fs.readSb
  let nfree := s16 (sb.get16 sbNfree)
  if nfree ≤ 0 then throw .outOfFreeBlocks
  let nfree := (nfree - 1).toNat
  if blockSize < sbFree + nfree * 4 + 4 then throw .unpackOutside
  let b := sb.get32 (sbFree + nfree * 4)
  if b = 0 then
    -- An entry of 0 ends the list.
    fs.writeSb (sb.set16 sbNfree 0)
    throw .outOfFreeBlocks
  let sb := sb.set16 sbNfree nfree
  let isize := sb.get16 sbIsize
  let fsize := sb.get32 sbFsize
  let sb ←
    if nfree = 0 then do
      if b < isize ∨ fsize ≤ b then throw (.badChainBlock b)
      let fblk ← readBlock (fs.partOff + b)
      let chainN := s16 (fblk.get16 fblkNfree)
      if chainN < 0 ∨ (nicFree : Int) < chainN then throw (.badChainNfree chainN)
      pure ((sb.blit sbFree fblk fblkFree (nicFree * 4)).set16 sbNfree chainN.toNat)
    else pure sb
  if b < isize ∨ fsize ≤ b then throw (.allocatedOutside b isize fsize)
  let tfree := sb.get32 sbTfree
  let sb := if 0 < tfree then sb.set32 sbTfree (tfree - 1) else sb
  fs.writeSb (touchSb sb now)
  return b

/-- `free_block`. -/
def CoherentFs.freeBlock (fs : CoherentFs) (now b : Nat) : FsM Unit := do
  if b = 0 then throw .freeZero
  let sb ← fs.readSb
  let isize := sb.get16 sbIsize
  let fsize := sb.get32 sbFsize
  if b < isize ∨ fsize ≤ b then throw (.freeOutside b isize fsize)
  let nfree := s16 (sb.get16 sbNfree)
  if nfree < 0 ∨ (nicFree : Int) < nfree then throw (.corruptNfree nfree)
  let mut nfree := nfree.toNat
  if nfree = nicFree then
    -- A full cache is spilled into `b`, which becomes the next link.
    let fblk : Buffer := fun _ => 0
    let fblk := (fblk.set16 fblkNfree nfree).blit fblkFree sb sbFree (nicFree * 4)
    writeBlock (fs.partOff + b) fblk
    nfree := 0
  let sb := (sb.set32 (sbFree + nfree * 4) b).set16 sbNfree (nfree + 1)
  let sb := sb.set32 sbTfree (sb.get32 sbTfree + 1)
  fs.writeSb (touchSb sb now)

end C900
