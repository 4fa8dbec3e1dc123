import C900.Fs.AddEntry
import C900.Fs.InodeCache

/-!
# A directory that a failed creation leaves alone

The parent of a creation that fails has its size, its link count, its block map and its content as
before, and the free blocks are those that the calls have left.
-/

namespace C900

/-- The inode has its fields, its block map and its content as before. -/
structure CoherentFs.Untouched (fs : CoherentFs) (ino : Nat) (inode : Inode) (image after : Image) :
    Prop where
  fields : fs.openStat after ino = fs.openStat image ino
  pointers : ∀ {p : BlockPlace}, p.Valid → fs.pointer after inode p = fs.pointer image inode p
  content : fs.readFile after inode = fs.readFile image inode

section Untouched

variable {fs : CoherentFs} {isize fsize ino other n : Nat} {last : Option Nat}
  {image middle after : Image} {inode : Inode} {list list' rest taken : List Nat} {s t : Session}

theorem CoherentFs.Untouched.trans (first : fs.Untouched ino inode image middle)
    (second : fs.Untouched ino inode middle after) : fs.Untouched ino inode image after :=
  ⟨second.fields.trans first.fields, fun valid => (second.pointers valid).trans (first.pointers valid),
    second.content.trans first.content⟩

/-- The holes of the inode are those from before. -/
theorem CoherentFs.Untouched.holes (untouched : fs.Untouched ino inode image after) (n : Nat) :
    fs.holes after inode n = fs.holes image inode n :=
  CoherentFs.holes_congr untouched.pointers

theorem CoherentFs.Untouched.maps (untouched : fs.Untouched ino inode image after) (x : Nat) :
    fs.Maps after inode x ↔ fs.Maps image inode x := by
  refine and_congr_right fun _ => exists_congr fun p => and_congr_right fun valid => ?_
  rw [untouched.pointers valid]

/-- A new entry of the directory fills the same holes. -/
theorem CoherentFs.Untouched.entryHoles (untouched : fs.Untouched ino inode image after) :
    fs.entryHoles after inode = fs.entryHoles image inode := by
  unfold CoherentFs.entryHoles
  rw [untouched.content]
  exact untouched.holes _

/-- Another inode is rewritten. -/
theorem CoherentFs.Consistent.untouched (consistent : fs.Consistent isize fsize last image list)
    (rewrites : fs.Rewrites isize ino list image after) (real : 1 ≤ ino)
    (table : ino ≤ (isize - 2) * inodesPerBlock) (owner : fs.Owner isize image other inode)
    (ne : other ≠ ino) : fs.Untouched other inode image after := by
  obtain ⟨-, pointers, content⟩ := consistent.keeps rewrites real table owner ne
  exact ⟨rewrites.others other owner.real owner.last ne, pointers, content⟩

/-- Only the superblock is written. -/
theorem CoherentFs.Consistent.untouched_sb (consistent : fs.Consistent isize fsize last image list)
    (only : fs.SbOnly image after) (owner : fs.Owner isize image other inode) :
    fs.Untouched other inode image after := by
  have data := consistent.stock.data
  have blocks : ∀ {p : BlockPlace}, p.Valid → fs.pointer image inode p ≠ 0 →
      after.readBlock (fs.partOff + fs.pointer image inode p) =
        image.readBlock (fs.partOff + fs.pointer image inode p) := by
    intro p valid found
    have low := ((consistent.map owner).area valid found).1
    exact only.block _ (by omega)
  obtain ⟨pointers, content⟩ :=
    CoherentFs.readFile_untouched (CoherentFs.stat_addrs owner.stat) blocks
  exact ⟨only.openStat other, pointers, content⟩

/-- A growth that has taken no block leaves the inode alone. -/
theorem CoherentFs.Grown.untouched (grown : fs.Grown isize fsize last n s list [] rest t)
    (growable : fs.Growable isize fsize last s list) {inode : Inode}
    (addrs : inode.addrs = s.inode.addrs)
    (fields : fs.openStat t.image ino = fs.openStat s.image ino) :
    fs.Untouched ino inode s.image t.image := by
  -- No place was filled, so that the inode in memory is the one on the disk.
  have still : ∀ {p : BlockPlace}, p.Valid →
      fs.pointer t.image t.inode.toInode p = fs.pointer s.image s.inode.toInode p := by
    intro p valid
    by_cases hole : fs.pointer s.image s.inode.toInode p = 0
    · rw [hole]
      by_contra found
      exact List.not_mem_nil (grown.new valid hole found).2
    · exact grown.old valid hole
  have before : ∀ {p : BlockPlace}, fs.pointer s.image inode p = fs.pointer s.image s.inode.toInode p := by
    intro p
    unfold CoherentFs.pointer
    rw [addrs]
  have pointers : ∀ {p : BlockPlace}, p.Valid →
      fs.pointer t.image inode p = fs.pointer s.image inode p := by
    intro p valid
    rw [before, ← still valid]
    unfold CoherentFs.pointer
    have root := still (p := ⟨p.root, []⟩) ⟨valid.1, PointerTree.IsPath.nil _⟩
    unfold CoherentFs.pointer at root
    rw [PointerTree.follow_nil, PointerTree.follow_nil] at root
    rw [addrs]
    exact congrArg (PointerTree.follow (fs.entry t.image) · p.path) root.symm
  refine ⟨fields, pointers, CoherentFs.readFile_congr (addrs ▸ growable.map.addrs)
    (addrs ▸ growable.map.addrs) rfl fun i _ below => ?_⟩
  have small : i / blockSize < maxBlocks := Nat.div_lt_of_lt_mul (by rwa [Nat.mul_comm])
  obtain ⟨valid, leaf, -⟩ := dataPlace_spec small
  by_cases hole : fs.pointer s.image inode (dataPlace (i / blockSize)) = 0
  · unfold CoherentFs.fileByte
    rw [pointers valid, hole]
    rfl
  · rw [CoherentFs.fileByte_present hole, CoherentFs.fileByte_present ((pointers valid).symm ▸ hole),
      pointers valid]
    rw [before] at hole ⊢
    exact congrFun (grown.data growable valid leaf hole) _

end Untouched

end C900
