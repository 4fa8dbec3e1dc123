import C900.Fs.InodeCache
import C900.Fs.Overwrite

/-!
# Half-done changes

What stays consistent when the change to an inode is not carried through: a growth whose inode is
not written leaves its blocks out of the free list, and an inode whose slot is cleared gives its
blocks up. The other way round, a free slot is filled with an inode on free blocks.
-/

namespace C900

open PointerTree

section Abandoned

variable {fs : CoherentFs} {isize fsize ino n x : Nat} {last last' : Option Nat}
  {image after : Image} {list list' taken rest : List Nat} {s t : Session} {inode : Inode}

/-- The inode from before with the pointer blocks of a growth: a place is a hole, or it has the
block of the grown map. -/
theorem CoherentFs.Grown.onDisk (grown : fs.Grown isize fsize last n s list taken rest t)
    {p : BlockPlace} (valid : p.Valid) :
    fs.pointer t.image s.inode.toInode p = 0 ∨
      fs.pointer t.image s.inode.toInode p = fs.pointer t.image t.inode.toInode p := by
  refine BlockPlace.Valid.induct (P := fun p => fs.pointer t.image s.inode.toInode p = 0 ∨
    fs.pointer t.image s.inode.toInode p = fs.pointer t.image t.inode.toInode p)
    (fun root inside => ?_) (fun q j _ _ _ found => ?_) valid
  · by_cases hole : fs.pointer s.image s.inode.toInode ⟨root, []⟩ = 0
    · exact Or.inl hole
    · exact Or.inr (grown.old ⟨inside, IsPath.nil _⟩ hole).symm
  · rw [fs.pointer_slot, fs.pointer_slot]
    rcases found with hole | same
    · exact Or.inl (if_pos hole)
    · exact Or.inr (by rw [same])

/-- The inode table stays where only the superblock and data blocks are written. -/
theorem CoherentFs.openStat_data
    (frame : Image.AgreeExcept (fun bno => bno = fs.partOff + 1 ∨
      ∃ x, bno = fs.partOff + x ∧ isize ≤ x) image after) {other : Nat} (real : 1 ≤ other)
    (table : other ≤ (isize - 2) * inodesPerBlock) :
    fs.openStat after other = fs.openStat image other := by
  have low := fs.inodeBlock_lt real table
  refine CoherentFs.openStat_congr real fun i _ _ => congrFun (frame.block _ ?_) i
  rintro (sb | ⟨x, here, high⟩)
  · omega
  · omega

/-- A growth whose inode is not written: the partition stays consistent without the blocks that
were taken. -/
theorem CoherentFs.Grown.abandoned (grown : fs.Grown isize fsize last n s list taken rest t)
    (consistent : fs.Consistent isize fsize last s.image list)
    (owner : fs.Owner isize s.image ino inode) (addrs : s.inode.addrs = inode.addrs) :
    fs.Rewrites isize ino list s.image t.image ∧
      (∀ other, 1 ≤ other → other ≤ (isize - 2) * inodesPerBlock →
        fs.openStat t.image other = fs.openStat s.image other) ∧
      fs.Consistent isize fsize last t.image rest := by
  have same : ∀ (image : Image) (p : BlockPlace),
      fs.pointer image inode p = fs.pointer image s.inode.toInode p := by
    intro image p
    unfold CoherentFs.pointer
    rw [addrs]
  have maps : ∀ {x}, fs.Maps s.image s.inode.toInode x ↔ fs.Belongs isize s.image ino x := by
    intro x
    refine ⟨fun ⟨nonzero, p, valid, here⟩ => ⟨inode, owner, nonzero, p, valid, ?_⟩, ?_⟩
    · rw [same]
      exact here
    · rintro ⟨inode', owner', nonzero, p, valid, here⟩
      obtain rfl : inode' = inode := Option.some.inj (owner'.stat.symm.trans owner.stat)
      rw [same] at here
      exact ⟨nonzero, p, valid, here⟩
  have area : ∀ {x}, x ∈ list ∨ fs.Belongs isize s.image ino x → isize ≤ x := by
    rintro x (free | ⟨inode', owner', own⟩)
    · exact (consistent.stock.inArea x free).1
    · exact ((consistent.map owner').inArea own).1
  have frame : Image.AgreeExcept (fun bno => bno = fs.partOff + 1 ∨
      ∃ x, bno = fs.partOff + x ∧ (x ∈ list ∨ fs.Belongs isize s.image ino x))
      s.image t.image := by
    refine grown.frame.mono fun _ => Or.imp_right ?_
    rintro ⟨x, here, new | ⟨p, valid, -, nonzero, found⟩⟩
    · exact ⟨x, here, Or.inl (grown.split ▸ List.mem_append_left _ new)⟩
    · exact ⟨x, here, Or.inr (maps.mp ⟨nonzero, p, valid, found⟩)⟩
  have slots : ∀ other, 1 ≤ other → other ≤ (isize - 2) * inodesPerBlock →
      fs.openStat t.image other = fs.openStat s.image other := by
    intro other real table
    refine CoherentFs.openStat_data (frame.mono fun _ => Or.imp_right ?_) real table
    exact fun ⟨x, here, either⟩ => ⟨x, here, area either⟩
  have rewrites : fs.Rewrites isize ino list s.image t.image :=
    ⟨frame.mono fun _ => Or.imp_right Or.inr, fun other real table _ => slots other real table⟩
  have only : ∀ {inode'}, fs.Owner isize t.image ino inode' → inode' = inode := by
    intro inode' owner'
    have stat := owner'.stat
    rw [← fs.openStat_toInode, slots ino owner.real owner.last, fs.openStat_toInode] at stat
    exact Option.some.inj (stat.symm.trans owner.stat)
  have placed : ∀ {p : BlockPlace}, p.Valid → fs.pointer t.image inode p ≠ 0 →
      fs.pointer t.image inode p = fs.pointer t.image t.inode.toInode p := by
    intro p valid found
    rw [same] at found ⊢
    exact (grown.onDisk valid).resolve_left found
  refine ⟨rewrites, slots, consistent.update rewrites owner.real owner.last grown.growable.stock
    (fun {inode'} owner' => ?_) (fun {x} belongs => ?_) fun member =>
      Or.inl (grown.split ▸ List.mem_append_right _ member)⟩
  · rw [only owner']
    refine ⟨(consistent.map owner).addrs, fun valid found => ?_, fun valid valid' found eq => ?_⟩
    · have here := placed valid found
      rw [here] at found ⊢
      exact grown.growable.map.area valid found
    · have here := placed valid found
      have here' := placed valid' (eq ▸ found)
      rw [here] at found eq
      rw [here'] at eq
      exact grown.growable.map.distinct valid valid' found eq
  · obtain ⟨inode', owner', nonzero, p, valid, found⟩ := belongs
    rw [only owner'] at found
    have here := (placed valid (found ▸ nonzero)).symm.trans found
    refine ⟨fun member => grown.growable.apart valid (here ▸ nonzero) (here ▸ member), ?_⟩
    by_cases hole : fs.pointer s.image s.inode.toInode p = 0
    · have new := (grown.new valid hole (here ▸ nonzero)).2
      rw [here] at new
      exact Or.inl (grown.split ▸ List.mem_append_left _ new)
    · have old := grown.old valid hole
      exact Or.inr (maps.mp ⟨nonzero, p, valid, old.symm.trans here⟩)

/-- An inode whose slot was cleared gives up its blocks. -/
theorem CoherentFs.Consistent.dismiss (consistent : fs.Consistent isize fsize last image list)
    (rewrites : fs.Rewrites isize ino list image after) (real : 1 ≤ ino)
    (table : ino ≤ (isize - 2) * inodesPerBlock) (unused : fs.stat after ino = none)
    (stock : fs.Stock isize fsize last' after list')
    (free : ∀ {x}, x ∈ list' → x ∈ list ∨ fs.Belongs isize image ino x) :
    fs.Consistent isize fsize last' after list' := by
  have nobody : ∀ {inode}, ¬ fs.Owner isize after ino inode := by
    intro inode owner
    have stat := owner.stat
    rw [unused] at stat
    cases stat
  exact consistent.update rewrites real table stock (fun owner => absurd owner nobody)
    (fun ⟨_, owner, _⟩ => absurd owner nobody) free

/-- An inode on free blocks is written into a free slot. -/
theorem CoherentFs.Consistent.adopt (consistent : fs.Consistent isize fsize last image list)
    {inode : OpenInode} (slot : fs.FreeSlot isize image inode.ino)
    (frame : Image.AgreeExcept (fun bno => bno = fs.partOff + 1 ∨ bno = fs.inodeBlock inode.ino ∨
      ∃ x, bno = fs.partOff + x ∧ x ∈ list) image after)
    (packed : ∀ i < blockSize, after.readBlock (fs.inodeBlock inode.ino) i =
      packInode (image.readBlock (fs.inodeBlock inode.ino)) (inodeOffset inode.ino) inode i)
    (stock : fs.Stock isize fsize last' after rest) (sub : ∀ x ∈ rest, x ∈ list)
    (mode : inode.mode < 65536) (kind : inode.isFile = true ∨ inode.isDir = true)
    (size : inode.size < 2 ^ 32)
    (map : fs.OwnMap (fun x => x ∈ list ∧ x ∉ rest) after inode.toInode) :
    fs.Owner isize after inode.ino inode.toInode ∧
      fs.Rewrites isize inode.ino list image after ∧
      fs.Consistent isize fsize last' after rest := by
  have real := slot.real
  have table := slot.last
  have used : inode.mode ≠ 0 := by
    unfold Inode.isFile Inode.isDir at kind
    rintro zero
    rw [zero] at kind
    exact absurd kind (by decide)
  have owned : fs.OwnMap (DataArea isize fsize) after inode.toInode :=
    ⟨map.addrs, fun valid found => consistent.stock.inArea _ (map.area valid found).1, map.distinct⟩
  have stat : fs.stat after inode.ino = some inode.toInode :=
    CoherentFs.stat_packed rfl real packed mode used size map.addrs (owned.narrow consistent.narrow)
  have owner : fs.Owner isize after inode.ino inode.toInode := ⟨real, table, stat, kind⟩
  have rewrites : fs.Rewrites isize inode.ino list image after := by
    refine ⟨frame.mono fun _ => Or.imp_right (Or.imp_right fun ⟨x, here, free⟩ =>
      ⟨x, here, Or.inl free⟩), fun other real' table' ne => ?_⟩
    refine CoherentFs.openStat_other real ne packed fun apart => frame.block _ ?_
    have low := fs.inodeBlock_lt real' table'
    rintro (sb | own | ⟨x, here, free⟩)
    · omega
    · exact apart own
    · have high := (consistent.stock.inArea x free).1
      omega
  have only : ∀ {inode'}, fs.Owner isize after inode.ino inode' → inode' = inode.toInode :=
    fun other => Option.some.inj (other.stat.symm.trans stat)
  refine ⟨owner, rewrites, consistent.update rewrites real table stock
    (fun other => only other ▸ owned) ?_ fun member => Or.inl (sub _ member)⟩
  rintro x ⟨inode', other, nonzero, p, valid, here⟩
  rw [only other] at here
  have inside := map.area valid (here ▸ nonzero)
  rw [here] at inside
  exact ⟨inside.2, Or.inl inside.1⟩

/-- The inode of a file is written again, with the same blocks. -/
theorem CoherentFs.Consistent.writeInode (consistent : fs.Consistent isize fsize last s.image list)
    (owner : fs.Owner isize s.image s.inode.ino s.inode.toInode) (inode : OpenInode)
    (ino : inode.ino = s.inode.ino) (mode : inode.mode = s.inode.mode)
    (addrs : inode.addrs = s.inode.addrs) :
    Ends fs.writeInode { s with inode := inode }
      (fun _ t => t.inode = inode ∧ t.calls = s.calls ∧
        Image.AgreeExcept (· = fs.inodeBlock s.inode.ino) s.image t.image ∧
        fs.Revised isize fsize last s list list t) noRaise := by
  have growable := consistent.growable owner
  have inside := consistent.inside owner.real owner.last
  refine (fs.writeInode_ends (s := { s with inode := inode }) (ino ▸ inside)).mono ?_ fun _ _ => id
  rintro - t ⟨after, rfl, packed⟩
  have only : Image.AgreeExcept (· = fs.inodeBlock s.inode.ino) s.image after := by
    dsimp only at packed ⊢
    rw [packed, ← ino]
    exact s.image.setBlock_agreeExcept _ _
  have wrote : fs.Wrote s { s with inode := inode, image := after } := by
    refine ⟨ino, mode, addrs, fun i small => ?_, only.mono fun _ => Or.inl⟩
    rw [← ino]
    rw [← ino] at inside
    dsimp only at packed ⊢
    rw [packed, Image.readBlock_setBlock_same _ inside small]
  exact ⟨rfl, rfl, only, CoherentFs.CutBack.revised (n := 0) growable (.refl growable) (.start growable)
    wrote rfl owner.real owner.last⟩

end Abandoned

end C900
