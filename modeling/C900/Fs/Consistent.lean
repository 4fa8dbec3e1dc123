import C900.Fs.Contents

/-!
# Consistent partitions

On a consistent partition no block serves twice: every file and directory has a block map of its
own in the data area, and no block of a map is on the free list. A map is the whole of it, also
what lies behind the size of the inode. What is done to one inode and to
free blocks keeps this, and it changes no other file.
-/

namespace C900

open PointerTree

/-- Inode `ino` of the table is a file or a directory. -/
structure CoherentFs.Owner (fs : CoherentFs) (isize : Nat) (image : Image) (ino : Nat)
    (inode : Inode) : Prop where
  real : 1 ≤ ino
  last : ino ≤ (isize - 2) * inodesPerBlock
  stat : fs.stat image ino = some inode
  kind : inode.isFile = true ∨ inode.isDir = true

/-- Block `x` is in the block map. -/
def CoherentFs.Maps (fs : CoherentFs) (image : Image) (inode : Inode) (x : Nat) : Prop :=
  x ≠ 0 ∧ ∃ p : BlockPlace, p.Valid ∧ fs.pointer image inode p = x

/-- Block `x` belongs to the file or directory `ino`. -/
def CoherentFs.Belongs (fs : CoherentFs) (isize : Nat) (image : Image) (ino x : Nat) : Prop :=
  ∃ inode, fs.Owner isize image ino inode ∧ fs.Maps image inode x

/-- A partition without a block that serves twice. A pointer behind the size of its inode counts
like any other, though `check_blocks` does not look at it (`consistent_iff_clean`). -/
structure CoherentFs.Consistent (fs : CoherentFs) (isize fsize : Nat) (last : Option Nat)
    (image : Image) (list : List Nat) : Prop where
  stock : fs.Stock isize fsize last image list
  narrow : fsize ≤ 2 ^ 24
  table : ∀ b < isize, image.hasBlock (fs.partOff + b) = true
  map : ∀ {ino inode}, fs.Owner isize image ino inode → fs.OwnMap (DataArea isize fsize) image inode
  apart : ∀ {ino x}, fs.Belongs isize image ino x → x ∉ list
  distinct : ∀ {ino other x}, fs.Belongs isize image ino x → fs.Belongs isize image other x →
    ino = other

/-- What `check_blocks` and a look at the free list tell: nothing is cross-linked or out of range,
the list is in order, and no block of it is visited by the walk over a file or directory. -/
structure CoherentFs.Clean (fs : CoherentFs) (isize fsize : Nat) (last : Option Nat)
    (image : Image) (list : List Nat) : Prop where
  stock : fs.Stock isize fsize last image list
  checked : ∃ rep, fs.checkBlocks image = .ok rep ∧ rep.crossLinked = [] ∧ rep.outOfRange = []
  unlisted : ∀ owner ∈ fs.blockOwners image isize, ∀ visit ∈ fs.walkInodeBlocks image owner.2,
    visit.1 ∉ list

/-- Only inode `ino`, its blocks and free blocks have changed. -/
structure CoherentFs.Rewrites (fs : CoherentFs) (isize ino : Nat) (list : List Nat)
    (image after : Image) : Prop where
  frame : Image.AgreeExcept (fun bno => bno = fs.partOff + 1 ∨ bno = fs.inodeBlock ino ∨
    ∃ x, bno = fs.partOff + x ∧ (x ∈ list ∨ fs.Belongs isize image ino x)) image after
  others : ∀ other, 1 ≤ other → other ≤ (isize - 2) * inodesPerBlock → other ≠ ino →
    fs.openStat after other = fs.openStat image other

section Consistent

variable {fs : CoherentFs} {isize fsize ino other x : Nat} {last last' : Option Nat}
  {image after : Image} {inode : Inode} {list list' : List Nat} {s t : Session}

theorem CoherentFs.Maps.of_pointer {p : BlockPlace} (valid : p.Valid)
    (found : fs.pointer image inode p ≠ 0) : fs.Maps image inode (fs.pointer image inode p) :=
  ⟨found, p, valid, rfl⟩

theorem CoherentFs.OwnMap.inArea {area : Nat → Prop} (map : fs.OwnMap area image inode)
    (maps : fs.Maps image inode x) : area x := by
  obtain ⟨nonzero, p, valid, rfl⟩ := maps
  exact map.area valid nonzero

/-- The blocks of an inode that has direct blocks only. -/
theorem CoherentFs.pointer_direct
    (flat : ∀ root < rootCount, nDirect ≤ root → inode.addrs.getD root 0 = 0) {p : BlockPlace}
    (valid : p.Valid) (found : fs.pointer image inode p ≠ 0) :
    p.root < nDirect ∧ p.path = [] ∧ fs.pointer image inode p = inode.addrs.getD p.root 0 := by
  have direct : p.root < nDirect := by
    by_contra tree
    refine found ?_
    unfold CoherentFs.pointer
    rw [flat p.root valid.1 (Nat.not_lt.mp tree)]
    exact follow_zero p.path
  have none : p.path = [] := by
    have height : rootHeight p.root = 0 := Nat.sub_eq_zero_of_le direct
    have short := valid.2.1
    rw [height] at short
    exact List.eq_nil_of_length_eq_zero (Nat.le_zero.mp short)
  refine ⟨direct, none, ?_⟩
  unfold CoherentFs.pointer
  rw [none, follow_nil]

/-- Distinct direct blocks are a block map. -/
theorem CoherentFs.ownMap_direct {area : Nat → Prop} (addrs : inode.addrs.length = rootCount)
    (flat : ∀ root < rootCount, nDirect ≤ root → inode.addrs.getD root 0 = 0)
    (inArea : ∀ root < nDirect, inode.addrs.getD root 0 ≠ 0 → area (inode.addrs.getD root 0))
    (distinct : ∀ root < nDirect, ∀ root' < nDirect, inode.addrs.getD root 0 ≠ 0 →
      inode.addrs.getD root 0 = inode.addrs.getD root' 0 → root = root') :
    fs.OwnMap area image inode := by
  refine ⟨addrs, fun valid found => ?_, fun {p q} valid valid' found eq => ?_⟩
  · obtain ⟨direct, -, here⟩ := CoherentFs.pointer_direct flat valid found
    rw [here] at found ⊢
    exact inArea _ direct found
  · obtain ⟨direct, path, here⟩ := CoherentFs.pointer_direct flat valid found
    obtain ⟨direct', path', here'⟩ := CoherentFs.pointer_direct flat valid' (eq ▸ found)
    rw [here] at found eq
    rw [here'] at eq
    have roots := distinct _ direct _ direct' found eq
    obtain ⟨root, rest⟩ := p
    obtain ⟨root', rest'⟩ := q
    dsimp only at roots path path'
    rw [roots, path, path']

/-- A partition of files with direct blocks only. -/
theorem CoherentFs.consistent_direct (stock : fs.Stock isize fsize last image list)
    (narrow : fsize ≤ 2 ^ 24) (table : ∀ b < isize, image.hasBlock (fs.partOff + b) = true)
    (flat : ∀ {ino inode}, fs.Owner isize image ino inode →
      ∀ root < rootCount, nDirect ≤ root → inode.addrs.getD root 0 = 0)
    (used : ∀ {ino inode}, fs.Owner isize image ino inode →
      ∀ root < nDirect, inode.addrs.getD root 0 ≠ 0 →
        DataArea isize fsize (inode.addrs.getD root 0) ∧ inode.addrs.getD root 0 ∉ list)
    (once : ∀ {ino inode other inode'}, fs.Owner isize image ino inode →
      fs.Owner isize image other inode' → ∀ root < nDirect, ∀ root' < nDirect,
        inode.addrs.getD root 0 ≠ 0 → inode.addrs.getD root 0 = inode'.addrs.getD root' 0 →
          ino = other ∧ root = root') :
    fs.Consistent isize fsize last image list := by
  have direct : ∀ {ino x}, fs.Belongs isize image ino x → ∃ inode, fs.Owner isize image ino inode ∧
      ∃ root < nDirect, inode.addrs.getD root 0 = x ∧ x ≠ 0 := by
    rintro ino x ⟨inode, owner, nonzero, p, valid, rfl⟩
    obtain ⟨small, -, here⟩ := CoherentFs.pointer_direct (flat owner) valid nonzero
    exact ⟨inode, owner, p.root, small, here.symm, nonzero⟩
  refine ⟨stock, narrow, table, fun owner => ?_, fun belongs => ?_, fun belongs belongs' => ?_⟩
  · refine CoherentFs.ownMap_direct (CoherentFs.stat_addrs owner.stat) (flat owner)
      (fun root small found => (used owner root small found).1) ?_
    exact fun root small root' small' found same =>
      (once owner owner root small root' small' found same).2
  · obtain ⟨inode, owner, root, small, rfl, found⟩ := direct belongs
    exact (used owner root small found).2
  · obtain ⟨inode, owner, root, small, rfl, found⟩ := direct belongs
    obtain ⟨inode', owner', root', small', same, -⟩ := direct belongs'
    exact (once owner owner' root small root' small' found same.symm).1

/-- The blocks of one inode lie apart from the free blocks. -/
theorem CoherentFs.Consistent.growable (consistent : fs.Consistent isize fsize last s.image list)
    (owner : fs.Owner isize s.image ino s.inode.toInode) : fs.Growable isize fsize last s list :=
  ⟨consistent.map owner, consistent.stock, fun valid found =>
    consistent.apart ⟨_, owner, .of_pointer valid found⟩⟩

/-- The inode table lies in the image. -/
theorem CoherentFs.Consistent.inside (consistent : fs.Consistent isize fsize last image list)
    (real : 1 ≤ ino) (table : ino ≤ (isize - 2) * inodesPerBlock) :
    image.hasBlock (fs.inodeBlock ino) = true := by
  have low := fs.inodeBlock_lt real table
  have block := consistent.table (fs.inodeBlock ino - fs.partOff) (by omega)
  rwa [Nat.add_sub_cancel' (by omega)] at block

/-- The other inodes stay as the readers see them. -/
theorem CoherentFs.Rewrites.stat (rewrites : fs.Rewrites isize ino list image after)
    (real : 1 ≤ other) (table : other ≤ (isize - 2) * inodesPerBlock) (ne : other ≠ ino) :
    fs.stat after other = fs.stat image other := by
  rw [← fs.openStat_toInode, ← fs.openStat_toInode, rewrites.others other real table ne]

/-- A block of another file stays. -/
theorem CoherentFs.Consistent.block (consistent : fs.Consistent isize fsize last image list)
    (rewrites : fs.Rewrites isize ino list image after) (real : 1 ≤ ino)
    (table : ino ≤ (isize - 2) * inodesPerBlock) (owner : fs.Owner isize image other inode)
    (ne : other ≠ ino) (maps : fs.Maps image inode x) :
    after.readBlock (fs.partOff + x) = image.readBlock (fs.partOff + x) := by
  refine rewrites.frame.block _ ?_
  have low := (consistent.map owner).inArea maps
  have data := consistent.stock.data
  have first := low.1
  have inode := fs.inodeBlock_lt real table
  rintro (sb | own | ⟨y, same, free | mine⟩)
  · omega
  · omega
  · exact consistent.apart ⟨_, owner, maps⟩ (Nat.add_left_cancel same ▸ free)
  · rw [← Nat.add_left_cancel same] at mine
    exact ne (consistent.distinct ⟨_, owner, maps⟩ mine)

/-- Another file stays as it is. -/
theorem CoherentFs.Consistent.keeps (consistent : fs.Consistent isize fsize last image list)
    (rewrites : fs.Rewrites isize ino list image after) (real : 1 ≤ ino)
    (table : ino ≤ (isize - 2) * inodesPerBlock) (owner : fs.Owner isize image other inode)
    (ne : other ≠ ino) :
    fs.Owner isize after other inode ∧
      (∀ {p : BlockPlace}, p.Valid → fs.pointer after inode p = fs.pointer image inode p) ∧
      fs.readFile after inode = fs.readFile image inode :=
  ⟨⟨owner.real, owner.last, (rewrites.stat owner.real owner.last ne).trans owner.stat, owner.kind⟩,
    CoherentFs.readFile_untouched (CoherentFs.stat_addrs owner.stat) fun valid found =>
      consistent.block rewrites real table owner ne (.of_pointer valid found)⟩

/-- The files afterwards are the files from before, but for one inode. -/
theorem CoherentFs.Rewrites.owner_back (rewrites : fs.Rewrites isize ino list image after)
    (owner : fs.Owner isize after other inode) (ne : other ≠ ino) :
    fs.Owner isize image other inode :=
  ⟨owner.real, owner.last, (rewrites.stat owner.real owner.last ne).symm.trans owner.stat, owner.kind⟩

theorem CoherentFs.Consistent.belongs_back (consistent : fs.Consistent isize fsize last image list)
    (rewrites : fs.Rewrites isize ino list image after) (real : 1 ≤ ino)
    (table : ino ≤ (isize - 2) * inodesPerBlock) (belongs : fs.Belongs isize after other x)
    (ne : other ≠ ino) : fs.Belongs isize image other x := by
  obtain ⟨inode, owner, nonzero, p, valid, here⟩ := belongs
  have before := rewrites.owner_back owner ne
  obtain ⟨-, same, -⟩ := consistent.keeps rewrites real table before ne
  exact ⟨inode, before, nonzero, p, valid, (same valid).symm.trans here⟩

/-- The partition stays consistent where one inode has taken free blocks and has given up blocks
of its own. -/
theorem CoherentFs.Consistent.update (consistent : fs.Consistent isize fsize last image list)
    (rewrites : fs.Rewrites isize ino list image after) (real : 1 ≤ ino)
    (table : ino ≤ (isize - 2) * inodesPerBlock) (stock : fs.Stock isize fsize last' after list')
    (map : ∀ {inode}, fs.Owner isize after ino inode →
      fs.OwnMap (DataArea isize fsize) after inode)
    (mine : ∀ {x}, fs.Belongs isize after ino x →
      x ∉ list' ∧ (x ∈ list ∨ fs.Belongs isize image ino x))
    (free : ∀ {x}, x ∈ list' → x ∈ list ∨ fs.Belongs isize image ino x) :
    fs.Consistent isize fsize last' after list' := by
  have back : ∀ {other x}, fs.Belongs isize after other x → other ≠ ino →
      fs.Belongs isize image other x :=
    fun belongs ne => consistent.belongs_back rewrites real table belongs ne
  -- A block of another file is neither free nor one of this file.
  have foreign : ∀ {other x}, fs.Belongs isize after other x → other ≠ ino →
      ¬ (x ∈ list ∨ fs.Belongs isize image ino x) := by
    intro other x belongs ne either
    have before := back belongs ne
    exact either.elim (consistent.apart before) fun own => ne (consistent.distinct before own)
  refine ⟨stock, consistent.narrow, fun b low => ?_, fun {other inode} owner => ?_,
    fun {other x} belongs => ?_, fun {other third x} belongs belongs' => ?_⟩
  · rw [rewrites.frame.hasBlock]
    exact consistent.table b low
  · by_cases same : other = ino
    · exact map (same ▸ owner)
    · have before := rewrites.owner_back owner same
      obtain ⟨-, pointers, -⟩ := consistent.keeps rewrites real table before same
      have old := consistent.map before
      refine ⟨old.addrs, fun valid found => ?_, fun valid valid' found eq => ?_⟩
      · rw [pointers valid] at found ⊢
        exact old.area valid found
      · rw [pointers valid] at found eq
        rw [pointers valid'] at eq
        exact old.distinct valid valid' found eq
  · by_cases same : other = ino
    · exact (mine (same ▸ belongs)).1
    · exact fun member => foreign belongs same (free member)
  · by_cases same : other = ino
    · by_cases same' : third = ino
      · rw [same, same']
      · exact absurd (mine (same ▸ belongs)).2 (foreign belongs' same')
    · by_cases same' : third = ino
      · exact absurd (mine (same' ▸ belongs')).2 (foreign belongs same)
      · exact consistent.distinct (back belongs same) (back belongs' same')

end Consistent

end C900
