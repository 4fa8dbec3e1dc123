import C900.Fs.CreateUndo
import C900.Logic.FileTree
import Mathlib.Order.Interval.Finset.Nat

/-!
# The partition as a table of files

What a partition holds for its users: under each number of the inode table a file with its bytes, a
directory with its entries or another inode, with the link count of each. A change of one inode and
of free blocks changes one item of this table.
-/

namespace C900

/-- An inode as an item of a file tree. -/
def CoherentFs.item (fs : CoherentFs) (image : Image) (links : Nat) (inode : Inode) :
    FileTree.Item Nat PosixPath (List (BitVec 8)) :=
  if inode.isFile then .file links (fs.readFile image inode)
  else if inode.isDir then .dir links (fs.readDir image inode)
  else .special links

/-- The numbers of the inode table. -/
def tableNumbers (isize : Nat) : Finset Nat := Finset.Icc 1 ((isize - 2) * inodesPerBlock)

/-- The inode table as a table of files and directories. -/
def CoherentFs.fileTable (fs : CoherentFs) (isize : Nat) (image : Image) :
    FileTree.Table Nat PosixPath (List (BitVec 8)) := fun ino =>
  if ino ∈ tableNumbers isize then
    (fs.openStat image ino).map fun inode => fs.item image inode.nlinks inode.toInode
  else none

/-- A directory that has all its blocks and no part of an entry at its end. -/
structure CoherentFs.Listed (fs : CoherentFs) (image : Image) (inode : Inode) : Prop where
  aligned : direntSize ∣ inode.size
  dense : ∀ idx < blocksOf inode.size, idx < maxBlocks → fs.pointer image inode (dataPlace idx) ≠ 0

/-- No block lies past the end, and a directory has all its blocks. -/
structure CoherentFs.Neat (fs : CoherentFs) (image : Image) (inode : Inode) : Prop where
  trimmed : ∀ {p : BlockPlace}, p.Valid → blocksOf inode.size ≤ p.first →
    fs.pointer image inode p = 0
  listed : inode.isDir = true → fs.Listed image inode

/-- Every file and directory is neat, and a block that is not free belongs to one of them. -/
structure CoherentFs.Tidy (fs : CoherentFs) (isize fsize : Nat) (image : Image) (list : List Nat) :
    Prop where
  neat : ∀ {ino inode}, fs.Owner isize image ino inode → fs.Neat image inode
  whole : ∀ {b}, DataArea isize fsize b → b ∈ list ∨ ∃ ino, fs.Belongs isize image ino b

section Item

variable {fs : CoherentFs} {isize fsize ino other links : Nat} {last last' : Option Nat}
  {image after : Image} {inode : Inode} {list list' : List Nat} {s t : Session}

@[simp] theorem mem_tableNumbers :
    ino ∈ tableNumbers isize ↔ 1 ≤ ino ∧ ino ≤ (isize - 2) * inodesPerBlock := Finset.mem_Icc

theorem Inode.not_isFile_of_isDir (dir : inode.isDir = true) : ¬ inode.isFile = true := by
  unfold Inode.isDir Inode.isFile at *
  rw [beq_iff_eq] at *
  rw [dir]
  decide

theorem CoherentFs.item_file (file : inode.isFile = true) :
    fs.item image links inode = .file links (fs.readFile image inode) := if_pos file

theorem CoherentFs.item_dir (dir : inode.isDir = true) :
    fs.item image links inode = .dir links (fs.readDir image inode) := by
  rw [CoherentFs.item, if_neg (Inode.not_isFile_of_isDir dir), if_pos dir]

theorem CoherentFs.fileTable_open {opened : OpenInode} (real : 1 ≤ ino)
    (table : ino ≤ (isize - 2) * inodesPerBlock) (found : fs.openStat image ino = some opened) :
    fs.fileTable isize image ino = some (fs.item image opened.nlinks opened.toInode) := by
  rw [CoherentFs.fileTable, if_pos (mem_tableNumbers.mpr ⟨real, table⟩), found, Option.map_some]

/-- The item of an inode that has been written. -/
theorem CoherentFs.Owner.fileTable {opened : OpenInode}
    (owner : fs.Owner isize image ino opened.toInode)
    (found : fs.openStat image ino = some opened.masked) :
    fs.fileTable isize image ino =
      some (fs.item image (opened.nlinks % 65536) opened.toInode) := by
  have stat := owner.stat
  rw [← fs.openStat_toInode, found] at stat
  rw [CoherentFs.fileTable_open owner.real owner.last found, Option.some.inj stat]
  rfl

theorem CoherentFs.FreeSlot.fileTable (slot : fs.FreeSlot isize image ino) :
    fs.fileTable isize image ino = none := by
  have unused := slot.unused
  rw [← fs.openStat_toInode, Option.map_eq_none_iff] at unused
  rw [CoherentFs.fileTable, if_pos (mem_tableNumbers.mpr ⟨slot.real, slot.last⟩), unused]
  rfl

/-- The link counts of the table are words. -/
theorem CoherentFs.openStat_nlinks {opened : OpenInode} (found : fs.openStat image ino = some opened) :
    opened.nlinks < 65536 := by
  unfold CoherentFs.openStat at found
  split at found
  · cases found
  · dsimp only at found
    split at found
    · cases found
    · cases found
      exact Buffer.get16_lt _ _

/-- An item depends on the content of its file or directory alone. -/
theorem CoherentFs.item_congr
    (content : inode.isFile = true ∨ inode.isDir = true →
      fs.readFile after inode = fs.readFile image inode) :
    fs.item after links inode = fs.item image links inode := by
  unfold CoherentFs.item CoherentFs.readDir
  split
  · next file => rw [content (Or.inl file)]
  · split
    · next dir => rw [content (Or.inr dir)]
    · rfl

/-! ## One inode is rewritten -/

/-- The other items stay where one inode is rewritten. -/
theorem CoherentFs.Consistent.fileTable_other
    (consistent : fs.Consistent isize fsize last image list)
    (rewrites : fs.Rewrites isize ino list image after) (real : 1 ≤ ino)
    (table : ino ≤ (isize - 2) * inodesPerBlock) (ne : other ≠ ino) :
    fs.fileTable isize after other = fs.fileTable isize image other := by
  unfold CoherentFs.fileTable
  split
  · next member =>
    obtain ⟨real', table'⟩ := mem_tableNumbers.mp member
    rw [rewrites.others other real' table' ne]
    refine Option.map_congr fun opened found => CoherentFs.item_congr fun kind => ?_
    have stat : fs.stat image other = some opened.toInode := by
      rw [← fs.openStat_toInode, found]
      rfl
    exact (consistent.keeps rewrites real table ⟨real', table', stat, kind⟩ ne).2.2
  · rfl

/-- The item of an inode that was revised. -/
theorem CoherentFs.Revised.fileTable {last₀ : Option Nat}
    (revised : fs.Revised isize fsize last s list list' t)
    (consistent : fs.Consistent isize fsize last₀ s.image list)
    (owner : fs.Owner isize s.image s.inode.ino s.inode.toInode) (size : t.inode.size < 2 ^ 32) :
    fs.fileTable isize t.image s.inode.ino =
      some (fs.item t.image (t.inode.nlinks % 65536) t.inode.toInode) := by
  have ino := revised.ino
  have owner' := (revised.consistent consistent owner size).1
  obtain ⟨used, wide⟩ := CoherentFs.stat_mode owner'.stat
  have packed := revised.packed
  rw [← ino] at packed
  have found : fs.openStat t.image t.inode.ino = _ :=
    CoherentFs.openStat_packed (ino.symm ▸ owner.real) packed (by rwa [Nat.mod_eq_of_lt wide])
  rw [ino] at found
  exact owner'.fileTable found

/-! ## Neat inodes -/

theorem CoherentFs.Neat.congr (neat : fs.Neat image inode)
    (pointers : ∀ {p : BlockPlace}, p.Valid → fs.pointer after inode p = fs.pointer image inode p) :
    fs.Neat after inode := by
  refine ⟨fun valid high => (pointers valid).trans (neat.trimmed valid high), fun dir => ?_⟩
  have listed := neat.listed dir
  refine ⟨listed.aligned, fun idx small below => ?_⟩
  rw [pointers (dataPlace_spec below).1]
  exact listed.dense idx small below

/-- A partition stays tidy where one inode stays neat, with its old blocks its own or free. -/
theorem CoherentFs.Tidy.rewrites (tidy : fs.Tidy isize fsize image list)
    (consistent : fs.Consistent isize fsize last image list)
    (rewrites : fs.Rewrites isize ino list image after) (real : 1 ≤ ino)
    (table : ino ≤ (isize - 2) * inodesPerBlock)
    (neat : ∀ {inode}, fs.Owner isize after ino inode → fs.Neat after inode)
    (covers : ∀ {x}, x ∈ list ∨ fs.Belongs isize image ino x →
      x ∈ list' ∨ fs.Belongs isize after ino x) :
    fs.Tidy isize fsize after list' := by
  refine ⟨fun {other inode} owner => ?_, fun {b} inArea => ?_⟩
  · by_cases same : other = ino
    · exact neat (same ▸ owner)
    · have before := rewrites.owner_back owner same
      obtain ⟨-, pointers, -⟩ := consistent.keeps rewrites real table before same
      exact (tidy.neat before).congr pointers
  · have mine : b ∈ list ∨ fs.Belongs isize image ino b →
        b ∈ list' ∨ ∃ ino, fs.Belongs isize after ino b :=
      fun either => (covers either).imp_right fun own => ⟨ino, own⟩
    rcases tidy.whole inArea with free | ⟨other, belongs⟩
    · exact mine (Or.inl free)
    · by_cases same : other = ino
      · exact mine (Or.inr (same ▸ belongs))
      · obtain ⟨inode, owner, nonzero, p, valid, here⟩ := belongs
        obtain ⟨owner', pointers, -⟩ := consistent.keeps rewrites real table owner same
        exact Or.inr ⟨other, inode, owner', nonzero, p, valid, (pointers valid).trans here⟩

/-- A partition stays tidy where an inode is revised neatly. -/
theorem CoherentFs.Revised.tidy {last₀ : Option Nat}
    (revised : fs.Revised isize fsize last s list list' t)
    (consistent : fs.Consistent isize fsize last₀ s.image list)
    (owner : fs.Owner isize s.image s.inode.ino s.inode.toInode) (size : t.inode.size < 2 ^ 32)
    (tidy : fs.Tidy isize fsize s.image list) (neat : fs.Neat t.image t.inode.toInode) :
    fs.Tidy isize fsize t.image list' := by
  obtain ⟨owner', rewrites, -⟩ := revised.consistent consistent owner size
  refine tidy.rewrites consistent rewrites owner.real owner.last (fun other => ?_) fun {x} either => ?_
  · rw [Option.some.inj (other.stat.symm.trans owner'.stat)]
    exact neat
  · by_cases maps : fs.Maps t.image t.inode.toInode x
    · exact Or.inr ⟨_, owner', maps⟩
    · refine Or.inl ((revised.free x).mpr ⟨either.imp_right ?_, maps⟩)
      rintro ⟨inode, other, maps⟩
      rw [Option.some.inj (other.stat.symm.trans owner.stat)] at maps
      exact maps

/-- A partition stays tidy where a neat inode is put into a free slot. -/
theorem CoherentFs.Begun.tidy (begun : fs.Begun isize fsize last s list t list')
    (consistent : fs.Consistent isize fsize last s.image list)
    (tidy : fs.Tidy isize fsize s.image list) (neat : fs.Neat t.image t.inode.toInode) :
    fs.Tidy isize fsize t.image list' := by
  have slot := begun.slot
  refine tidy.rewrites consistent begun.rewrites slot.real slot.last (fun other => ?_) fun {x} either => ?_
  · rw [Option.some.inj (other.stat.symm.trans begun.child.owner.stat)]
    exact neat
  · refine ((begun.free x).mp (either.resolve_right ?_)).imp_right fun maps =>
      ⟨_, begun.child.owner, maps⟩
    rintro ⟨inode, owner, -⟩
    exact slot.ne_owner owner rfl

end Item

end C900
