import C900.Fs.Audit
import C900.Logic.FileNames

/-!
# Runs of successful calls

Each `create_file`, `create_dir` and `write_file` that returns is one step of a file tree. So the
partition stays a tree of directories with the right link counts, its blocks stay apart, and the free
list stays the complement of the blocks in use.
-/

namespace C900

/-- A tidy partition whose table of files is a tree below `root`. -/
structure CoherentFs.Orderly (fs : CoherentFs) (isize fsize root : Nat) (last : Option Nat)
    (image : Image) (list : List Nat) : Prop where
  sound : fs.Sound isize fsize last image list
  tidy : fs.Tidy isize fsize image list
  tree : (fs.fileTable isize image).WellFormed (tableNumbers isize) root

section Entries

variable {fs : CoherentFs} {isize fsize : Nat} {last last' : Option Nat} {s t : Session}
  {list list' : List Nat} {name : PosixPath} {parent inode : OpenInode} {data : List (BitVec 8)}

/-- A block behind the boot block of a partition with `fsize` blocks. -/
def CoherentFs.Within (fs : CoherentFs) (fsize bno : Nat) : Prop :=
  fs.partOff < bno ∧ bno < fs.partOff + fsize

/-- What happens to one inode happens in its partition. -/
theorem CoherentFs.Consistent.within {image after : Image} {ino : Nat}
    (consistent : fs.Consistent isize fsize last image list)
    (rewrites : fs.Rewrites isize ino list image after) (real : 1 ≤ ino)
    (table : ino ≤ (isize - 2) * inodesPerBlock) (whole : isize ≤ fsize) :
    Image.AgreeExcept (fs.Within fsize) image after := by
  have low := fs.inodeBlock_lt real table
  have data := consistent.stock.data
  refine rewrites.frame.mono fun bno => ?_
  rintro (sb | inode | ⟨x, rfl, either⟩)
  · exact ⟨by omega, by omega⟩
  · exact ⟨by omega, by omega⟩
  · have inArea : DataArea isize fsize x := either.elim (consistent.stock.inArea x)
      fun ⟨_, owner, maps⟩ => (consistent.map owner).inArea maps
    have first := inArea.1
    have last := inArea.2
    exact ⟨by omega, by omega⟩

/-- The parent has one more entry, and it is still neat. -/
theorem CoherentFs.EntryMade.inserted
    (made : fs.EntryMade isize fsize last name parent s list inode t list')
    (owner : fs.Owner isize s.image parent.ino parent.toInode) (dir : parent.isDir = true)
    (neat : fs.Neat s.image parent.toInode) (used : s.inode.ino ≠ 0) :
    (∃ front back, fs.readDir s.image parent.toInode = front ++ back ∧
      fs.readDir t.image inode.toInode = front ++ (s.inode.ino, name) :: back ∧
      name ∉ (front ++ back).map Prod.snd) ∧
    inode.isDir = true ∧ inode.nlinks = parent.nlinks ∧ fs.Neat t.image inode.toInode := by
  obtain ⟨entry, encoded, whole, entered⟩ := made.entered
  obtain ⟨reuse, scanned⟩ := made.ready.scanned
  have listed := neat.listed dir
  have addrs : parent.addrs.length = rootCount := CoherentFs.stat_addrs owner.stat
  obtain ⟨length, content⟩ := entered.readFile (s := { s with inode := parent }) addrs listed.aligned
    listed.dense whole
  dsimp only at length content
  have around := dirEntries_around length listed.aligned
  have dir' : inode.isDir = true := by
    have mode := entered.revised.mode
    change inode.mode = parent.mode at mode
    unfold Inode.isDir at dir ⊢
    rwa [mode]
  have before : fs.readDir s.image parent.toInode = dirEntries _ := CoherentFs.readDir_eq dir
  have behind : fs.readDir t.image inode.toInode = dirEntries _ := CoherentFs.readDir_eq dir'
  have fresh := (scanDir_ok scanned).2
  change ∀ entry ∈ dirEntries (fs.readFile s.image parent.toInode), _ at fresh
  rw [content, dirEntries_slot around.1 whole, readDirent_encoded made.valid used encoded] at behind
  rw [around.2] at before fresh
  refine ⟨⟨_, _, before, behind, fun member => ?_⟩, dir', entered.links, fun valid high => ?_,
    fun _ => ⟨?_, ?_⟩⟩
  · obtain ⟨old, present, same⟩ := List.mem_map.mp member
    exact fresh old present same
  · have size : inode.size = grownSize _ _ := entered.size
    rw [size] at high
    refine entered.ends valid high (neat.trimmed valid (Nat.le_trans ?_ high))
    have larger : parent.size ≤ grownSize (fs.readFile s.image parent.toInode) parent.size := by
      unfold grownSize
      split <;> omega
    exact Nat.div_le_div_right (Nat.sub_le_sub_right (Nat.add_le_add_right larger _) _)
  · obtain ⟨-, -, ⟨same, -⟩ | ⟨-, same⟩⟩ :=
      entryOffset_spec (Nat.le_of_eq length) listed.aligned
    · have size : inode.size = grownSize _ _ := entered.size
      rw [size, same]
      exact listed.aligned
    · have size : inode.size = grownSize _ _ := entered.size
      rw [size, same]
      exact Nat.dvd_add listed.aligned (Nat.dvd_refl direntSize)
  · have size : inode.size = grownSize _ _ := entered.size
    intro idx small _
    rw [size] at small
    exact entered.present idx small

/-- The new content is tidy: no block lies past the end. -/
theorem CoherentFs.Overwrote.neat (over' : fs.Overwrote isize fsize last data s list list' t)
    (file : s.inode.isFile = true) (neat : fs.Neat s.image s.inode.toInode) :
    fs.Neat t.image t.inode.toInode := by
  refine ⟨fun valid high => over'.ends (Or.inr neat.trimmed) valid ?_, fun dir => ?_⟩
  · rwa [over'.size] at high
  · have mode := over'.revised.mode
    have other := Inode.not_isFile_of_isDir dir
    unfold Inode.isFile at file other
    rw [mode] at other
    exact absurd file other

/-- The item of a file that is overwritten. -/
theorem CoherentFs.Overwrote.fileTable {last₀ : Option Nat}
    (over' : fs.Overwrote isize fsize last data s list list' t)
    (consistent : fs.Consistent isize fsize last₀ s.image list)
    (owner : fs.Owner isize s.image s.inode.ino s.inode.toInode) (file : s.inode.isFile = true)
    (links : s.inode.nlinks < 65536) :
    fs.fileTable isize t.image s.inode.ino = some (.file s.inode.nlinks data) := by
  have file' : t.inode.isFile = true := by
    have mode := over'.revised.mode
    unfold Inode.isFile at file ⊢
    rwa [mode]
  rw [over'.revised.fileTable consistent owner (over'.size ▸ size_lt over'.few), over'.links,
    Nat.mod_eq_of_lt links, CoherentFs.item_file file', over'.readFile]

/-- The partition after `write_file`, from `s` to `t`: one file has another content. -/
structure CoherentFs.Written (fs : CoherentFs) (isize fsize root : Nat) (data : List (BitVec 8))
    (s t : Session) : Prop where
  orderly : ∃ last list, fs.Orderly isize fsize root last t.image list
  before : fs.fileTable isize s.image s.inode.ino = some (.file s.inode.nlinks
    (fs.readFile s.image s.inode.toInode))
  table : fs.fileTable isize t.image = Function.update (fs.fileTable isize s.image) s.inode.ino
    (some (.file s.inode.nlinks data))
  frame : isize ≤ fsize → Image.AgreeExcept (fs.Within fsize) s.image t.image
  owner : fs.Owner isize t.image t.inode.ino t.inode.toInode
  ino : t.inode.ino = s.inode.ino
  links : t.inode.nlinks = s.inode.nlinks
  content : fs.readFile t.image t.inode.toInode = data

/-- `write_file` is a step. -/
theorem CoherentFs.Orderly.overwrote {root : Nat} {last₀ : Option Nat}
    (orderly : fs.Orderly isize fsize root last₀ s.image list)
    (opened : fs.openStat s.image s.inode.ino = some s.inode)
    (owner : fs.Owner isize s.image s.inode.ino s.inode.toInode) (file : s.inode.isFile = true)
    (over' : fs.Overwrote isize fsize last data s list list' t) :
    fs.Written isize fsize root data s t := by
  have consistent := orderly.sound.consistent
  have size := over'.size ▸ size_lt over'.few
  obtain ⟨owner', rewrites, consistent'⟩ := over'.revised.consistent consistent owner size
  have before := CoherentFs.fileTable_open owner.real owner.last opened
  rw [CoherentFs.item_file file] at before
  have same : fs.fileTable isize t.image = Function.update (fs.fileTable isize s.image) s.inode.ino
      (some (.file s.inode.nlinks data)) := by
    funext other
    by_cases here : other = s.inode.ino
    · rw [here, Function.update_self, over'.fileTable consistent owner file
        (CoherentFs.openStat_nlinks opened)]
    · rw [Function.update_of_ne here,
        consistent.fileTable_other rewrites owner.real owner.last here]
  have step : FileTree.Step (tableNumbers isize) (fs.fileTable isize s.image)
      (fs.fileTable isize t.image) := same ▸ .write before
  refine ⟨⟨last, list', ⟨consistent', orderly.sound.cache.keep over'.revised.cache ?_⟩, ?_, ?_⟩,
    before, same, consistent.within rewrites owner.real owner.last,
    over'.revised.ino.symm ▸ owner', over'.revised.ino, over'.links, over'.readFile⟩
  · exact orderly.sound.cache.slots rewrites (orderly.sound.cache.apart owner)
  · exact over'.revised.tidy consistent owner size orderly.tidy
      (over'.neat file (orderly.tidy.neat owner))
  · exact step.wellFormed orderly.tree

/-! ## Creations -/

/-- A new directory has its block and nothing past it. -/
theorem CoherentFs.EmptyDir.neat (empty : fs.EmptyDir t.image t.inode) :
    fs.Neat t.image t.inode.toInode := by
  have single : blocksOf t.inode.size = 1 := by
    rw [empty.size]
    rfl
  refine ⟨fun valid high => empty.only valid (single ▸ high), fun _ => ⟨?_, fun idx small _ => ?_⟩⟩
  · rw [empty.size]
    exact Nat.dvd_mul_left _ _
  · rw [single, Nat.lt_one_iff] at small
    rw [small]
    exact empty.present

/-- `create_file` is a step. -/
theorem CoherentFs.Orderly.fileMade {root : Nat}
    (orderly : fs.Orderly isize fsize root last s.image list)
    (opened : fs.openStat s.image s.inode.ino = some s.inode)
    (owner : fs.Owner isize s.image s.inode.ino s.inode.toInode) (dir : s.inode.isDir = true)
    (made : fs.FileMade isize fsize last name data s list t list') :
    fs.Orderly isize fsize root last t.image list' ∧
      (∃ x, (fs.fileTable isize s.image).Inserts (tableNumbers isize) s.inode.ino x name
        (.file 1 data) 0 (fs.fileTable isize t.image)) ∧
      (isize ≤ fsize → Image.AgreeExcept (fs.Within fsize) s.image t.image) := by
  obtain ⟨s₁, s₂, list₂, parent, begun, filled, linked, entry, file, one⟩ := made.steps
  have consistent := orderly.sound.consistent
  have slot := begun.slot
  have ino := filled.ino
  have ne := slot.ne_owner owner
  have there := filled.parent begun.child ne.symm (begun.parent consistent owner)
  -- The blocks of the new file, then those of its parent.
  have neat₁ : fs.Neat s₁.image s₁.inode.toInode :=
    ⟨fun valid _ => begun.blank valid, fun other => absurd file (Inode.not_isFile_of_isDir other)⟩
  have tidy₁ := begun.tidy consistent orderly.tidy neat₁
  have tidy₂ := filled.over'.revised.tidy begun.child.consistent begun.child.owner
    (filled.over'.size ▸ size_lt filled.over'.few) tidy₁ (filled.over'.neat file neat₁)
  have used : s₂.inode.ino ≠ 0 := by
    have real := slot.real
    omega
  obtain ⟨⟨front, back, before, behind, fresh⟩, dir', links, neat'⟩ :=
    entry.inserted there dir (tidy₂.neat there) used
  have tidy₃ := linked.revised.tidy (s := { s₂ with inode := s.inode }) filled.child.consistent there
    linked.narrow tidy₂ neat'
  -- The items.
  have small := CoherentFs.openStat_nlinks opened
  have parentBefore := CoherentFs.fileTable_open owner.real owner.last opened
  rw [CoherentFs.item_dir dir] at parentBefore
  have same : fs.readDir s₂.image s.inode.toInode = fs.readDir s.image s.inode.toInode := by
    unfold CoherentFs.readDir
    rw [((begun.filled consistent filled).others owner).content]
  rw [← same, before] at parentBefore
  have parentAfter := linked.revised.fileTable (s := { s₂ with inode := s.inode })
    filled.child.consistent there linked.narrow
  dsimp only at parentAfter
  rw [CoherentFs.item_dir dir', links, Nat.mod_eq_of_lt small, behind, ino] at parentAfter
  have new := filled.over'.fileTable begun.child.consistent begun.child.owner file
    (by rw [one]; decide)
  rw [one] at new
  have keeps : ∀ {other}, other ≠ s.inode.ino →
      fs.fileTable isize t.image other = fs.fileTable isize s₂.image other :=
    filled.child.consistent.fileTable_other linked.rewrites owner.real owner.last
  have after := FileTree.Table.eq_insert parentAfter ((keeps ne).trans new) fun other notNew notParent =>
    (keeps notParent).trans ((begun.child.consistent.fileTable_other filled.rewrites slot.real
      slot.last notNew).trans (consistent.fileTable_other begun.rewrites slot.real slot.last notNew))
  have inserts : (fs.fileTable isize s.image).Inserts (tableNumbers isize) s.inode.ino s₁.inode.ino
      name (.file 1 data) 0 (fs.fileTable isize t.image) :=
    ⟨_, front, back, parentBefore, mem_tableNumbers.mpr ⟨slot.real, slot.last⟩, slot.fileTable, fresh,
      after⟩
  refine ⟨⟨linked.child.sound, tidy₃, inserts.file.wellFormed orderly.tree⟩, ⟨_, inserts⟩,
    fun whole => ?_⟩
  exact ((consistent.within begun.rewrites slot.real slot.last whole).trans
    (begun.child.consistent.within filled.rewrites slot.real slot.last whole)).trans
      (filled.child.consistent.within linked.rewrites owner.real owner.last whole)

/-- `create_dir` is a step, where the links of the parent can be counted. -/
theorem CoherentFs.Orderly.dirMade {root : Nat}
    (orderly : fs.Orderly isize fsize root last s.image list)
    (opened : fs.openStat s.image s.inode.ino = some s.inode)
    (owner : fs.Owner isize s.image s.inode.ino s.inode.toInode) (dir : s.inode.isDir = true)
    (room : s.inode.nlinks + 1 < 65536)
    (made : fs.DirMade isize fsize last name s list t list') :
    fs.Orderly isize fsize root last t.image list' ∧
      (∃ x, (fs.fileTable isize s.image).Inserts (tableNumbers isize) s.inode.ino x name
        (.dir 2 []) 1 (fs.fileTable isize t.image)) ∧
      (isize ≤ fsize → Image.AgreeExcept (fs.Within fsize) s.image t.image) := by
  obtain ⟨s₁, s₂, b, rest, entered, parent, split, begun, linked, entry, again, empty, count, fields,
    only⟩ := made.steps
  have consistent := orderly.sound.consistent
  have slot := begun.slot
  have ne := slot.ne_owner owner
  have there := begun.parent consistent owner
  have ino : entered.ino = s.inode.ino := linked.revised.ino
  have there' : fs.Owner isize s₂.image entered.ino entered.toInode := ino ▸ linked.owner
  have tidy₁ := begun.tidy consistent orderly.tidy empty.neat
  have used : s₁.inode.ino ≠ 0 := by
    have real := slot.real
    omega
  obtain ⟨⟨front, back, before, behind, fresh⟩, dir', links, neat'⟩ :=
    entry.inserted there dir (tidy₁.neat there) used
  have tidy₂ := linked.revised.tidy (s := { s₁ with inode := s.inode }) begun.child.consistent there
    linked.narrow tidy₁ neat'
  -- The last write of the parent changes its inode only.
  have low := fs.inodeBlock_lt owner.real owner.last
  have outside : ∀ {p : BlockPlace}, p.Valid → fs.pointer s₂.image entered.toInode p ≠ 0 →
      t.image.readBlock (fs.partOff + fs.pointer s₂.image entered.toInode p) =
        s₂.image.readBlock (fs.partOff + fs.pointer s₂.image entered.toInode p) :=
    fun valid found => only.block _ (by
      have high := ((linked.child.consistent.map linked.owner).area valid found).1
      omega)
  obtain ⟨pointers, content⟩ :=
    CoherentFs.readFile_untouched (CoherentFs.stat_addrs linked.owner.stat) outside
  have tidy₃ := again.revised.tidy (s := { s₂ with inode := entered }) linked.child.consistent there'
    again.narrow tidy₂ (fields ▸ neat'.congr pointers)
  -- The items.
  have parentBefore := CoherentFs.fileTable_open owner.real owner.last opened
  rw [CoherentFs.item_dir dir] at parentBefore
  have same : fs.readDir s₁.image s.inode.toInode = fs.readDir s.image s.inode.toInode := by
    unfold CoherentFs.readDir
    rw [(consistent.untouched begun.rewrites slot.real slot.last owner ne.symm).content]
  rw [← same, before] at parentBefore
  have parentAfter := again.revised.fileTable (s := { s₂ with inode := entered })
    linked.child.consistent there' again.narrow
  dsimp only at parentAfter
  have listing : fs.readDir t.image entered.toInode = fs.readDir s₂.image entered.toInode := by
    unfold CoherentFs.readDir
    rw [content]
  rw [fields, CoherentFs.item_dir dir', count, links, Nat.mod_eq_of_lt room, listing, behind,
    ino] at parentAfter
  have new := begun.child.owner.fileTable begun.onDisk
  rw [CoherentFs.item_dir empty.dir, empty.links, empty.entries] at new
  have keeps : ∀ {other}, other ≠ s.inode.ino →
      fs.fileTable isize t.image other = fs.fileTable isize s₁.image other := fun other =>
    (linked.child.consistent.fileTable_other again.rewrites there'.real there'.last
      (ino.symm ▸ other)).trans (begun.child.consistent.fileTable_other linked.rewrites owner.real
        owner.last other)
  have after := FileTree.Table.eq_insert parentAfter ((keeps ne).trans new) fun other notNew notParent =>
    (keeps notParent).trans (consistent.fileTable_other begun.rewrites slot.real slot.last notNew)
  have inserts : (fs.fileTable isize s.image).Inserts (tableNumbers isize) s.inode.ino s₁.inode.ino
      name (.dir 2 []) 1 (fs.fileTable isize t.image) :=
    ⟨_, front, back, parentBefore, mem_tableNumbers.mpr ⟨slot.real, slot.last⟩, slot.fileTable, fresh,
      after⟩
  refine ⟨⟨again.child.sound, tidy₃, inserts.dir.wellFormed orderly.tree⟩, ⟨_, inserts⟩,
    fun whole => ?_⟩
  exact ((consistent.within begun.rewrites slot.real slot.last whole).trans
    (begun.child.consistent.within linked.rewrites owner.real owner.last whole)).trans
      (linked.child.consistent.within again.rewrites there'.real there'.last whole)

end Entries

/-! ## Runs -/

/-- The sessions that calls lead to which return and leave a block free. Every call works on an inode
that was opened; the link count of a directory has 16 bits. -/
inductive CoherentFs.Works (fs : CoherentFs) (isize fsize : Nat) (s : Session) : Session → Prop
  | start : fs.Works isize fsize s s
  | create {t u : Session} {creation : Creation} {parent : OpenInode}
    (before : fs.Works isize fsize s t) (step : fs.CreateStep isize creation parent t u)
    (returned : fs.create creation { t with inode := parent } = .ok () u)
    (spares : ∀ last list, fs.Consistent isize fsize last t.image list →
      last = none ∨ TakesFewer list t u)
    (room : ∀ name mode, creation = .dir name mode → parent.nlinks + 1 < 65536) :
    fs.Works isize fsize s u
  | write {t u : Session} {data : List (BitVec 8)} {file : OpenInode}
    (before : fs.Works isize fsize s t) (real : 1 ≤ file.ino)
    (table : file.ino ≤ (isize - 2) * inodesPerBlock)
    (opened : fs.openStat t.image file.ino = some file)
    (returned : fs.writeFile data { t with inode := file } = .ok () u)
    (spares : ∀ last list, fs.Consistent isize fsize last t.image list → LeavesFree list t u) :
    fs.Works isize fsize s u

section Runs

variable {fs : CoherentFs} {isize fsize root : Nat} {last : Option Nat} {s t u : Session}
  {list : List Nat} {data : List (BitVec 8)}

/-- `write_file` returns on regular files alone. -/
theorem CoherentFs.writeFile_isFile (returned : fs.writeFile data s = .ok () t) :
    s.inode.isFile = true := by
  by_contra other
  have raised : Ends (fs.writeFile data) s (fun _ _ => False) fun _ _ => True := by
    refine .bind (.state (.ite (fun _ => .bind (.raise trivial)) fun file => absurd ?_ other))
    simpa using file
  obtain ⟨e, u, error, -⟩ := raised.raises
  rw [returned] at error
  cases error

/-- A file or directory that is opened owns its inode. -/
theorem CoherentFs.owner_of_opened {num : Nat} {inode : OpenInode} {image : Image} (real : 1 ≤ num)
    (table : num ≤ (isize - 2) * inodesPerBlock) (opened : fs.openStat image num = some inode)
    (kind : inode.isFile = true ∨ inode.isDir = true) :
    fs.Owner isize image num inode.toInode :=
  ⟨real, table, by rw [← fs.openStat_toInode, opened]; rfl, kind⟩

/-- What a creation puts under its name. -/
def Creation.item : Creation → FileTree.Item Nat PosixPath (List (BitVec 8))
  | .file _ data _ => .file 1 data
  | .dir _ _ => .dir 2 []

/-- The links that the parent of a creation gets. -/
def Creation.links : Creation → Nat
  | .file _ _ _ => 0
  | .dir _ _ => 1

/-- What is created has no entries. -/
theorem Creation.item_entries (creation : Creation) : creation.item.entries = [] := by
  cases creation <;> rfl

/-- A creation as a step of the file tree. -/
theorem Creation.step {creation : Creation} {x d : Nat} {ids : Finset Nat}
    {table after : FileTree.Table Nat PosixPath (List (BitVec 8))}
    (inserts : table.Inserts ids d x creation.name creation.item creation.links after) :
    FileTree.Step ids table after := by
  cases creation with
  | file name data mode => exact inserts.file
  | dir name mode => exact inserts.dir

/-- A creation that returns puts its item under its name. -/
theorem CoherentFs.Orderly.create {creation : Creation} {parent : OpenInode}
    (orderly : fs.Orderly isize fsize root last t.image list)
    (step : fs.CreateStep isize creation parent t u)
    (returned : fs.create creation { t with inode := parent } = .ok () u)
    (spares : last = none ∨ TakesFewer list t u)
    (room : ∀ name mode, creation = .dir name mode → parent.nlinks + 1 < 65536) :
    ∃ list', fs.Orderly isize fsize root last u.image list' ∧
      (∃ x, (fs.fileTable isize t.image).Inserts (tableNumbers isize) parent.ino x creation.name
        creation.item creation.links (fs.fileTable isize u.image)) ∧
      (isize ≤ fsize → Image.AgreeExcept (fs.Within fsize) t.image u.image) := by
  have opened := step.opened
  have owner := step.owner
  have keeps : ∀ {need}, ¬ Overdrawn last need list { t with inode := parent } u :=
    fun overdrawn => spares.elim overdrawn.spent.1 (Spent.not_takesFewer (s := t) overdrawn.spent)
  cases creation with
  | file name data mode =>
    have ends : Ends (fs.createFile name data mode) { t with inode := parent } _ _ :=
      CoherentFs.Sound.createFile orderly.sound owner
    unfold Ends at ends
    change fs.createFile name data mode _ = _ at returned
    rw [returned] at ends
    obtain ⟨list', made⟩ := ends.resolve_right keeps
    exact ⟨list', CoherentFs.Orderly.fileMade (s := { t with inode := parent }) orderly opened owner
      step.dir made⟩
  | dir name mode =>
    have ends : Ends (fs.createDir name mode) { t with inode := parent } _ _ :=
      CoherentFs.Sound.createDir orderly.sound owner
    unfold Ends at ends
    change fs.createDir name mode _ = _ at returned
    rw [returned] at ends
    obtain ⟨list', made⟩ := ends.resolve_right keeps
    exact ⟨list', CoherentFs.Orderly.dirMade (s := { t with inode := parent }) orderly opened owner
      step.dir (room name mode rfl) made⟩

/-- A `write_file` that returns replaces the content of its file. -/
theorem CoherentFs.Orderly.write (orderly : fs.Orderly isize fsize root last t.image list)
    (file : OpenInode) (real : 1 ≤ file.ino)
    (table : file.ino ≤ (isize - 2) * inodesPerBlock)
    (opened : fs.openStat t.image file.ino = some file)
    (returned : fs.writeFile data { t with inode := file } = .ok () u)
    (spares : LeavesFree list t u) :
    fs.Written isize fsize root data { t with inode := file } u := by
  have isFile := CoherentFs.writeFile_isFile returned
  have owner := CoherentFs.owner_of_opened real table opened (Or.inl isFile)
  have consistent := orderly.sound.consistent
  have ends : Ends (fs.writeFile data) { t with inode := file } _ _ :=
    CoherentFs.Growable.writeFile (consistent.growable (s := { t with inode := file }) owner) isFile
      real table (consistent.inside real table)
  unfold Ends at ends
  rw [returned] at ends
  obtain ⟨last', list', over', -⟩ := ends.resolve_right fun drained => drained.1 spares
  exact CoherentFs.Orderly.overwrote (s := { t with inode := file }) orderly opened owner isFile
    over'

/-- Every run of calls that return is a run of the file tree, and it keeps the partition orderly. -/
theorem CoherentFs.Works.orderly (run : fs.Works isize fsize s t)
    (orderly : fs.Orderly isize fsize root last s.image list) :
    ∃ last' list', fs.Orderly isize fsize root last' t.image list' ∧
      Relation.ReflTransGen (FileTree.Step (tableNumbers isize)) (fs.fileTable isize s.image)
        (fs.fileTable isize t.image) := by
  induction run with
  | start => exact ⟨last, list, orderly, .refl⟩
  | create before step returned spares room inductionHypothesis =>
    obtain ⟨last', list', orderly', steps⟩ := inductionHypothesis
    obtain ⟨list'', orderly'', ⟨x, inserts⟩, -⟩ := orderly'.create step returned
      (spares last' list' orderly'.sound.consistent) room
    exact ⟨last', list'', orderly'', steps.tail (Creation.step inserts)⟩
  | write before real table opened returned spares inductionHypothesis =>
    obtain ⟨last', list', orderly', steps⟩ := inductionHypothesis
    have written := orderly'.write _ real table opened returned
      (spares last' list' orderly'.sound.consistent)
    obtain ⟨last'', list'', orderly''⟩ := written.orderly
    exact ⟨last'', list'', orderly'', steps.tail (written.table ▸ .write written.before)⟩

end Runs

/-- The inodes in use are these directories, with one block each, and every other block is free. -/
structure CoherentFs.Directories (fs : CoherentFs) (isize fsize : Nat) (image : Image)
    (list : List Nat) (nodes : List OpenInode) : Prop where
  opens : ∀ node ∈ nodes, 1 ≤ node.ino ∧ node.ino ≤ (isize - 2) * inodesPerBlock ∧
    fs.openStat image node.ino = some node
  only : ∀ ino < (isize - 2) * inodesPerBlock + 1, 1 ≤ ino → (fs.openStat image ino).isSome →
    ino ∈ nodes.map (·.ino)
  dirs : ∀ node ∈ nodes, node.isDir = true ∧ direntSize ∣ node.size ∧ blocksOf node.size = 1
  single : ∀ node ∈ nodes, ∀ root < rootCount, (node.addrs.getD root 0 ≠ 0 ↔ root = 0)
  blocks : (list ++ nodes.map (·.addrs.getD 0 0)).Perm (List.range' isize (fsize - isize))

section Directories

variable {fs : CoherentFs} {isize fsize root ino b : Nat} {last : Option Nat} {image : Image}
  {list : List Nat} {nodes : List OpenInode} {node : OpenInode} {inode : Inode}

/-- The directories are the owners. -/
theorem CoherentFs.Directories.owner_iff (all : fs.Directories isize fsize image list nodes) :
    fs.Owner isize image ino inode ↔ ∃ node ∈ nodes, node.ino = ino ∧ node.toInode = inode := by
  constructor
  · intro owner
    have stat := owner.stat
    rw [← CoherentFs.openStat_toInode] at stat
    obtain ⟨found, opened, rfl⟩ := Option.map_eq_some_iff.mp stat
    obtain ⟨node, member, rfl⟩ := List.mem_map.mp
      (all.only ino (Nat.lt_succ_of_le owner.last) owner.real (by rw [opened]; rfl))
    rw [(all.opens node member).2.2] at opened
    exact ⟨node, member, rfl, Option.some.inj opened ▸ rfl⟩
  · rintro ⟨node, member, rfl, rfl⟩
    obtain ⟨real, table, opened⟩ := all.opens node member
    exact ⟨real, table, by rw [← CoherentFs.openStat_toInode, opened]; rfl,
      Or.inr (all.dirs node member).1⟩

/-- The blocks of the data area, each once. -/
theorem CoherentFs.Directories.mem_blocks (all : fs.Directories isize fsize image list nodes) :
    b ∈ list ∨ b ∈ nodes.map (·.addrs.getD 0 0) ↔ DataArea isize fsize b := by
  rw [← List.mem_append, all.blocks.mem_iff, List.mem_range'_1]
  unfold DataArea
  omega

/-- The first block is all that a directory has. -/
theorem CoherentFs.Directories.pointer (all : fs.Directories isize fsize image list nodes)
    (member : node ∈ nodes) {p : BlockPlace} (valid : p.Valid)
    (found : fs.pointer image node.toInode p ≠ 0) : p.root = 0 ∧ p.path = [] := by
  have flat : ∀ root < rootCount, nDirect ≤ root → node.toInode.addrs.getD root 0 = 0 := by
    intro root small tree
    by_contra other
    have first := (all.single node member root small).mp other
    exact absurd tree (by rw [first]; decide)
  obtain ⟨-, path, here⟩ := CoherentFs.pointer_direct flat valid found
  rw [here] at found
  exact ⟨(all.single node member p.root valid.1).mp found, path⟩

/-- A partition of such directories is in order, where its free list, its cache and its table are. -/
theorem CoherentFs.Directories.orderly (all : fs.Directories isize fsize image list nodes)
    (stock : fs.Stock isize fsize last image list) (narrow : fsize ≤ 2 ^ 24)
    (inside : ∀ b < isize, image.hasBlock (fs.partOff + b) = true)
    (cache : fs.InodeCache isize image)
    (tree : (fs.fileTable isize image).WellFormed (tableNumbers isize) root) :
    fs.Orderly isize fsize root last image list := by
  have distinct := all.blocks.nodup_iff.mpr List.nodup_range'
  have direct : ∀ {root}, root < nDirect → root < rootCount := fun small =>
    Nat.lt_trans small (by decide)
  refine ⟨⟨CoherentFs.consistent_direct stock narrow inside ?_ ?_ ?_, cache⟩,
    ⟨fun {ino inode} owner => ?_, fun {b} inArea => ?_⟩, tree⟩
  · intro ino inode owner root small tree
    obtain ⟨node, member, -, rfl⟩ := all.owner_iff.mp owner
    by_contra other
    have first := (all.single node member root small).mp other
    exact absurd tree (by rw [first]; decide)
  · intro ino inode owner root small found
    obtain ⟨node, member, -, rfl⟩ := all.owner_iff.mp owner
    obtain rfl := (all.single node member root (direct small)).mp found
    have used : node.addrs.getD 0 0 ∈ nodes.map (·.addrs.getD 0 0) := List.mem_map_of_mem member
    exact ⟨all.mem_blocks.mp (Or.inr used), fun free =>
      (List.nodup_append.mp distinct).2.2 _ free _ used rfl⟩
  · intro ino inode other inode' owner owner' root small root' small' found same
    obtain ⟨node, member, rfl, rfl⟩ := all.owner_iff.mp owner
    obtain ⟨node', member', rfl, rfl⟩ := all.owner_iff.mp owner'
    obtain rfl := (all.single node member root (direct small)).mp found
    obtain rfl := (all.single node' member' root' (direct small')).mp (same ▸ found)
    exact ⟨congrArg (·.ino) (List.inj_on_of_nodup_map (List.nodup_append.mp distinct).2.1 member member'
      same), rfl⟩
  · obtain ⟨node, member, -, rfl⟩ := all.owner_iff.mp owner
    obtain ⟨-, aligned, one⟩ := all.dirs node member
    refine ⟨fun {p} valid high => ?_, fun _ => ⟨aligned, fun idx small _ => ?_⟩⟩
    · by_contra found
      obtain ⟨first, path⟩ := all.pointer member valid found
      obtain ⟨root, rest⟩ := p
      dsimp only at first path
      rw [one, path, first] at high
      exact absurd high (by decide)
    · rw [one, Nat.lt_one_iff] at small
      rw [small]
      exact (all.single node member 0 (by decide)).mpr rfl
  · refine (all.mem_blocks.mpr inArea).imp_right fun used => ?_
    obtain ⟨node, member, rfl⟩ := List.mem_map.mp used
    have nonzero : node.addrs.getD 0 0 ≠ 0 := (all.single node member 0 (by decide)).mpr rfl
    exact ⟨node.ino, node.toInode, all.owner_iff.mpr ⟨node, member, rfl, rfl⟩, nonzero,
      dataPlace 0, (dataPlace_spec (by decide)).1, rfl⟩

/-- The table of such directories. -/
theorem CoherentFs.Directories.fileTable_eq (all : fs.Directories isize fsize image list nodes) :
    fs.fileTable isize image = fun ino => (nodes.find? (·.ino = ino)).map fun node =>
      .dir node.nlinks (fs.readDir image node.toInode) := by
  funext ino
  cases search : nodes.find? (·.ino = ino) with
  | none =>
    unfold CoherentFs.fileTable
    split
    · next member =>
      obtain ⟨real, table⟩ := mem_tableNumbers.mp member
      have none : fs.openStat image ino = none := by
        by_contra found
        obtain ⟨node, inList, same⟩ := List.mem_map.mp (all.only ino (Nat.lt_succ_of_le table) real
          (Option.isSome_iff_ne_none.mpr found))
        exact absurd (decide_eq_true same) (List.find?_eq_none.mp search node inList)
      rw [none]
      rfl
    · rfl
  | some node =>
    have member := List.mem_of_find?_eq_some search
    have named := List.find?_some search
    obtain rfl : node.ino = ino := of_decide_eq_true named
    obtain ⟨real, table, opened⟩ := all.opens node member
    unfold CoherentFs.fileTable
    rw [if_pos (mem_tableNumbers.mpr ⟨real, table⟩), opened, Option.map_some,
      CoherentFs.item_dir (all.dirs node member).1]
    rfl

/-- The table of an empty root. -/
theorem CoherentFs.Directories.fileTable_onlyRoot
    (all : fs.Directories isize fsize image list [node]) (links : node.nlinks = 2)
    (empty : fs.readDir image node.toInode = []) :
    fs.fileTable isize image = FileTree.Table.onlyRoot node.ino := by
  rw [all.fileTable_eq]
  funext ino
  unfold FileTree.Table.onlyRoot
  by_cases here : node.ino = ino
  · simp [here, links, empty]
  · simp [here, Ne.symm here]

end Directories

/-- A partition with an empty root in block 3 and two free blocks. -/
def rootImage : Image where
  len := 6 * 512
  byte := fun i =>
    if i = 512 then 3 else if i = 516 then 6 else if i = 518 then 3 else if i = 526 then 5
    else if i = 530 then 4 else if i = 988 then 2 else if i = 1089 then 0x40
    else if i = 1090 then 2 else if i = 1098 then 32 else if i = 1101 then 3
    else if i = 1536 then 2 else if i = 1538 then 0x2E else if i = 1552 then 2
    else if i = 1554 then 0x2E else if i = 1555 then 0x2E else 0

/-- Its root. -/
def rootDir : OpenInode :=
  { inodeOf [3, 0, 0, 0, 0, 0, 0, 0, 0, 0, 0, 0, 0] with ino := 2, mode := sIfdir, nlinks := 2, size := 32 }

end C900
