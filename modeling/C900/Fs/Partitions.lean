import C900.Fs.Locate
import C900.Fs.TreeRuns

/-!
# Partitions that lie apart

A volume is a set of orderly partitions that lie apart in one image, some of them mounted on
directories of others. A change inside one partition leaves the other ones as they are, and the
lookup of a path goes through their file tables.
-/

namespace C900

/-- A partition with its extent and its root. -/
structure Partition where
  fs : CoherentFs
  isize : Nat
  fsize : Nat
  root : Nat

/-- The file table of a partition. -/
def Partition.table (part : Partition) (image : Image) :
    FileTree.Table Nat PosixPath (List (BitVec 8)) :=
  part.fs.fileTable part.isize image

section Apart

variable {fs : CoherentFs} {isize fsize root ino : Nat} {last : Option Nat} {image after : Image}
  {inode : Inode} {list : List Nat}

/-- An inode that was opened has its number. -/
theorem CoherentFs.openStat_ino {opened : OpenInode} (found : fs.openStat image ino = some opened) :
    opened.ino = ino := by
  unfold CoherentFs.openStat at found
  split at found
  · cases found
  · dsimp only at found
    split at found
    · cases found
    · rw [← Option.some.inj found]
      rfl

/-- An open file or directory owns its blocks. -/
theorem CoherentFs.opened_owner {opened : OpenInode} (member : ino ∈ tableNumbers isize)
    (found : fs.openStat image ino = some opened)
    (kind : opened.isFile = true ∨ opened.isDir = true) :
    fs.Owner isize image ino opened.toInode := by
  obtain ⟨real, table⟩ := mem_tableNumbers.mp member
  exact CoherentFs.owner_of_opened real table found kind

/-- The blocks of a partition are the same. -/
structure CoherentFs.SameBlocks (fs : CoherentFs) (fsize : Nat) (image after : Image) : Prop where
  len : after.len = image.len
  block : ∀ b < fsize, after.readBlock (fs.partOff + b) = image.readBlock (fs.partOff + b)

/-- The inodes stay. -/
theorem CoherentFs.SameBlocks.openStat (same : fs.SameBlocks fsize image after) (whole : isize ≤ fsize)
    (real : 1 ≤ ino) (table : ino ≤ (isize - 2) * inodesPerBlock) :
    fs.openStat after ino = fs.openStat image ino := by
  have low := fs.inodeBlock_lt real table
  have block := same.block (fs.inodeBlock ino - fs.partOff) (by omega)
  rw [Nat.add_sub_cancel' (by omega)] at block
  exact CoherentFs.openStat_congr real fun i _ _ => congrFun block i

/-- The files and directories stay. -/
theorem CoherentFs.SameBlocks.owner_iff (same : fs.SameBlocks fsize image after)
    (whole : isize ≤ fsize) : fs.Owner isize after ino inode ↔ fs.Owner isize image ino inode := by
  have stat : 1 ≤ ino → ino ≤ (isize - 2) * inodesPerBlock →
      fs.stat after ino = fs.stat image ino := fun real table => by
    rw [← fs.openStat_toInode, ← fs.openStat_toInode, same.openStat whole real table]
  constructor
  · exact fun owner =>
      ⟨owner.real, owner.last, (stat owner.real owner.last).symm.trans owner.stat, owner.kind⟩
  · exact fun owner => ⟨owner.real, owner.last, (stat owner.real owner.last).trans owner.stat, owner.kind⟩

/-- A file of the partition has the same blocks with the same bytes. -/
theorem CoherentFs.SameBlocks.content (same : fs.SameBlocks fsize image after)
    (map : fs.OwnMap (DataArea isize fsize) image inode) :
    (∀ {p : BlockPlace}, p.Valid → fs.pointer after inode p = fs.pointer image inode p) ∧
      fs.readFile after inode = fs.readFile image inode :=
  CoherentFs.readFile_untouched map.addrs fun valid found => same.block _ (map.area valid found).2

/-- Their blocks stay. -/
theorem CoherentFs.SameBlocks.belongs_iff (same : fs.SameBlocks fsize image after)
    (whole : isize ≤ fsize) (consistent : fs.Consistent isize fsize last image list) {x : Nat} :
    fs.Belongs isize after ino x ↔ fs.Belongs isize image ino x := by
  constructor
  · rintro ⟨inode, owner, nonzero, p, valid, here⟩
    have before := (same.owner_iff whole).mp owner
    exact ⟨inode, before, nonzero, p, valid,
      ((same.content (consistent.map before)).1 valid).symm.trans here⟩
  · rintro ⟨inode, owner, nonzero, p, valid, here⟩
    exact ⟨inode, (same.owner_iff whole).mpr owner, nonzero, p, valid,
      ((same.content (consistent.map owner)).1 valid).trans here⟩

/-- A consistent partition stays consistent. -/
theorem CoherentFs.SameBlocks.consistent (same : fs.SameBlocks fsize image after)
    (whole : isize ≤ fsize) (consistent : fs.Consistent isize fsize last image list) :
    fs.Consistent isize fsize last after list := by
  have data := consistent.stock.data
  refine ⟨consistent.stock.congr same.len (same.block 1 (by omega)) fun b member =>
    same.block b (consistent.stock.inArea b member).2, consistent.narrow, fun b low => ?_,
    fun owner => ?_, fun belongs => ?_, fun belongs belongs' => ?_⟩
  · have inside := consistent.table b low
    unfold Image.hasBlock at inside ⊢
    rw [same.len]
    exact inside
  · have map := consistent.map ((same.owner_iff whole).mp owner)
    obtain ⟨pointers, -⟩ := same.content map
    refine ⟨map.addrs, fun valid found => ?_, fun valid valid' found eq => ?_⟩
    · rw [pointers valid] at found ⊢
      exact map.area valid found
    · rw [pointers valid] at found eq
      rw [pointers valid'] at eq
      exact map.distinct valid valid' found eq
  · exact consistent.apart ((same.belongs_iff whole consistent).mp belongs)
  · exact consistent.distinct ((same.belongs_iff whole consistent).mp belongs)
      ((same.belongs_iff whole consistent).mp belongs')

/-- The table stays. -/
theorem CoherentFs.SameBlocks.fileTable (same : fs.SameBlocks fsize image after)
    (whole : isize ≤ fsize) (consistent : fs.Consistent isize fsize last image list) :
    fs.fileTable isize after = fs.fileTable isize image := by
  funext ino
  unfold CoherentFs.fileTable
  split
  · next member =>
    obtain ⟨real, table⟩ := mem_tableNumbers.mp member
    rw [same.openStat whole real table]
    refine Option.map_congr fun opened found => CoherentFs.item_congr fun kind => ?_
    exact (same.content (consistent.map (CoherentFs.opened_owner member found kind))).2
  · rfl

/-- A partition whose blocks are the same is as orderly as before. -/
theorem CoherentFs.SameBlocks.orderly (same : fs.SameBlocks fsize image after)
    (whole : isize ≤ fsize) (orderly : fs.Orderly isize fsize root last image list) :
    fs.Orderly isize fsize root last after list := by
  have consistent := orderly.sound.consistent
  have data := consistent.stock.data
  have kept : fs.CacheKept image after := fun i _ => congrFun (same.block 1 (by omega)) i
  refine ⟨⟨same.consistent whole consistent, orderly.sound.cache.keep kept fun ino member => ?_⟩,
    ⟨fun owner => ?_, fun inArea => ?_⟩, same.fileTable whole consistent ▸ orderly.tree⟩
  · have slot := orderly.sound.cache.free ino member
    rw [← fs.openStat_toInode, ← fs.openStat_toInode, same.openStat whole slot.real slot.last]
  · have before := (same.owner_iff whole).mp owner
    exact (orderly.tidy.neat before).congr (same.content (consistent.map before)).1
  · exact (orderly.tidy.whole inArea).imp_right fun ⟨ino, belongs⟩ =>
      ⟨ino, (same.belongs_iff whole consistent).mpr belongs⟩

end Apart

/-! ## Volumes -/

/-- `lookup` of the path with the parts `names`, up to the last `stat`. -/
def Volume.reach (v : Volume) (image : Image) (names : List PosixPath) : Option Located := do
  let _ ← v.root.rootNode image
  v.walk image names [] (v.crossTo [] ⟨v.root.fs, v.root.rootIno⟩)

/-- An inode of the table of one of the partitions. -/
def Located.In (place : Located) (parts : List Partition) : Prop :=
  ∃ part ∈ parts, place.owner = part.fs ∧ place.ino ∈ tableNumbers part.isize

/-- An inode of one of the partitions that is in use. -/
def Located.Used (place : Located) (parts : List Partition) (image : Image) : Prop :=
  ∃ part ∈ parts, place.owner = part.fs ∧ (part.table image place.ino).isSome

/-- Every name in a directory is a path of one part. -/
def Partition.Named (part : Partition) (image : Image) : Prop :=
  ∀ d, ∀ entry ∈ (part.table image).entries d, PosixPath.parts entry.2 = [entry.2]

/-- The largest `isize` that `probe_partition_at` finds plausible. -/
def plausibleIsize : Nat := 2000

/-- Orderly partitions that lie apart; the mounted ones are mounted on paths that lead somewhere. -/
structure Volume.Orderly (v : Volume) (parts : List Partition) (image : Image) : Prop where
  each : ∀ part ∈ parts, ∃ last list,
    part.fs.Orderly part.isize part.fsize part.root last image list
  roots : ∀ part ∈ parts, (part.table image).isDir part.root = true
  named : ∀ part ∈ parts, part.Named image
  extent : ∀ part ∈ parts, part.isize ≤ part.fsize ∧ part.isize ≤ plausibleIsize
  apart : ∀ part ∈ parts, ∀ other ∈ parts, part = other ∨
    part.fs.partOff + part.fsize ≤ other.fs.partOff ∨
      other.fs.partOff + other.fsize ≤ part.fs.partOff
  handles : ∀ handle ∈ v.root :: v.mounts.map Prod.snd,
    ∃ part ∈ parts, handle = ⟨part.fs, part.root⟩
  mounted : ∀ mount ∈ v.mounts, (v.reach image mount.1.parts).isSome

/-- What a volume keeps, with the places and names at `spot` left open. -/
def VolumeKeeps (parts : List Partition) (image after : Image) (spot : Located → PosixPath → Prop) :
    Prop :=
  ∀ part ∈ parts, (part.table image).Keeps (part.table after) fun ino name => spot ⟨part.fs, ino⟩ name

/-- A volume that keeps its files, too. -/
def VolumeGrows (parts : List Partition) (image after : Image) (spot : Located → PosixPath → Prop) :
    Prop :=
  ∀ part ∈ parts, (part.table image).Grows (part.table after) fun ino name => spot ⟨part.fs, ino⟩ name

section Volumes

variable {v : Volume} {parts : List Partition} {part other : Partition} {image after : Image}
  {place next found : Located} {name : PosixPath} {path : PosixPath} {names : List PosixPath}
  {spot : Located → PosixPath → Prop}

/-- Each table of an orderly volume is a tree. -/
theorem Volume.Orderly.wellFormed (orderly : v.Orderly parts image) (member : part ∈ parts) :
    (part.table image).WellFormed (tableNumbers part.isize) part.root := by
  obtain ⟨last, list, here⟩ := orderly.each part member
  exact here.tree

/-- A partition is known by its handle. -/
theorem Volume.Orderly.same (orderly : v.Orderly parts image) (member : part ∈ parts)
    (member' : other ∈ parts) (owner : part.fs = other.fs) : part = other := by
  obtain ⟨last, list, here⟩ := orderly.each part member
  obtain ⟨last', list', there⟩ := orderly.each other member'
  have data := here.sound.consistent.stock.data
  have data' := there.sound.consistent.stock.data
  have extent := orderly.extent part member
  have extent' := orderly.extent other member'
  rcases orderly.apart part member other member' with same | low | high
  · exact same
  · rw [owner] at low
    omega
  · rw [owner] at high
    omega

/-- What is used is inside the table of its partition. -/
theorem Located.Used.within (used : place.Used parts image) (orderly : v.Orderly parts image) :
    place.In parts := by
  obtain ⟨part, member, owner, here⟩ := used
  exact ⟨part, member, owner, (orderly.wellFormed member).inside here⟩

/-- `stat` finds what is in the table. -/
theorem Partition.table_isSome {ino : Nat} (member : ino ∈ tableNumbers part.isize) :
    (part.table image ino).isSome = (part.fs.stat image ino).isSome := by
  rw [Partition.table, CoherentFs.fileTable, if_pos member, ← CoherentFs.openStat_toInode,
    Option.isSome_map, Option.isSome_map]

/-- The entry of a directory, by the table. -/
theorem Partition.entry {ino : Nat}
    (wellFormed : (part.table image).WellFormed (tableNumbers part.isize) part.root)
    (table : ino ∈ tableNumbers part.isize) :
    Located.entry ⟨part.fs, ino⟩ image name =
      ((part.table image).child ino name).map (Located.mk part.fs) := by
  unfold Located.entry Located.node
  dsimp only
  rw [← CoherentFs.openStat_toInode]
  cases opened : part.fs.openStat image ino with
  | none =>
    rw [FileTree.Table.child_none]
    · rfl
    · rw [Partition.table, CoherentFs.fileTable, if_pos table, opened, Option.map_none]
  | some inode =>
    have here : part.table image ino = some (part.fs.item image inode.nlinks inode.toInode) := by
      rw [Partition.table, CoherentFs.fileTable, if_pos table, opened, Option.map_some]
    rw [Option.map_some, Option.map_some]
    dsimp only [Option.bind_eq_bind, Option.bind_some]
    by_cases dir : inode.isDir = true
    · rw [if_pos dir]
      rw [CoherentFs.item_dir dir] at here
      cases search : (part.fs.readDir image inode.toInode).find? fun entry => entry.2 = name with
      | none => rw [FileTree.Table.child_of here, FileTree.Item.entries, search]; rfl
      | some entry =>
        have child : (part.table image).child ino name = some entry.1 := by
          rw [FileTree.Table.child_of here, FileTree.Item.entries, search, Option.map_some]
        have used := wellFormed.named (FileTree.Table.holds_of_child child)
        rw [Partition.table_isSome (wellFormed.inside used)] at used
        rw [child, Option.bind_some, if_pos used, Option.map_some]
    · rw [if_neg dir, FileTree.Table.child_alone here]
      · rfl
      · unfold CoherentFs.item
        rw [if_neg (c := inode.isDir = true) dir]
        split <;> rfl

/-- An entry leads to an inode in use. -/
theorem Volume.Orderly.entry_used (orderly : v.Orderly parts image) (inside : place.In parts)
    (entered : place.entry image name = some next) : next.Used parts image := by
  obtain ⟨part, member, owner, table⟩ := inside
  obtain ⟨fs, ino⟩ := place
  obtain rfl : fs = part.fs := owner
  rw [Partition.entry (orderly.wellFormed member) table] at entered
  obtain ⟨n, child, rfl⟩ := Option.map_eq_some_iff.mp entered
  exact ⟨part, member, rfl, (orderly.wellFormed member).named (FileTree.Table.holds_of_child child)⟩

/-- The roots of the partitions are used. -/
theorem Volume.Orderly.root_used (orderly : v.Orderly parts image) {handle : Handle}
    (member : handle ∈ v.root :: v.mounts.map Prod.snd) :
    Located.Used ⟨handle.fs, handle.rootIno⟩ parts image := by
  obtain ⟨part, inside, rfl⟩ := orderly.handles handle member
  exact ⟨part, inside, rfl, FileTree.Table.isSome_of_isDir (orderly.roots part inside)⟩

/-- A mount point leads from one used place to another. -/
theorem Volume.Orderly.cross_used (orderly : v.Orderly parts image) (path : PosixPath)
    (used : place.Used parts image) : (v.crossTo path place).Used parts image := by
  unfold Volume.crossTo
  split
  · next sub mounted =>
    obtain ⟨mount, listed, rfl⟩ := Option.map_eq_some_iff.mp mounted
    exact orderly.root_used (List.mem_cons_of_mem _
      (List.mem_map_of_mem (List.mem_of_find?_eq_some listed)))
  · exact used

/-- A walk from a used place ends at one. -/
theorem Volume.Orderly.walk_used (orderly : v.Orderly parts image) (used : place.Used parts image)
    (walked : v.walk image names path place = some found) : found.Used parts image := by
  induction names generalizing path place with
  | nil =>
    obtain rfl := Option.some.inj walked
    exact used
  | cons name rest inductionHypothesis =>
    obtain ⟨next, entered, walked⟩ := Option.bind_eq_some_iff.mp walked
    exact inductionHypothesis (orderly.cross_used _
      (orderly.entry_used (used.within orderly) entered)) walked

/-- Paths lead to inodes in use. -/
theorem Volume.Orderly.reach_used (orderly : v.Orderly parts image)
    (reached : v.reach image names = some found) : found.Used parts image := by
  obtain ⟨root, -, walked⟩ := Option.bind_eq_some_iff.mp reached
  exact orderly.walk_used (orderly.cross_used _ (orderly.root_used List.mem_cons_self)) walked

/-- The parts of a path lead where the path leads. -/
theorem Volume.locate_reach (v : Volume) (image : Image) (path : PosixPath) :
    v.locate image path = v.reach image path.parts := rfl

/-- One more name is an entry of the directory reached, or the mount on it. -/
theorem Volume.reach_append (v : Volume) (image : Image) (names : List PosixPath) (name : PosixPath) :
    v.reach image (names ++ [name]) = (v.reach image names).bind fun here =>
      (here.entry image name).map (v.crossTo (names.flatMap ('/' :: ·) ++ '/' :: name)) := by
  unfold Volume.reach
  cases v.root.rootNode image with
  | none => rfl
  | some root =>
    dsimp only [Option.bind_eq_bind, Option.bind_some]
    rw [Volume.walk_append, List.nil_append]

/-- An entry stays, but for the ones left open. -/
theorem VolumeKeeps.entry (keeps : VolumeKeeps parts image after spot)
    (orderly : v.Orderly parts image)
    (later : ∀ part ∈ parts, (part.table after).WellFormed (tableNumbers part.isize) part.root)
    (used : place.Used parts image) (away : ¬ spot place name) :
    place.entry after name = place.entry image name := by
  obtain ⟨part, member, owner, here⟩ := used
  obtain ⟨fs, ino⟩ := place
  obtain rfl : fs = part.fs := owner
  have wellFormed := orderly.wellFormed member
  rw [Partition.entry wellFormed (wellFormed.inside here),
    Partition.entry (later part member) (wellFormed.inside here),
    (keeps part member).child here away]

/-- Where the entries left open are free, every path leads where it led. -/
theorem VolumeKeeps.reach (keeps : VolumeKeeps parts image after spot)
    (orderly : v.Orderly parts image)
    (later : ∀ part ∈ parts, (part.table after).WellFormed (tableNumbers part.isize) part.root)
    (free : ∀ place name, spot place name → place.entry image name = none)
    (reached : v.reach image names = some found) : v.reach after names = some found := by
  obtain ⟨root, rooted, walked⟩ := Option.bind_eq_some_iff.mp reached
  have start := orderly.root_used List.mem_cons_self
  have rooted' : (v.root.rootNode after).isSome := by
    obtain ⟨part, member, owner, here⟩ := start
    have wellFormed := orderly.wellFormed member
    have still := (keeps part member).used here
    rw [Partition.table_isSome (wellFormed.inside here), ← owner] at still
    unfold Handle.rootNode
    rw [Option.isSome_map]
    exact still
  obtain ⟨root', rooted'⟩ := Option.isSome_iff_exists.mp rooted'
  unfold Volume.reach
  rw [rooted']
  have crossed : ∀ path place, Located.Used place parts image →
      Located.Used (v.crossTo path place) parts image := fun path _ => orderly.cross_used path
  refine Volume.walk_kept crossed (fun place name next used entered => ?_)
    (orderly.cross_used [] start) walked
  refine ⟨orderly.entry_used (used.within orderly) entered, ?_⟩
  rw [keeps.entry orderly later used fun open' => ?_, entered]
  rw [free place name open'] at entered
  cases entered

/-- One partition changes, the others stay. -/
theorem Volume.Orderly.changed (orderly : v.Orderly parts image) (member : part ∈ parts)
    {last : Option Nat} {list : List Nat}
    (here : part.fs.Orderly part.isize part.fsize part.root last after list)
    (named : part.Named after) (frame : Image.AgreeExcept (part.fs.Within part.fsize) image after)
    (keeps : (part.table image).Keeps (part.table after) fun ino name => spot ⟨part.fs, ino⟩ name)
    (free : ∀ place name, spot place name → place.entry image name = none) :
    v.Orderly parts after ∧ VolumeKeeps parts image after spot ∧
      ∀ other ∈ parts, other ≠ part → other.table after = other.table image := by
  have blocks : ∀ other ∈ parts, other ≠ part →
      other.fs.SameBlocks other.fsize image after := by
    intro other inside ne
    refine ⟨frame.len, fun b small => frame.block _ ?_⟩
    rintro ⟨low, high⟩
    rcases orderly.apart other inside part member with same | before | behind
    · exact ne same
    · omega
    · omega
  have others : ∀ other ∈ parts, other ≠ part → other.table after = other.table image := by
    intro other inside ne
    obtain ⟨last', list', old⟩ := orderly.each other inside
    exact (blocks other inside ne).fileTable (orderly.extent other inside).1 old.sound.consistent
  have all : VolumeKeeps parts image after spot := by
    intro other inside
    by_cases same : other = part
    · exact same ▸ keeps
    · rw [others other inside same]
      exact (FileTree.Table.Grows.refl _ _).toKeeps
  have each : ∀ other ∈ parts, ∃ last list,
      other.fs.Orderly other.isize other.fsize other.root last after list := by
    intro other inside
    by_cases same : other = part
    · exact ⟨last, list, same ▸ here⟩
    · obtain ⟨last', list', old⟩ := orderly.each other inside
      exact ⟨last', list', (blocks other inside same).orderly (orderly.extent other inside).1 old⟩
  have later : ∀ other ∈ parts,
      (other.table after).WellFormed (tableNumbers other.isize) other.root := fun other inside => by
    obtain ⟨_, _, here⟩ := each other inside
    exact here.tree
  refine ⟨⟨each, fun other inside => ?_, fun other inside => ?_, orderly.extent, orderly.apart,
    orderly.handles, fun mount listed => ?_⟩, all, others⟩
  · have root := orderly.roots other inside
    rw [(all other inside).isDir (FileTree.Table.isSome_of_isDir root), root]
  · by_cases same : other = part
    · exact same ▸ named
    · unfold Partition.Named
      rw [others other inside same]
      exact orderly.named other inside
  · obtain ⟨place, reached⟩ := Option.isSome_iff_exists.mp (orderly.mounted mount listed)
    rw [all.reach orderly later free reached]
    rfl

end Volumes

end C900
