import C900.Fs.Insert
import C900.Fs.Partitions
import C900.Logic.Guarded

/-!
# Methods on a volume

A method that returns on one partition of an orderly volume leaves the volume orderly: a creation
puts one new entry into a directory, `write_file` replaces one content, and `write_inode` with other
permission bits changes no file. Every path leads where it led.
-/

namespace C900

/-- The call leaves a block free: a creation on an open list, `write_file` on any. -/
def MethodCall.Spares (call : MethodCall) : Prop :=
  ∀ isize fsize last list, call.owner.Consistent isize fsize last call.before.image list →
    match call.method with
    | .create _ => last = none ∨ TakesFewer list call.before call.after
    | .write _ => LeavesFree list call.before call.after
    | .save => True

/-- Every call on record leaves a block free. -/
def sparing : Guard Tool where
  Good t := ∀ call ∈ t.made, call.Spares
  Before s t := s.made <:+ t.made
  refl _ := List.suffix_rfl
  trans := List.IsSuffix.trans
  back later good := fun call member => good call (later.subset member)

section Save

variable {fs : CoherentFs} {isize fsize root ino mode : Nat} {last : Option Nat} {image : Image}
  {list : List Nat} {base : OpenInode} {s : Session}

/-- The sizes of the table have 32 bits. -/
theorem CoherentFs.stat_size {inode : Inode} (found : fs.stat image ino = some inode) :
    inode.size < 2 ^ 32 := by
  unfold CoherentFs.stat at found
  split at found
  · cases found
  · dsimp only at found
    split at found
    · cases found
    · cases found
      exact Buffer.get32_lt _ _

/-- `write_inode` with other permission bits of a regular file. -/
theorem CoherentFs.Orderly.save (orderly : fs.Orderly isize fsize root last s.image list)
    (owner : fs.Owner isize s.image base.ino base.toInode)
    (table : fs.fileTable isize s.image base.ino =
      some (.file base.nlinks (fs.readFile s.image base.toInode)))
    (links : base.nlinks < 65536) (same : s.inode = { base with mode := (mode &&& 0xFFF) ||| sIfreg }) :
    Ends fs.writeInode s (fun _ t => fs.Orderly isize fsize root last t.image list ∧
      fs.fileTable isize t.image = fs.fileTable isize s.image ∧
      (isize ≤ fsize → Image.AgreeExcept (fs.Within fsize) s.image t.image)) noRaise := by
  have consistent := orderly.sound.consistent
  have real := owner.real
  have last' := owner.last
  have map := consistent.map owner
  have data := consistent.stock.data
  have block := fs.inodeBlock_lt real last'
  have number : s.inode.ino = base.ino := by rw [same]
  have file : s.inode.isFile = true := by
    rw [same]
    exact beq_iff_eq.mpr (newMode_kind (by decide))
  have wide : s.inode.mode < 65536 := by
    rw [same]
    exact newMode_lt (by decide)
  have used : s.inode.mode ≠ 0 := by
    intro zero
    unfold Inode.isFile at file
    rw [zero] at file
    exact absurd file (by decide)
  have inside := consistent.inside real last'
  refine (fs.writeInode_ends (number.symm ▸ inside)).mono ?_ fun _ _ => id
  rintro - t ⟨after, rfl, written⟩
  rw [number] at written
  dsimp only
  have only : Image.AgreeExcept (· = fs.inodeBlock base.ino) s.image after := by
    rw [written]
    exact s.image.setBlock_agreeExcept _ _
  have packed : ∀ i < blockSize, after.readBlock (fs.inodeBlock base.ino) i =
      packInode (s.image.readBlock (fs.inodeBlock base.ino)) (inodeOffset base.ino) s.inode i := by
    intro i small
    rw [written, Image.readBlock_setBlock_same _ inside small]
  -- The blocks of the file stay.
  obtain ⟨pointers, content⟩ :
      (∀ {p : BlockPlace}, p.Valid → fs.pointer after base.toInode p =
        fs.pointer s.image base.toInode p) ∧
      fs.readFile after base.toInode = fs.readFile s.image base.toInode := by
    refine CoherentFs.readFile_untouched map.addrs fun valid found => only.block _ ?_
    have low := (map.area valid found).1
    omega
  have pointers' : ∀ {p : BlockPlace}, p.Valid →
      fs.pointer after s.inode.toInode p = fs.pointer s.image base.toInode p := by
    rw [same]
    exact pointers
  have size : s.inode.size = base.size := by rw [same]
  have stat : fs.stat after base.ino = some s.inode.toInode :=
    CoherentFs.stat_packed number real packed wide used (size ▸ CoherentFs.stat_size owner.stat)
      (by rw [same]; exact map.addrs) (by rw [same]; exact map.narrow consistent.narrow)
  have owner' : fs.Owner isize after base.ino s.inode.toInode := ⟨real, last', stat, Or.inl file⟩
  have theOne : ∀ {inode}, fs.Owner isize after base.ino inode → inode = s.inode.toInode :=
    fun other => Option.some.inj (other.stat.symm.trans stat)
  have rewrites : fs.Rewrites isize base.ino list s.image after := by
    refine ⟨only.mono fun _ => Or.inr ∘ Or.inl, fun other real' table' ne => ?_⟩
    exact CoherentFs.openStat_other real ne packed fun apart => only.block _ apart
  have belongs : ∀ {x}, fs.Belongs isize after base.ino x ↔ fs.Belongs isize s.image base.ino x := by
    intro x
    constructor
    · rintro ⟨inode, other, nonzero, p, valid, here⟩
      rw [theOne other, pointers' valid] at here
      exact ⟨_, owner, nonzero, p, valid, here⟩
    · rintro ⟨inode, other, nonzero, p, valid, here⟩
      rw [Option.some.inj (other.stat.symm.trans owner.stat), ← pointers' valid] at here
      exact ⟨_, owner', nonzero, p, valid, here⟩
  have stock : fs.Stock isize fsize last after list :=
    consistent.stock.congr only.len (only.block _ (by omega)) fun b member => only.block _ (by
      have low := (consistent.stock.inArea b member).1
      omega)
  have consistent' : fs.Consistent isize fsize last after list := by
    refine consistent.update rewrites real last' stock (fun other => ?_) (fun {x} own => ?_)
      fun member => Or.inl member
    · rw [theOne other]
      refine ⟨by rw [same]; exact map.addrs, fun valid found => ?_, fun valid valid' found eq => ?_⟩
      · rw [pointers' valid] at found ⊢
        exact map.area valid found
      · rw [pointers' valid] at found eq
        rw [pointers' valid'] at eq
        exact map.distinct valid valid' found eq
    · exact ⟨consistent.apart (belongs.mp own), Or.inr (belongs.mp own)⟩
  have neat : fs.Neat after s.inode.toInode := by
    refine ⟨fun valid high => ?_, fun dir => absurd file (Inode.not_isFile_of_isDir dir)⟩
    rw [pointers' valid]
    exact (orderly.tidy.neat owner).trimmed valid (size ▸ high)
  have tidy := orderly.tidy.rewrites consistent rewrites real last'
    (fun other => theOne other ▸ neat) fun either => either.imp_right belongs.mpr
  have tables : fs.fileTable isize after = fs.fileTable isize s.image := by
    funext other
    by_cases here : other = base.ino
    · have opened : fs.openStat after s.inode.ino = some s.inode.masked :=
        CoherentFs.openStat_packed (number.symm ▸ real) (number.symm ▸ packed)
          (by rwa [Nat.mod_eq_of_lt wide])
      rw [number] at opened
      rw [here, owner'.fileTable opened, table, CoherentFs.item_file file, same]
      change some (FileTree.Item.file (base.nlinks % 65536) (fs.readFile after base.toInode)) = _
      rw [content, Nat.mod_eq_of_lt links]
    · exact consistent.fileTable_other rewrites real last' here
  refine ⟨⟨⟨consistent', orderly.sound.cache.keep (only.cacheKept (by omega)) ?_⟩, tidy,
    tables ▸ orderly.tree⟩, tables, consistent.within rewrites real last'⟩
  exact orderly.sound.cache.slots rewrites (orderly.sound.cache.apart owner)

end Save

/-! ## Only directories get entries -/

section Parents

variable {fs : CoherentFs} {name : PosixPath} {ino mode : Nat} {data : List (BitVec 8)}
  {s t : Session} {parent : OpenInode} {creation : Creation}

/-- An entry goes into a directory only. -/
theorem CoherentFs.addDirEntry_isDir {u : Unit} (returned : fs.addDirEntry name ino s = .ok u t) :
    s.inode.isDir = true := by
  by_contra other
  have raised : Ends (fs.addDirEntry name ino) s (fun _ _ => False) fun _ _ => True := by
    refine .bind (.lifted (fun _ _ => .bind (.state (.ite (fun _ => .bind (.raise trivial))
      fun dir => absurd ?_ other))) fun _ _ => trivial)
    simpa using dir
  obtain ⟨e, v, error, -⟩ := raised.raises
  rw [returned] at error
  cases error

/-- What a handler does not stop has returned itself. -/
theorem onFsError_returned {α : Type} {body : WriteM α} {handler : WriteM Unit} {a : α}
    (returned : onFsError body handler s = .ok a t) : body s = .ok a t := by
  cases ran : body s with
  | ok b u =>
    rw [← returned]
    change _ = EStateM.tryCatch body _ s
    unfold EStateM.tryCatch
    rw [ran]
  | error e u =>
    have raised : Ends (onFsError body handler) s (fun _ _ => False) fun _ _ => True :=
      .caught (.of_error ran (.ite (fun _ => .bind (.always (fun _ _ => .raise trivial)
        fun _ _ => trivial)) fun _ => .raise trivial))
    obtain ⟨e, v, error, -⟩ := raised.raises
    rw [returned] at error
    cases error

/-- The parent of a new entry is a directory. -/
theorem onParent_isDir {inode : OpenInode}
    (returned : onParent parent (fs.addDirEntry name ino) s = .ok inode t) : parent.isDir = true := by
  unfold onParent at returned
  cases ran : fs.addDirEntry name ino { s with inode := parent } with
  | ok a u => exact CoherentFs.addDirEntry_isDir ran
  | error e u =>
    rw [ran] at returned
    cases returned

/-- A check that passes changes nothing. -/
theorem ofExcept_returned {α : Type} {result : Except FsError α} {a : α}
    (returned : (ofExcept result : WriteM α) s = .ok a t) : t = s := by
  cases result with
  | ok b =>
    cases returned
    rfl
  | error e => cases returned

/-- A creation returns in a directory alone. -/
theorem CoherentFs.create_isDir (returned : fs.create creation s = .ok () t) :
    s.inode.isDir = true := by
  cases creation with
  | file name data mode =>
    obtain ⟨_, s₁, valid, returned⟩ := Guard.bind_returned returned
    obtain ⟨_, s₂, got, returned⟩ := Guard.bind_returned returned
    obtain rfl := ofExcept_returned valid
    cases got
    obtain ⟨ino, s₃, -, returned⟩ := Guard.bind_returned returned
    obtain ⟨now, s₄, -, returned⟩ := Guard.bind_returned returned
    obtain ⟨_, s₅, -, returned⟩ := Guard.bind_returned returned
    obtain ⟨_, s₆, -, returned⟩ := Guard.bind_returned (onFsError_returned returned)
    obtain ⟨_, s₇, -, returned⟩ := Guard.bind_returned returned
    obtain ⟨_, s₈, entered, -⟩ := Guard.bind_returned returned
    exact onParent_isDir entered
  | dir name mode =>
    obtain ⟨_, s₁, valid, returned⟩ := Guard.bind_returned returned
    obtain ⟨_, s₂, got, returned⟩ := Guard.bind_returned returned
    obtain rfl := ofExcept_returned valid
    cases got
    obtain ⟨ino, s₃, -, returned⟩ := Guard.bind_returned returned
    obtain ⟨b, s₄, -, returned⟩ := Guard.bind_returned returned
    obtain ⟨dot, s₅, -, returned⟩ := Guard.bind_returned returned
    obtain ⟨dots, s₆, -, returned⟩ := Guard.bind_returned returned
    obtain ⟨now, s₇, -, returned⟩ := Guard.bind_returned returned
    obtain ⟨_, s₈, -, returned⟩ := Guard.bind_returned returned
    obtain ⟨inode, s₉, entered, -⟩ := Guard.bind_returned returned
    obtain ⟨_, _, -, entered⟩ := Guard.bind_returned (onFsError_returned entered)
    obtain ⟨_, _, -, entered⟩ := Guard.bind_returned entered
    exact onParent_isDir entered

/-- A creation that returns has a valid name. -/
theorem CoherentFs.create_valid (returned : fs.create creation s = .ok () t) :
    validateName creation.name = .ok () := by
  have valid : ∃ u, (ofExcept (validateName creation.name) : WriteM Unit) s = .ok () u := by
    cases creation with
    | file name data mode =>
      obtain ⟨_, s₁, valid, -⟩ := Guard.bind_returned returned
      exact ⟨s₁, valid⟩
    | dir name mode =>
      obtain ⟨_, s₁, valid, -⟩ := Guard.bind_returned returned
      exact ⟨s₁, valid⟩
  obtain ⟨u, valid⟩ := valid
  cases result : validateName creation.name with
  | ok a => rfl
  | error e =>
    rw [result] at valid
    cases valid

end Parents

/-- A name that `validate_name` accepts is a path of one part. -/
theorem parts_validateName {name : PosixPath} (valid : validateName name = .ok ()) :
    PosixPath.parts name = [name] := by
  obtain ⟨nonempty, notDot, -, plain, -⟩ := validateName_ok valid
  exact PosixPath.parts_single nonempty notDot plain

/-! ## Inodes of a volume -/

/-- What an inode of one of the partitions holds. -/
def Located.Has (place : Located) (parts : List Partition) (image : Image)
    (item : FileTree.Item Nat PosixPath (List (BitVec 8))) : Prop :=
  ∃ part ∈ parts, place.owner = part.fs ∧ part.table image place.ino = some item

/-- A slot of one of the partitions that is free. -/
def Located.Free (place : Located) (parts : List Partition) (image : Image) : Prop :=
  ∃ part ∈ parts, place.owner = part.fs ∧ part.table image place.ino = none

/-- A new item is under a name of a directory, in a slot that was free. -/
structure Volume.Created (v : Volume) (parts : List Partition) (place : Located) (name : PosixPath)
    (item : FileTree.Item Nat PosixPath (List (BitVec 8))) (image after : Image) : Prop where
  orderly : v.Orderly parts after
  grows : VolumeGrows parts image after fun other n => other = place ∧ n = name
  free : place.entry image name = none
  child : ∃ new : Located, new.Free parts image ∧ new.Has parts after item ∧
    place.entry after name = some new

/-- One file has another content. -/
structure Volume.Overwritten (v : Volume) (parts : List Partition) (place : Located)
    (content : List (BitVec 8)) (image after : Image) : Prop where
  orderly : v.Orderly parts after
  keeps : VolumeKeeps parts image after fun _ _ => False
  before : ∃ links old, place.Has parts image (.file links old)
  content : ∃ links, place.Has parts after (.file links content)
  others : ∀ other item, other ≠ place → other.Has parts image item → other.Has parts after item

section Calls

variable {v : Volume} {parts : List Partition} {image after : Image} {place : Located}
  {name path : PosixPath} {item other : FileTree.Item Nat PosixPath (List (BitVec 8))}
  {node : OpenNode} {creation : Creation} {data content : List (BitVec 8)} {links mode : Nat}
  {spot : Located → PosixPath → Prop} {s : Tool}

/-- A place that has an item is used. -/
theorem Located.Has.used (has : place.Has parts image item) : place.Used parts image := by
  obtain ⟨part, member, owner, here⟩ := has
  exact ⟨part, member, owner, here ▸ rfl⟩

/-- A place has one item. -/
theorem Located.Has.unique (has : place.Has parts image item) (orderly : v.Orderly parts image)
    (has' : place.Has parts image other) : item = other := by
  obtain ⟨part, member, owner, here⟩ := has
  obtain ⟨part', member', owner', here'⟩ := has'
  obtain rfl := orderly.same member member' (owner.symm.trans owner')
  exact Option.some.inj (here.symm.trans here')

/-- A free place is not used. -/
theorem Located.Free.not_used (free : place.Free parts image) (orderly : v.Orderly parts image) :
    ¬ place.Used parts image := by
  rintro ⟨part', member', owner', here'⟩
  obtain ⟨part, member, owner, here⟩ := free
  obtain rfl := orderly.same member member' (owner.symm.trans owner')
  rw [here] at here'
  cases here'

/-- A volume that grows keeps what it has. -/
theorem VolumeGrows.keeps (grows : VolumeGrows parts image after spot) :
    VolumeKeeps parts image after spot := fun part member => (grows part member).toKeeps

/-- A used place stays used. -/
theorem VolumeKeeps.used (keeps : VolumeKeeps parts image after spot)
    (used : place.Used parts image) : place.Used parts after := by
  obtain ⟨part, member, owner, here⟩ := used
  exact ⟨part, member, owner, (keeps part member).used here⟩

/-- A file stays where the volume grows. -/
theorem VolumeGrows.file (grows : VolumeGrows parts image after spot)
    (has : place.Has parts image (.file links content)) :
    place.Has parts after (.file links content) := by
  obtain ⟨part, member, owner, here⟩ := has
  refine ⟨part, member, owner, ?_⟩
  rw [(grows part member).plain (by rw [here]; rfl) (by rw [FileTree.Table.isDir_of here]; rfl), here]

/-- A directory stays a directory. -/
theorem VolumeKeeps.dir {entries : List (Nat × PosixPath)}
    (keeps : VolumeKeeps parts image after spot)
    (has : place.Has parts image (.dir links entries)) :
    ∃ links entries, place.Has parts after (.dir links entries) := by
  obtain ⟨part, member, owner, here⟩ := has
  have dir := (keeps part member).isDir (y := place.ino) (by rw [here]; rfl)
  rw [FileTree.Table.isDir_of here] at dir
  cases found : part.table after place.ino with
  | none => simp [FileTree.Table.isDir, found, FileTree.Item.isDir] at dir
  | some item =>
    rw [FileTree.Table.isDir_of found] at dir
    cases item with
    | dir links entries => exact ⟨links, entries, part, member, owner, found⟩
    | file => cases dir
    | special => cases dir

/-- The item of an inode that was opened. -/
theorem Located.Used.opened (used : place.Used parts image) (orderly : v.Orderly parts image)
    (here : place.openNode image = some node) : node.owner = place.owner ∧
      node.inode.ino = place.ino ∧ place.owner.openStat image place.ino = some node.inode ∧
      place.Has parts image
        (place.owner.item image node.inode.nlinks node.inode.toInode) := by
  obtain ⟨inode, opened, rfl⟩ := Option.map_eq_some_iff.mp here
  obtain ⟨part, member, owner, found⟩ := used
  refine ⟨rfl, CoherentFs.openStat_ino opened, opened, part, member, owner, ?_⟩
  have table := (orderly.wellFormed member).inside found
  rw [owner] at opened ⊢
  rw [Partition.table, CoherentFs.fileTable, if_pos table, opened, Option.map_some]

/-- A used place can be opened. -/
theorem Located.Used.openNode (used : place.Used parts image) (orderly : v.Orderly parts image) :
    ∃ node, place.openNode image = some node := by
  obtain ⟨part, member, owner, found⟩ := used
  have table := (orderly.wellFormed member).inside found
  rw [Partition.table_isSome table, ← CoherentFs.openStat_toInode, Option.isSome_map] at found
  obtain ⟨inode, opened⟩ := Option.isSome_iff_exists.mp found
  refine ⟨⟨place.owner, inode⟩, ?_⟩
  rw [Located.openNode, owner, opened]
  rfl

/-- A file is opened as a regular file with its content. -/
theorem Located.Has.openFile (has : place.Has parts image (.file links content))
    (orderly : v.Orderly parts image) : ∃ node, place.openNode image = some node ∧
      node.inode.isFile = true ∧ node.owner.readFile image node.inode.toInode = content := by
  obtain ⟨node, here⟩ := has.used.openNode orderly
  obtain ⟨owner, -, -, has'⟩ := has.used.opened orderly here
  have same := has'.unique orderly has
  unfold CoherentFs.item at same
  split at same
  · next file =>
    obtain ⟨-, content⟩ := FileTree.Item.file.inj same
    exact ⟨node, here, file, by rw [owner, content]⟩
  · split at same <;> cases same

/-- A directory of the table is opened as one. -/
theorem Located.Has.openDir {entries : List (Nat × PosixPath)}
    (has : place.Has parts image (.dir links entries)) (orderly : v.Orderly parts image) :
    ∃ node, place.openNode image = some node ∧ node.inode.isDir = true := by
  obtain ⟨node, here⟩ := has.used.openNode orderly
  obtain ⟨-, -, -, has'⟩ := has.used.opened orderly here
  have same := has'.unique orderly has
  unfold CoherentFs.item at same
  split at same
  · cases same
  · split at same
    · next dir => exact ⟨node, here, dir⟩
    · cases same

/-! ## Calls of methods -/

/-- A method call is one record behind the others. -/
theorem OpenNode.call_forward (node : OpenNode) (method : Method) :
    sparing.Forward (node.call method) := by
  intro s inode t ran
  unfold OpenNode.call at ran
  dsimp only at ran
  split at ran
  · cases ran
    exact List.suffix_cons _ _
  · cases ran

/-- A call that returns is on record. -/
theorem OpenNode.call_returned {method : Method} {inode : OpenInode} {t : Tool}
    (ran : node.call method s = .ok inode t) :
    ∃ after : Session, node.owner.perform method ⟨s.image, s.clock, node.inode, s.calls⟩ =
        .ok () after ∧ inode = after.inode ∧ t.image = after.image ∧
      (⟨node.owner, method, ⟨s.image, s.clock, node.inode, s.calls⟩, after⟩ : MethodCall) ∈
        t.made := by
  unfold OpenNode.call at ran
  dsimp only at ran
  split at ran
  · next u after performed =>
    cases ran
    exact ⟨after, performed, rfl, rfl, List.mem_cons_self⟩
  · cases ran

/-- A directory of a volume has few links. -/
theorem Volume.Orderly.room {part : Partition} {entries : List (Nat × PosixPath)} {ino : Nat}
    (orderly : v.Orderly parts image) (member : part ∈ parts)
    (found : part.table image ino = some (.dir links entries)) : links + 1 < 65536 := by
  have wellFormed := orderly.wellFormed member
  have few := wellFormed.subdirs_le ino
  have small := (orderly.extent part member).2
  rw [wellFormed.dirs found]
  rw [tableNumbers, Nat.card_Icc] at few
  unfold inodesPerBlock at few
  unfold plausibleIsize at small
  omega

/-- `create_file` and `create_dir` put one new item into their parent. -/
theorem Volume.Orderly.create (orderly : v.Orderly parts s.image)
    (used : place.Used parts s.image) (here : place.openNode s.image = some node) :
    sparing.Returns (node.call (.create creation)) s fun _ t =>
      v.Created parts place creation.name creation.item s.image t.image := by
  intro inode t ran good
  obtain ⟨after, returned, -, image, recorded⟩ := OpenNode.call_returned ran
  obtain ⟨owner, number, opened, has⟩ := used.opened orderly here
  obtain ⟨part, member, owner', found⟩ := has
  have table := (orderly.wellFormed member).inside (by rw [found]; rfl)
  obtain ⟨real, low⟩ := mem_tableNumbers.mp table
  obtain ⟨last, list, partition⟩ := orderly.each part member
  have dir : node.inode.isDir = true := CoherentFs.create_isDir returned
  rw [owner, owner'] at returned
  rw [owner'] at opened found
  rw [CoherentFs.item_dir dir] at found
  have spares := good _ recorded part.isize part.fsize last list (by
    dsimp only
    rw [owner, owner']
    exact partition.sound.consistent)
  have step : part.fs.CreateStep part.isize creation node.inode
      ⟨s.image, s.clock, node.inode, s.calls⟩ after :=
    ⟨number.symm ▸ real, number.symm ▸ low, number.symm ▸ opened, dir, Or.inl returned⟩
  obtain ⟨list', partition', ⟨x, inserts⟩, frame⟩ :=
    partition.create step returned spares fun _ _ _ => orderly.room member found
  rw [number] at inserts
  rw [image]
  have grows := inserts.grows creation.item_entries
  have free : place.entry s.image creation.name = none := by
    obtain ⟨fs, ino⟩ := place
    obtain rfl : fs = part.fs := owner'
    rw [Partition.entry (orderly.wellFormed member) table,
      show (part.table s.image).child ino creation.name = none from
        inserts.child_free creation.item_entries]
    rfl
  have spot : ∀ {ino n}, (Located.mk part.fs ino = place ∧ n = creation.name) ↔
      (ino = place.ino ∧ n = creation.name) := by
    intro ino n
    constructor
    · rintro ⟨rfl, same⟩
      exact ⟨rfl, same⟩
    · rintro ⟨rfl, same⟩
      exact ⟨by rw [← owner'], same⟩
  have kept : (part.table s.image).Keeps (part.table after.image) fun ino n =>
      Located.mk part.fs ino = place ∧ n = creation.name := grows.toKeeps.mono fun _ _ => spot.mpr
  have open' : ∀ other n, other = place ∧ n = creation.name → other.entry s.image n = none := by
    rintro _ _ ⟨rfl, rfl⟩
    exact free
  have named : part.Named after.image := by
    intro d entry listed
    rcases inserts.mem_entries creation.item_entries listed with rfl | old
    · exact parts_validateName (CoherentFs.create_valid returned)
    · exact orderly.named part member d entry old
  obtain ⟨orderly', -, others⟩ := orderly.changed member partition' named
    (frame (orderly.extent part member).1) kept open'
  refine ⟨orderly', fun other inside => ?_, free, ⟨place.owner, x⟩, ⟨part, member, owner', ?_⟩,
    ⟨part, member, owner', ?_⟩, ?_⟩
  · by_cases same : other = part
    · exact same ▸ grows.mono fun _ _ => spot.mpr
    · rw [others other inside same]
      exact .refl _ _
  · exact inserts.free creation.item_entries
  · exact inserts.new creation.item_entries
  · obtain ⟨fs, ino⟩ := place
    obtain rfl : fs = part.fs := owner'
    rw [Partition.entry (orderly'.wellFormed member) table,
      show (part.table after.image).child ino creation.name = some x from
        inserts.child_new creation.item_entries]
    rfl

/-- `write_file` replaces the content of its file, and the inode can be saved with another mode. -/
theorem Volume.Orderly.write (orderly : v.Orderly parts s.image)
    (used : place.Used parts s.image) (here : place.openNode s.image = some node) :
    sparing.Returns (node.call (.write data)) s fun inode t =>
      v.Overwritten parts place data s.image t.image ∧
        ∃ part ∈ parts, place.owner = part.fs ∧ inode.ino = place.ino ∧
          part.fs.Owner part.isize t.image inode.ino inode.toInode ∧ inode.nlinks < 65536 ∧
          part.fs.readFile t.image inode.toInode = data ∧
          part.table t.image inode.ino = some (.file inode.nlinks data) := by
  intro inode t ran good
  obtain ⟨after, returned, rfl, image, recorded⟩ := OpenNode.call_returned ran
  obtain ⟨owner, number, opened, has⟩ := used.opened orderly here
  obtain ⟨part, member, owner', found⟩ := has
  have table := (orderly.wellFormed member).inside (by rw [found]; rfl)
  obtain ⟨real, low⟩ := mem_tableNumbers.mp table
  obtain ⟨last, list, partition⟩ := orderly.each part member
  rw [owner, owner'] at returned
  rw [owner'] at opened found
  have spares := good _ recorded part.isize part.fsize last list (by
    dsimp only
    rw [owner, owner']
    exact partition.sound.consistent)
  have written := partition.write (t := ⟨s.image, s.clock, node.inode, s.calls⟩) node.inode
    (number.symm ▸ real) (number.symm ▸ low) (number.symm ▸ opened) returned spares
  obtain ⟨last', list', partition'⟩ := written.orderly
  have before := written.before
  have changed := written.table
  dsimp only at before changed
  have now : part.table after.image node.inode.ino = some (.file node.inode.nlinks data) := by
    rw [Partition.table, changed, Function.update_self]
  have kept : (part.table s.image).Keeps (part.table after.image) fun _ _ => False := by
    rw [Partition.table, Partition.table, changed]
    exact FileTree.Table.keeps_update _ before
  rw [image]
  have named : part.Named after.image := by
    unfold Partition.Named
    rw [Partition.table, changed, FileTree.Table.entries_update _ before]
    exact orderly.named part member
  obtain ⟨orderly', keeps, others⟩ := orderly.changed member partition' named
    (written.frame (orderly.extent part member).1) kept
    fun _ _ => False.elim
  refine ⟨⟨orderly', keeps, ⟨_, _, part, member, owner', number ▸ before⟩,
    ⟨node.inode.nlinks, part, member, owner', number ▸ now⟩, fun other item ne has => ?_⟩, part,
    member, owner', written.ino.trans number, written.owner, ?_, written.content, ?_⟩
  · obtain ⟨part', member', there, found'⟩ := has
    refine ⟨part', member', there, ?_⟩
    by_cases same : part' = part
    · subst same
      rw [Partition.table, changed, Function.update_of_ne]
      · exact found'
      · intro same
        refine ne ?_
        obtain ⟨fs, ino⟩ := other
        obtain ⟨fs', ino'⟩ := place
        dsimp only at same there owner' number
        rw [there, owner', same, number]
    · rw [others part' member' same, found']
  · rw [written.links]
    exact CoherentFs.openStat_nlinks opened
  · rw [written.ino, written.links]
    exact now

/-- `write_inode` with other permission bits changes no file. -/
theorem Volume.Orderly.save {part : Partition} {inode : OpenInode} (orderly : v.Orderly parts s.image)
    (member : part ∈ parts) (owner : part.fs.Owner part.isize s.image inode.ino inode.toInode)
    (links : inode.nlinks < 65536)
    (table : part.table s.image inode.ino =
      some (.file inode.nlinks (part.fs.readFile s.image inode.toInode))) :
    sparing.Returns (OpenNode.call ⟨part.fs, { inode with mode := (mode &&& 0xFFF) ||| sIfreg }⟩ .save)
      s fun _ t => v.Orderly parts t.image ∧
        ∀ other ∈ parts, other.table t.image = other.table s.image := by
  intro inode' t ran good
  obtain ⟨after, returned, -, image, -⟩ := OpenNode.call_returned ran
  obtain ⟨last, list, partition⟩ := orderly.each part member
  have ends := CoherentFs.Orderly.save
    (s := ⟨s.image, s.clock, { inode with mode := (mode &&& 0xFFF) ||| sIfreg }, s.calls⟩)
    partition owner table links rfl
  unfold Ends at ends
  change part.fs.writeInode _ = _ at returned
  rw [returned] at ends
  obtain ⟨partition', tables, frame⟩ := ends
  have same : part.table after.image = part.table s.image := tables
  rw [image]
  have named : part.Named after.image := by
    unfold Partition.Named
    rw [same]
    exact orderly.named part member
  obtain ⟨orderly', -, others⟩ := orderly.changed member partition' named
    (frame (orderly.extent part member).1) (by rw [same]; exact (FileTree.Table.Grows.refl _ _).toKeeps)
    fun _ _ => False.elim
  refine ⟨orderly', fun other inside => ?_⟩
  by_cases here : other = part
  · rw [here, same]
  · exact others other inside here

end Calls

end C900
