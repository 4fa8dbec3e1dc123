import C900.Fs.InodeRuns

/-!
# Creations that raise

A creation that raises gives back what it has taken where its handler runs and where the parent has
taken no block. It leaves the new inode behind where the name does not fit into an entry, and the
blocks of the parent where its growth or its entry fails after a block was taken.
-/

namespace C900

/-- The free blocks, the inodes in use and the directory `s.inode` are those from before. The free
blocks afterwards are those that the calls have left. -/
structure CoherentFs.Undone (fs : CoherentFs) (isize fsize : Nat) (s : Session) (list : List Nat)
    (t : Session) : Prop where
  free : ∃ last' list', fs.Consistent isize fsize last' t.image list' ∧ Balanced list s list' t ∧
    ∀ x, x ∈ list' ↔ x ∈ list
  inodes : ∀ ino, 1 ≤ ino → ino ≤ (isize - 2) * inodesPerBlock →
    (fs.stat t.image ino = none ↔ fs.stat s.image ino = none)
  parent : fs.openStat t.image s.inode.ino = fs.openStat s.image s.inode.ino
  entries : fs.readDir t.image s.inode.toInode = fs.readDir s.image s.inode.toInode

/-- The entry fails after the new inode got `count` of the `free` blocks, and something is lost: the
name has a character outside Latin-1, or the parent takes a block for a hole before it runs out of
blocks, gets larger than the largest file or has its new entry across the end of a block. -/
def CoherentFs.EntryLost (fs : CoherentFs) (image : Image) (parent : Inode) (name : PosixPath)
    (count free : Nat) : Prop :=
  let body := fs.readFile image parent
  let holes := (fs.entryHoles image parent).length
  (∃ reuse, scanDir body name = .ok reuse) ∧
    ((∃ c ∈ name, 255 < c.toNat) ∨
      (0 < holes ∧ count < free ∧
        (free < count + holes ∨ maxBlocks < blocksOf (grownSize body parent.size) ∨
          blockSize < entryOffset body parent.size % blockSize + direntSize)))

/-- The name of a new file or directory. -/
def Creation.name : Creation → PosixPath
  | .file name _ _ => name
  | .dir name _ => name

/-- The blocks that a creation takes if there are enough. -/
def CoherentFs.needs (fs : CoherentFs) (image : Image) (parent : Inode) : Creation → Nat
  | .file _ data _ => fs.fileNeeds image parent data
  | .dir _ _ => fs.dirNeeds image parent

/-- The creation gets as far as its entry, which fails so that something is lost. -/
def CoherentFs.Leaks (fs : CoherentFs) (image : Image) (parent : OpenInode) (free : Nat) :
    Creation → Prop
  | .file name data _ =>
    let count := (placesBelow (blocksOf data.length)).length
    fs.InodeLeft image ∧ blocksOf data.length ≤ maxBlocks ∧ count ≤ free ∧
      fs.EntryLost image parent.toInode name count free
  | .dir name _ =>
    fs.InodeLeft image ∧ 1 ≤ free ∧
      (65535 < parent.ino ∨ fs.EntryLost image parent.toInode name 1 free)

section Undone

variable {fs : CoherentFs} {isize fsize count : Nat} {last : Option Nat} {s t u v : Session}
  {list rest taken : List Nat} {name : PosixPath} {data : List (BitVec 8)} {e : FsError}

/-- What is undone leaves as many blocks free. -/
theorem CoherentFs.Undone.length_eq (undone : fs.Undone isize fsize s list t) (nodup : list.Nodup)
    (balanced : Balanced list s rest t) : rest.length = list.length := by
  obtain ⟨last', list', consistent, balanced', same⟩ := undone.free
  have perm : list'.Perm list :=
    (List.perm_ext_iff_of_nodup consistent.stock.nodup nodup).mpr same
  rw [← perm.length_eq]
  exact balanced.length_eq balanced'

/-- Where nothing but the superblock has changed, everything is as before. -/
theorem CoherentFs.Sound.undone (sound : fs.Sound isize fsize last s.image list)
    (owner : fs.Owner isize s.image s.inode.ino s.inode.toInode)
    (only : fs.SbOnly s.image t.image) (stock : fs.Stock isize fsize last t.image list)
    (balanced : Balanced list s list t) : fs.Undone isize fsize s list t := by
  have untouched := sound.consistent.untouched_sb only owner
  refine ⟨⟨last, list, sound.consistent.sbOnly only stock, balanced, fun _ => Iff.rfl⟩,
    fun ino _ _ => ?_, untouched.fields, ?_⟩
  · rw [only.stat ino]
  · unfold CoherentFs.readDir
    rw [untouched.content]

/-- Where the new inode and its blocks are given back, everything is as before. -/
theorem CoherentFs.Dismissed.undone {image₀ : Image} {list₀ : List Nat}
    (dismissed : fs.Dismissed isize fsize image₀ list₀ v rest t)
    (slot : fs.FreeSlot isize s.image v.inode.ino)
    (free : ∀ x, x ∈ list ↔ x ∈ rest ∨ fs.Maps v.image v.inode.toInode x)
    (balanced : Balanced list s rest v)
    (slots : ∀ other, 1 ≤ other → other ≤ (isize - 2) * inodesPerBlock → other ≠ v.inode.ino →
      fs.openStat image₀ other = fs.openStat s.image other)
    (parent : fs.Untouched s.inode.ino s.inode.toInode s.image t.image) :
    fs.Undone isize fsize s list t := by
  obtain ⟨last', dropped, sound, gave, calls⟩ := dismissed.given
  refine ⟨⟨last', dropped ++ rest, sound.consistent, balanced.trans (.given calls), fun x => ?_⟩,
    fun ino real table => ?_, parent.fields, ?_⟩
  · rw [List.mem_append, gave, free, or_comm]
  · by_cases here : ino = v.inode.ino
    · rw [here, dismissed.unused, slot.unused]
    · rw [dismissed.rewrites.stat real table here, ← fs.openStat_toInode, slots ino real table here,
        fs.openStat_toInode]
  · unfold CoherentFs.readDir
    rw [parent.content]

/-- A new inode that stays is not undone. -/
theorem CoherentFs.Holding.not_undone (holding : fs.Holding isize fsize last s list count t rest) :
    ¬ fs.Undone isize fsize s list t := by
  intro undone
  have hand := holding.child.hand
  have gone := (undone.inodes _ hand.real hand.table).mpr holding.slot.unused
  rw [holding.child.owner.stat] at gone
  cases gone

/-! ## The file has not got its blocks -/

/-- The free blocks are those that are left and those that the growth has taken. -/
theorem CoherentFs.Begun.grown_free {n : Nat} (begun : fs.Begun isize fsize last s list u list)
    (grown : fs.Grown isize fsize last n u list taken rest v) (x : Nat) :
    x ∈ list ↔ x ∈ rest ∨ fs.Maps v.image v.inode.toInode x := by
  rw [grown.split, List.mem_append, or_comm]
  refine or_congr_right ⟨fun member => ?_, ?_⟩
  · obtain ⟨nonzero, p, valid, -, here⟩ := grown.used x member
    exact ⟨nonzero, p, valid, here⟩
  · rintro ⟨nonzero, p, valid, rfl⟩
    exact (grown.new valid (begun.blank valid) nonzero).2

theorem CoherentFs.Begun.full_undone {n : Nat} (begun : fs.Begun isize fsize last s list u list)
    (consistent : fs.Consistent isize fsize last s.image list)
    (owner : fs.Owner isize s.image s.inode.ino s.inode.toInode)
    (grown : fs.Grown isize fsize last n u list taken rest v)
    (dismissed : fs.Dismissed isize fsize u.image list v rest t) :
    fs.Undone isize fsize s list t := by
  have ino : v.inode.ino = u.inode.ino := by rw [grown.inode]
  have holding := begun.holding consistent (Nat.zero_add _).symm
  have ne := begun.slot.ne_owner owner
  refine dismissed.undone (ino ▸ begun.slot) (begun.grown_free grown)
    (begun.balanced.trans grown.balanced) (ino ▸ holding.slots) ((holding.others owner).trans ?_)
  refine begun.child.consistent.untouched dismissed.rewrites (ino ▸ begun.slot.real)
    (ino ▸ begun.slot.last) (begun.parent consistent owner) ?_
  rw [ino]
  exact ne.symm

/-! ## The entry fails -/

/-- The other files are still there. -/
theorem CoherentFs.Holding.owner {other : Nat} {inode : Inode}
    (holding : fs.Holding isize fsize last s list count u rest)
    (owner : fs.Owner isize s.image other inode) : fs.Owner isize u.image other inode := by
  refine ⟨owner.real, owner.last, ?_, owner.kind⟩
  rw [← fs.openStat_toInode, holding.slots other owner.real owner.last
    (holding.slot.ne_owner owner).symm, fs.openStat_toInode]
  exact owner.stat

/-- The new inode is given back while the parent stays. -/
theorem CoherentFs.Holding.dismissed (holding : fs.Holding isize fsize last s list count u rest)
    (owner : fs.Owner isize s.image s.inode.ino s.inode.toInode)
    (dismissed : fs.Dismissed isize fsize u.image rest u rest t) :
    fs.Undone isize fsize s list t := by
  have hand := holding.child.hand
  exact dismissed.undone holding.slot holding.free holding.balanced holding.slots
    ((holding.others owner).trans (holding.child.consistent.untouched dismissed.rewrites hand.real
      hand.table (holding.owner owner) (holding.slot.ne_owner owner).symm))

/-- Where the checks of the entry fail, the creation is undone but for a name outside Latin-1. -/
theorem CoherentFs.Holding.refused_iff (holding : fs.Holding isize fsize last s list count u rest)
    (owner : fs.Owner isize s.image s.inode.ino s.inode.toInode) (dir : s.inode.isDir = true)
    (valid : validateName name = .ok ())
    (refused : fs.EntryRefused { u with inode := s.inode } name u.inode.ino e)
    (handled : fs.Handled isize fsize e u.image rest u rest t) :
    fs.Undone isize fsize s list t ↔
      ¬ fs.EntryLost s.image s.inode.toInode name count list.length := by
  have body : fs.readFile u.image s.inode.toInode = fs.readFile s.image s.inode.toInode :=
    (holding.others owner).content
  unfold CoherentFs.Handled at handled
  rcases refused with invalid | ⟨other, -⟩ | clash | ⟨scanned, failed⟩
  · rw [valid] at invalid
    cases invalid
  · rw [dir] at other
    cases other
  · change scanDir (fs.readFile u.image s.inode.toInode) name = _ at clash
    rw [body] at clash
    rw [if_pos (scanDir_error clash ▸ rfl)] at handled
    refine iff_of_true (holding.dismissed owner handled) ?_
    rintro ⟨⟨reuse, scanned⟩, -⟩
    rw [clash] at scanned
    cases scanned
  · change ∃ reuse, scanDir (fs.readFile u.image s.inode.toInode) name = .ok reuse at scanned
    rw [body] at scanned
    rcases encodeDirent_error failed with ⟨wide, -⟩ | ⟨foreign, raised⟩
    · exact absurd holding.child.hand.small (by omega)
    · rw [if_neg (raised ▸ Bool.false_ne_true)] at handled
      subst handled
      exact iff_of_false holding.not_undone (not_not_intro ⟨scanned, Or.inl foreign⟩)

/-- A growth of the parent that has taken no block leaves everything as it was. -/
theorem CoherentFs.Holding.half_undone (holding : fs.Holding isize fsize last s list count u rest)
    {rest' : List Nat} (owner : fs.Owner isize s.image s.inode.ino s.inode.toInode)
    (half : fs.HalfGrown isize fsize last name s.inode e u rest [] v rest')
    (dismissed : fs.Dismissed isize fsize v.image rest' v rest' t) :
    fs.Undone isize fsize s list t := by
  obtain ⟨inode, grown, -⟩ := half.grown
  have there := holding.owner owner
  have ne := holding.slot.ne_owner owner
  have growable := holding.child.consistent.growable (s := { u with inode := s.inode }) there
  have child := holding.child.consistent.untouched half.rewrites owner.real owner.last
    holding.child.owner ne
  have parent : fs.Untouched s.inode.ino s.inode.toInode u.image v.image :=
    grown.untouched (growable.withSize _) rfl (half.slots _ owner.real owner.last)
  have hand := half.child.hand
  have split : rest = rest' := grown.split
  have again := half.child.consistent.untouched dismissed.rewrites hand.real hand.table half.owner
    (half.same ▸ ne.symm)
  refine dismissed.undone (half.same ▸ holding.slot) (fun x => ?_)
    (holding.balanced.trans grown.balanced) (fun other real table ne => ?_)
    (((holding.others owner).trans parent).trans again)
  · rw [half.same, child.maps, ← split]
    exact holding.free x
  · rw [half.same] at ne
    exact (half.slots other real table).trans (holding.slots other real table ne)

/-- A block that the parent has taken is lost. -/
theorem CoherentFs.Holding.half_lost (holding : fs.Holding isize fsize last s list count u rest)
    {rest' : List Nat} (owner : fs.Owner isize s.image s.inode.ino s.inode.toInode)
    (nodup : list.Nodup) (half : fs.HalfGrown isize fsize last name s.inode e u rest taken v rest')
    (some : taken ≠ []) (dismissed : fs.Dismissed isize fsize v.image rest' v rest' t) :
    ¬ fs.Undone isize fsize s list t := by
  intro undone
  obtain ⟨inode, grown, -⟩ := half.grown
  obtain ⟨last', dropped, sound, gave, calls⟩ := dismissed.given
  obtain ⟨x, member⟩ := List.exists_mem_of_ne_nil taken some
  have child := holding.child.consistent.untouched half.rewrites owner.real owner.last
    holding.child.owner (holding.slot.ne_owner owner)
  have own : ∀ y, y ∈ dropped ↔ fs.Maps u.image u.inode.toInode y := by
    intro y
    rw [gave, half.same, child.maps]
  have length := undone.length_eq nodup
    ((holding.balanced.trans grown.balanced).trans (.given calls))
  have free : x ∈ rest := grown.split ▸ List.mem_append_left rest' member
  have apart : x ∉ dropped ++ rest' := by
    rw [List.mem_append, own]
    rintro (maps | left)
    · exact holding.child.consistent.apart ⟨_, holding.child.owner, maps⟩ free
    · have nodup' := holding.child.consistent.stock.nodup
      rw [grown.split] at nodup'
      exact (List.nodup_append.mp nodup').2.2 x member x left rfl
  have inside : x :: (dropped ++ rest') ⊆ list := by
    intro y here
    rw [holding.free]
    rcases List.mem_cons.mp here with rfl | here
    · exact Or.inl free
    · refine (List.mem_append.mp here).symm.imp (fun left => ?_) (own y).mp
      rw [grown.split]
      exact List.mem_append_right taken left
  have fits := ((List.nodup_cons.mpr ⟨apart, sound.consistent.stock.nodup⟩).subperm inside).length_le
  rw [List.length_cons] at fits
  omega

/-- The growth that has stopped took a block where the conditions say so. -/
theorem CoherentFs.Holding.half_taken (holding : fs.Holding isize fsize last s list count u rest)
    {rest' : List Nat} (owner : fs.Owner isize s.image s.inode.ino s.inode.toInode)
    (stocked : last = none ∨ count + (fs.entryHoles s.image s.inode.toInode).length < list.length)
    (half : fs.HalfGrown isize fsize last name s.inode e u rest taken v rest') :
    fs.EntryLost s.image s.inode.toInode name count list.length ↔ taken ≠ [] := by
  obtain ⟨inode, grown, stops⟩ := half.grown
  have holes := grown.holes_length holding.child.consistent.stock.nodup
  change (fs.entryHoles u.image s.inode.toInode).length = _ at holes
  have scanned := half.ready.scanned
  change ∃ reuse, scanDir (fs.readFile u.image s.inode.toInode) name = .ok reuse at scanned
  rw [(holding.others owner).entryHoles] at holes
  rw [(holding.others owner).content] at holes scanned stops
  have length : list.length = count + (taken.length + rest'.length) := by
    rw [holding.length, grown.split, List.length_append]
  unfold CoherentFs.EntryLost
  dsimp only at holes ⊢
  generalize blocksOf (grownSize (fs.readFile s.image s.inode.toInode) s.inode.size) = n at *
  have left : ∀ {p : BlockPlace}, p.Valid → p.first < n → fs.pointer v.image inode.toInode p = 0 →
      0 < (fs.holes v.image inode.toInode n).length := fun valid before hole =>
    List.length_pos_of_mem (CoherentFs.mem_holes.mpr ⟨valid, before, hole⟩)
  -- A growth that was not stopped by the free list has filled every hole.
  have dense : (∀ idx < n, idx < maxBlocks →
      fs.pointer v.image inode.toInode (dataPlace idx) ≠ 0) →
      (fs.holes v.image inode.toInode n).length = 0 := fun present => by
    rw [CoherentFs.holes_dense present]
    rfl
  constructor
  · rintro ⟨-, ⟨c, member, wide⟩ | ⟨some, more, -⟩⟩ rfl
    · obtain ⟨entry, encoded⟩ := half.ready.encoded
      exact absurd ((encodeDirent_ok encoded).2.1 c member) (Nat.not_le.mpr wide)
    · rw [List.length_nil, Nat.zero_add] at holes length
      rcases stops with stops | ⟨-, present, -⟩
      · cases stops with
        | exhausted closed none =>
          rw [none, List.length_nil] at length
          omega
        | badLink isOpen alone =>
          rw [alone, List.length_singleton] at length
          have enough := stocked.resolve_left (isOpen ▸ Option.some_ne_none _)
          omega
        | large above whole =>
          have none := dense fun idx _ => whole idx
          omega
      · have none := dense fun idx below _ => present idx below
        omega
  · intro some
    have several := List.length_pos_of_ne_nil some
    refine ⟨scanned, Or.inr ?_⟩
    rcases stops with stops | ⟨wide, -, -⟩
    · cases stops with
      | exhausted closed none valid before hole =>
        have hole' := left valid before hole
        rw [none, List.length_nil] at length
        omega
      | badLink isOpen alone valid before hole =>
        have hole' := left valid before hole
        rw [alone, List.length_singleton] at length
        have enough := stocked.resolve_left (isOpen ▸ Option.some_ne_none _)
        omega
      | large above whole => exact ⟨by omega, by omega, Or.inr (Or.inl above)⟩
    · exact ⟨by omega, by omega, Or.inr (Or.inr wide)⟩

/-- A growth of the parent that has stopped takes no block only where nothing is lost. -/
theorem CoherentFs.Holding.half_iff (holding : fs.Holding isize fsize last s list count u rest)
    {rest' : List Nat} (consistent : fs.Consistent isize fsize last s.image list)
    (owner : fs.Owner isize s.image s.inode.ino s.inode.toInode)
    (stocked : last = none ∨ count + (fs.entryHoles s.image s.inode.toInode).length < list.length)
    (half : fs.HalfGrown isize fsize last name s.inode e u rest taken v rest')
    (handled : fs.Handled isize fsize e v.image rest' v rest' t) :
    fs.Undone isize fsize s list t ↔
      ¬ fs.EntryLost s.image s.inode.toInode name count list.length := by
  obtain ⟨inode, -, stops⟩ := half.grown
  unfold CoherentFs.Handled at handled
  rw [if_pos stops.isFsError] at handled
  rw [holding.half_taken owner stocked half, not_not]
  constructor
  · intro undone
    by_contra some
    exact holding.half_lost owner consistent.stock.nodup half some handled undone
  · rintro rfl
    exact holding.half_undone owner half handled

/-! ## The entry is written -/

/-- The entry takes a free block for each hole. -/
theorem CoherentFs.Entered.holes_le {entry : List (BitVec 8)} {off : Nat} {list' : List Nat}
    (entered : fs.Entered isize fsize last entry off s list list' t) :
    (fs.holes s.image s.inode.toInode (blocksOf s.inode.size)).length ≤ list.length := by
  have map := entered.revised.growable.map
  have present : ∀ p ∈ fs.holes s.image s.inode.toInode (blocksOf s.inode.size),
      p.Valid ∧ fs.pointer t.image t.inode.toInode p ≠ 0 := by
    intro p member
    obtain ⟨valid, before, -⟩ := CoherentFs.mem_holes.mp member
    exact ⟨valid, CoherentFs.pointer_dense (fun idx below _ => entered.present idx below) valid before⟩
  have once : ((fs.holes s.image s.inode.toInode (blocksOf s.inode.size)).map
      (fs.pointer t.image t.inode.toInode)).Nodup :=
    (fs.holes_nodup _ _ _).map_on fun p inP q inQ same =>
      map.distinct (present p inP).1 (present q inQ).1 (present p inP).2 same
  have free : (fs.holes s.image s.inode.toInode (blocksOf s.inode.size)).map
      (fs.pointer t.image t.inode.toInode) ⊆ list := by
    intro x member
    obtain ⟨p, inHoles, rfl⟩ := List.mem_map.mp member
    obtain ⟨valid, found⟩ := present p inHoles
    refine (entered.revised.mine (.of_pointer valid found)).resolve_right ?_
    rintro ⟨nonzero, q, valid', here⟩
    have old := entered.old valid' (here ▸ nonzero)
    have same := map.distinct valid' valid (old.trans_ne (here ▸ nonzero)) (old.trans here)
    rw [same, (CoherentFs.mem_holes.mp inHoles).2.2] at here
    exact nonzero here.symm
  have length := (once.subperm free).length_le
  rwa [List.length_map] at length

/-- Where the entry is written, it did not fail. -/
theorem CoherentFs.Holding.made (holding : fs.Holding isize fsize last s list count u rest)
    {list' : List Nat} {parent : OpenInode}
    (owner : fs.Owner isize s.image s.inode.ino s.inode.toInode)
    (made : fs.EntryMade isize fsize last name s.inode u rest parent t list') :
    ¬ fs.EntryLost s.image s.inode.toInode name count list.length := by
  obtain ⟨ready, -, entry, -, whole, entered⟩ := made
  have length := holding.length
  have holes := entered.holes_le
  change (fs.entryHoles u.image s.inode.toInode).length ≤ _ at holes
  rw [(holding.others owner).entryHoles] at holes
  have few := entered.few
  have fits := entered.fits
  change blocksOf (grownSize (fs.readFile u.image s.inode.toInode) s.inode.size) ≤ _ at few
  rw [(holding.others owner).content] at few fits
  rw [whole] at fits
  rintro ⟨-, ⟨c, member, wide⟩ | ⟨some, more, why⟩⟩
  · obtain ⟨entry, encoded⟩ := ready.encoded
    exact absurd ((encodeDirent_ok encoded).2.1 c member) (Nat.not_le.mpr wide)
  · rcases why with short | large | wide
    · omega
    · exact absurd few (Nat.not_le.mpr large)
    · exact absurd fits (Nat.not_le.mpr wide)

/-! ## The two creations -/

/-- A `create_file` that raises is undone but where it leaks. -/
theorem CoherentFs.FileRaises.undone_iff {mode : Nat}
    (raises : fs.FileRaises isize fsize last name data s list e t)
    (sound : fs.Sound isize fsize last s.image list)
    (owner : fs.Owner isize s.image s.inode.ino s.inode.toInode) (dir : s.inode.isDir = true)
    (valid : validateName name = .ok ())
    (stocked : last = none ∨ fs.fileNeeds s.image s.inode.toInode data < list.length) :
    fs.Undone isize fsize s list t ↔
      ¬ fs.Leaks s.image s.inode list.length (.file name data mode) := by
  cases raises with
  | refused invalid =>
    rw [valid] at invalid
    cases invalid
  | missed calls missed =>
    exact iff_of_true (sound.undone owner missed.only missed.stock ⟨[], calls, rfl⟩)
      fun leaks => missed.noneLeft leaks.1
  | full begun grown stops dismissed =>
    refine iff_of_true (begun.full_undone sound.consistent owner grown dismissed) ?_
    rintro ⟨-, few, enough, -⟩
    have holes := grown.holes_length sound.consistent.stock.nodup
    rw [CoherentFs.holes_empty begun.blank] at holes
    have length := congrArg List.length grown.split
    rw [List.length_append] at length
    cases stops with
    | exhausted closed none valid before hole =>
      have left := List.length_pos_of_mem (CoherentFs.mem_holes.mpr ⟨valid, before, hole⟩)
      rw [none, List.length_nil] at length
      omega
    | badLink isOpen alone valid before hole =>
      have left := List.length_pos_of_mem (CoherentFs.mem_holes.mpr ⟨valid, before, hole⟩)
      have many := stocked.resolve_left (isOpen ▸ Option.some_ne_none _)
      unfold CoherentFs.fileNeeds at many
      rw [alone, List.length_singleton] at length
      omega
    | large above => exact absurd few (Nat.not_le.mpr above)
  | entry begun filled refused handled =>
    have holding := begun.filled sound.consistent filled
    rw [holding.refused_iff owner dir valid (filled.ino.symm ▸ refused) handled]
    refine not_congr ⟨fun lost => ⟨begun.left, filled.over'.few, ?_, lost⟩, fun leaks => leaks.2.2.2⟩
    exact holding.length ▸ Nat.le_add_right _ _
  | parent begun filled half handled =>
    have holding := begun.filled sound.consistent filled
    rw [holding.half_iff sound.consistent owner stocked half handled]
    refine not_congr ⟨fun lost => ⟨begun.left, filled.over'.few, ?_, lost⟩, fun leaks => leaks.2.2.2⟩
    exact holding.length ▸ Nat.le_add_right _ _

theorem CoherentFs.FileMade.not_leaks {list' : List Nat} {mode : Nat}
    (made : fs.FileMade isize fsize last name data s list t list')
    (sound : fs.Sound isize fsize last s.image list)
    (owner : fs.Owner isize s.image s.inode.ino s.inode.toInode) :
    ¬ fs.Leaks s.image s.inode list.length (.file name data mode) := by
  obtain ⟨s₁, s₂, list₂, parent, begun, filled, -, made, -⟩ := made.steps
  exact fun leaks => (begun.filled sound.consistent filled).made owner made leaks.2.2.2

/-- A `create_dir` that raises is undone but where it leaks. -/
theorem CoherentFs.DirRaises.undone_iff {mode : Nat}
    (raises : fs.DirRaises isize fsize last name s list e t)
    (sound : fs.Sound isize fsize last s.image list)
    (owner : fs.Owner isize s.image s.inode.ino s.inode.toInode) (dir : s.inode.isDir = true)
    (valid : validateName name = .ok ())
    (stocked : last = none ∨ fs.dirNeeds s.image s.inode.toInode < list.length) :
    fs.Undone isize fsize s list t ↔
      ¬ fs.Leaks s.image s.inode list.length (.dir name mode) := by
  cases raises with
  | refused invalid =>
    rw [valid] at invalid
    cases invalid
  | missed calls missed =>
    exact iff_of_true (sound.undone owner missed.only missed.stock ⟨[], calls, rfl⟩)
      fun leaks => missed.noneLeft leaks.1
  | @full _ ino slot left alone sound' rewrites unused calls =>
    have untouched := sound.consistent.untouched rewrites slot.real slot.last owner
      (slot.ne_owner owner).symm
    refine iff_of_true ⟨⟨last, list, sound'.consistent, ⟨[_, _], calls, rfl⟩, fun _ => Iff.rfl⟩,
      fun other real table => ?_, untouched.fields, ?_⟩ ?_
    · by_cases here : other = ino
      · rw [here, unused, slot.unused]
      · rw [rewrites.stat real table here]
    · unfold CoherentFs.readDir
      rw [untouched.content]
    · rintro ⟨-, some, -⟩
      rcases alone with ⟨-, rfl, -⟩ | ⟨b, n, isOpen, rfl, -⟩
      · cases some
      · have many := stocked.resolve_left (isOpen ▸ Option.some_ne_none _)
        unfold CoherentFs.dirNeeds at many
        rw [List.length_singleton] at many
        omega
  | wide slot left split large raised only stock calls =>
    refine iff_of_false (fun undone => ?_)
      (not_not_intro ⟨left, split ▸ Nat.succ_pos _, Or.inl large⟩)
    have length := undone.length_eq sound.consistent.stock.nodup
      ⟨[_, _], calls, by rw [split]; rfl⟩
    rw [split, List.length_cons] at length
    omega
  | entry split begun narrow refused handled =>
    have holding := begun.holding sound.consistent (by rw [split, Nat.add_comm]; rfl)
    rw [holding.refused_iff owner dir valid refused handled]
    refine not_congr ⟨fun lost => ⟨begun.left, split ▸ Nat.succ_pos _, Or.inr lost⟩, fun leaks => ?_⟩
    exact leaks.2.2.resolve_left (Nat.not_lt.mpr narrow)
  | parent split begun narrow half handled =>
    have holding := begun.holding sound.consistent (by rw [split, Nat.add_comm]; rfl)
    rw [holding.half_iff sound.consistent owner stocked half handled]
    refine not_congr ⟨fun lost => ⟨begun.left, split ▸ Nat.succ_pos _, Or.inr lost⟩, fun leaks => ?_⟩
    exact leaks.2.2.resolve_left (Nat.not_lt.mpr narrow)

theorem CoherentFs.DirMade.not_leaks {list' : List Nat} {mode : Nat}
    (made : fs.DirMade isize fsize last name s list t list')
    (sound : fs.Sound isize fsize last s.image list)
    (owner : fs.Owner isize s.image s.inode.ino s.inode.toInode) :
    ¬ fs.Leaks s.image s.inode list.length (.dir name mode) := by
  obtain ⟨s₁, s₂, b, rest, entered, parent, split, begun, -, entry, -⟩ := made.steps
  have holding := begun.holding sound.consistent (by rw [split, Nat.add_comm]; rfl)
  rintro ⟨-, -, large | lost⟩
  · exact absurd made.narrow (Nat.not_le.mpr large)
  · exact holding.made owner entry lost

/-- How a creation ends, as the leaks have it. -/
theorem CoherentFs.Sound.create_undone {creation : Creation}
    (sound : fs.Sound isize fsize last s.image list)
    (owner : fs.Owner isize s.image s.inode.ino s.inode.toInode) (dir : s.inode.isDir = true)
    (valid : validateName creation.name = .ok ())
    (stocked : last = none ∨ fs.needs s.image s.inode.toInode creation < list.length) :
    Ends (fs.create creation) s
      (fun _ _ => ¬ fs.Leaks s.image s.inode list.length creation)
      fun _ t => fs.Undone isize fsize s list t ↔
        ¬ fs.Leaks s.image s.inode list.length creation := by
  have enough : ∀ {t}, ¬ Overdrawn last (fs.needs s.image s.inode.toInode creation) list s t := by
    rintro t ⟨⟨isOpen, -⟩, most⟩
    exact absurd most (Nat.not_le.mpr (stocked.resolve_left isOpen))
  cases creation with
  | file name data mode =>
    refine (sound.createFile owner).mono (fun _ t ends => ?_) fun e t ends => ?_
    · obtain ⟨list', made⟩ := ends.resolve_right enough
      exact made.not_leaks sound owner
    · exact (ends.resolve_right enough).undone_iff sound owner dir valid stocked
  | dir name mode =>
    refine (sound.createDir owner).mono (fun _ t ends => ?_) fun e t ends => ?_
    · obtain ⟨list', made⟩ := ends.resolve_right enough
      exact made.not_leaks sound owner
    · exact (ends.resolve_right enough).undone_iff sound owner dir valid stocked

end Undone

/-- A creation that raises gives everything back exactly where it does not leak. -/
theorem CoherentFs.create_undone_iff (fs : CoherentFs) {isize fsize : Nat} {last : Option Nat}
    {s : Session} {list : List Nat} {creation : Creation}
    (sound : fs.Sound isize fsize last s.image list)
    (owner : fs.Owner isize s.image s.inode.ino s.inode.toInode) (dir : s.inode.isDir = true)
    (valid : validateName creation.name = .ok ())
    (stocked : last = none ∨ fs.needs s.image s.inode.toInode creation < list.length) :
    (∀ e t, fs.create creation s = .error e t → fs.Undone isize fsize s list t) ↔
      ¬ fs.Leaks s.image s.inode list.length creation := by
  have ends := sound.create_undone owner dir valid stocked
  unfold Ends at ends
  cases ran : fs.create creation s with
  | ok _ t =>
    rw [ran] at ends
    exact iff_of_true (fun e u raised => by cases raised) ends
  | error e t =>
    rw [ran] at ends
    refine Iff.trans ?_ ends
    refine ⟨fun undone => undone e t rfl, fun undone e' u raised => ?_⟩
    cases raised
    exact undone

theorem slotImage_cache : CoherentFs.InodeCache ⟨0⟩ 3 slotImage := by
  have empty : cachedInodes (slotImage.readBlock (0 + 1)) = [] := by decide
  refine ⟨by decide, empty.symm ▸ List.nodup_nil, fun ino member => ?_⟩
  rw [empty] at member
  cases member

/-- Whether an inode is in use after a run that raises. -/
def usedAfterRaise (fs : CoherentFs) (ino : Nat) : EStateM.Result FsError Session Unit → Option Bool
  | .ok _ _ => none
  | .error _ t => some (fs.stat t.image ino).isSome

/-- A name outside Latin-1 leaves inode 8 behind. -/
theorem create_leaks_slot :
    CoherentFs.Leaks ⟨0⟩ slotImage (slotDir 3) 0 (.file [Char.ofNat 256] [] 0) := by
  have run : usedAfterRaise ⟨0⟩ 8 (CoherentFs.create ⟨0⟩ (.file [Char.ofNat 256] [] 0)
      (slotSession slotImage 3)) = some true := by decide +kernel
  have valid : validateName (Creation.name (.file [Char.ofNat 256] [] 0)) = .ok () := by decide
  have ends := CoherentFs.create_undone_iff ⟨0⟩ (s := slotSession slotImage 3)
    ⟨slotImage_consistent, slotImage_cache⟩ slotImage_owner (by decide) valid (Or.inl rfl)
  by_contra kept
  cases ran : CoherentFs.create ⟨0⟩ (.file [Char.ofNat 256] [] 0) (slotSession slotImage 3) with
  | ok _ t =>
    rw [ran] at run
    cases run
  | error e t =>
    rw [ran] at run
    have undone := ends.mpr kept e t ran
    have free : CoherentFs.stat ⟨0⟩ t.image 8 = none :=
      (undone.inodes 8 (by decide) (by decide)).mpr (by decide)
    have used := Option.some.inj run
    rw [free] at used
    cases used

end C900
