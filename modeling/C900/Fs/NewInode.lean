import C900.Fs.Creating
import C900.Fs.Untouched

/-!
# The new inode of a creation

The new inode takes its slot, alone or with its first block, and then gets the blocks of its data.
All the while the free blocks from before are those that are still free and those of the new inode,
and every other file is as before.
-/

namespace C900

/-- The new inode is in its slot, at `t` with `list'` still free. -/
structure CoherentFs.Begun (fs : CoherentFs) (isize fsize : Nat) (last : Option Nat) (s : Session)
    (list : List Nat) (t : Session) (list' : List Nat) : Prop where
  slot : fs.FreeSlot isize s.image t.inode.ino
  left : fs.InodeLeft s.image
  child : fs.Child isize fsize last t list'
  free : ∀ x, x ∈ list ↔ x ∈ list' ∨ fs.Maps t.image t.inode.toInode x
  rewrites : fs.Rewrites isize t.inode.ino list s.image t.image
  calls : BlockCalls { s with calls := .tookInode t.inode.ino :: s.calls } t
  balanced : Balanced list s list' t
  onDisk : fs.openStat t.image t.inode.ino = some t.inode.masked

/-- A new directory: `.` and `..` in a block of its own. -/
structure CoherentFs.EmptyDir (fs : CoherentFs) (image : Image) (inode : OpenInode) : Prop where
  dir : inode.isDir = true
  links : inode.nlinks = 2
  size : inode.size = 2 * direntSize
  entries : fs.readDir image inode.toInode = []
  present : fs.pointer image inode.toInode (dataPlace 0) ≠ 0
  only : ∀ {p : BlockPlace}, p.Valid → 1 ≤ p.first → fs.pointer image inode.toInode p = 0

/-- A creation underway from `s`: the new inode of `t` has `count` blocks, and `rest` is free. -/
structure CoherentFs.Holding (fs : CoherentFs) (isize fsize : Nat) (last : Option Nat) (s : Session)
    (list : List Nat) (count : Nat) (t : Session) (rest : List Nat) : Prop where
  slot : fs.FreeSlot isize s.image t.inode.ino
  left : fs.InodeLeft s.image
  child : fs.Child isize fsize last t rest
  slots : ∀ other, 1 ≤ other → other ≤ (isize - 2) * inodesPerBlock → other ≠ t.inode.ino →
    fs.openStat t.image other = fs.openStat s.image other
  others : ∀ {other inode}, fs.Owner isize s.image other inode →
    fs.Untouched other inode s.image t.image
  length : list.length = count + rest.length
  free : ∀ x, x ∈ list ↔ x ∈ rest ∨ fs.Maps t.image t.inode.toInode x
  balanced : Balanced list s rest t

section NewInode

variable {fs : CoherentFs} {isize fsize count : Nat} {last : Option Nat} {s t u : Session}
  {list list' rest : List Nat} {data : List (BitVec 8)}

/-- A new inode without blocks. -/
theorem newInode_blank (ino mode nlinks size now root : Nat) :
    (newInode ino mode nlinks size (List.replicate 13 0) now).toInode.addrs.getD root 0 = 0 := by
  change (List.replicate 13 0).getD root 0 = 0
  rw [List.getD_eq_getElem?_getD, List.getElem?_replicate]
  split <;> rfl

theorem newInode_ownMap (fs : CoherentFs) (area : Nat → Prop) (image : Image)
    (ino mode nlinks size now : Nat) :
    fs.OwnMap area image (newInode ino mode nlinks size (List.replicate 13 0) now).toInode := by
  have none := newInode_blank ino mode nlinks size now
  exact CoherentFs.ownMap_direct rfl (fun root _ _ => none root)
    (fun root _ found => absurd (none root) found) fun root _ _ _ found => absurd (none root) found

theorem newInode_pointer (fs : CoherentFs) (image : Image) (ino mode nlinks size now : Nat)
    (p : BlockPlace) :
    fs.pointer image (newInode ino mode nlinks size (List.replicate 13 0) now).toInode p = 0 := by
  unfold CoherentFs.pointer
  rw [newInode_blank]
  exact PointerTree.follow_zero _

/-- The new inode of a directory has its first block. -/
theorem newInode_addrs (ino mode nlinks size b now root : Nat) :
    (newInode ino mode nlinks size (b :: List.replicate 12 0) now).toInode.addrs.getD root 0 =
      if root = 0 then b else 0 := by
  change (b :: List.replicate 12 0).getD root 0 = _
  cases root with
  | zero => rfl
  | succ root =>
    rw [List.getD_cons_succ, List.getD_eq_getElem?_getD, List.getElem?_replicate,
      if_neg (Nat.succ_ne_zero root)]
    split <;> rfl

theorem newInode_direct (ino mode nlinks size b now : Nat) : ∀ root < rootCount, nDirect ≤ root →
    (newInode ino mode nlinks size (b :: List.replicate 12 0) now).toInode.addrs.getD root 0 = 0 := by
  intro root _ tree
  rw [newInode_addrs, if_neg]
  rintro rfl
  exact absurd tree (by decide)

theorem newInode_ownMap_block (fs : CoherentFs) {area : Nat → Prop} (image : Image)
    (ino mode nlinks size now : Nat) {b : Nat} (known : area b) :
    fs.OwnMap area image (newInode ino mode nlinks size (b :: List.replicate 12 0) now).toInode := by
  have first : ∀ root,
      (newInode ino mode nlinks size (b :: List.replicate 12 0) now).toInode.addrs.getD root 0 ≠ 0 →
        root = 0 := by
    intro root found
    rw [newInode_addrs] at found
    exact (ite_ne_right_iff.mp found).1
  refine CoherentFs.ownMap_direct rfl (newInode_direct _ _ _ _ _ _) (fun root _ found => ?_)
    fun root _ root' _ found same => (first root found).trans (first root' (same ▸ found)).symm
  rw [newInode_addrs, if_pos (first root found)]
  exact known

theorem newInode_maps (fs : CoherentFs) (image : Image) (ino mode nlinks size now : Nat) {b x : Nat}
    (nonzero : b ≠ 0) :
    fs.Maps image (newInode ino mode nlinks size (b :: List.replicate 12 0) now).toInode x ↔
      x = b := by
  constructor
  · rintro ⟨found, p, valid, rfl⟩
    obtain ⟨-, -, here⟩ := CoherentFs.pointer_direct (newInode_direct _ _ _ _ _ _) valid found
    rw [here, newInode_addrs] at found ⊢
    rw [if_pos (ite_ne_right_iff.mp found).1]
  · rintro rfl
    refine ⟨nonzero, ⟨0, []⟩, ⟨by decide, Nat.zero_le _, fun _ none => absurd none List.not_mem_nil⟩, ?_⟩
    unfold CoherentFs.pointer
    rw [PointerTree.follow_nil, newInode_addrs, if_pos rfl]

theorem newInode_first (fs : CoherentFs) (image : Image) (ino mode nlinks size b now : Nat) :
    fs.pointer image (newInode ino mode nlinks size (b :: List.replicate 12 0) now).toInode
      (dataPlace 0) = b := by
  unfold CoherentFs.pointer
  rw [newInode_addrs]
  rfl

/-- A new directory has no entries but those for itself and for its parent. -/
theorem CoherentFs.newDir_empty (fs : CoherentFs) {image : Image} {ino parent mode b now : Nat}
    {dot dotDot : List (BitVec 8)} (kind : mode &&& 0xF000 = sIfdir) (nonzero : b ≠ 0)
    (self : encodeDirent ino ['.'] = .ok dot)
    (up : encodeDirent parent PosixPath.dotDot = .ok dotDot)
    (block : ∀ k < blockSize, image.readBlock (fs.partOff + b) k = dirBlock dot dotDot k) :
    fs.EmptyDir image (newInode ino mode 2 (2 * direntSize) (b :: List.replicate 12 0) now) := by
  have first := fun size => newInode_first fs image ino mode 2 size b now
  have length := encodeDirent_length self (by decide)
  have length' := encodeDirent_length up (by decide)
  have dir : (newInode ino mode 2 (2 * direntSize) (b :: List.replicate 12 0) now).isDir = true :=
    beq_iff_eq.mpr kind
  have few : blocksOf (2 * direntSize) ≤ maxBlocks := by decide
  have content : fs.readFile image
      (newInode ino mode 2 (2 * direntSize) (b :: List.replicate 12 0) now).toInode =
        dot ++ dotDot := by
    rw [CoherentFs.readFile_whole rfl few]
    refine List.ext_getElem ?_ fun i inMap inEntries => ?_
    · rw [List.length_map, List.length_range, List.length_append, length, length']
      rfl
    · rw [List.length_append, length, length'] at inEntries
      have small : i < blockSize := Nat.lt_trans inEntries (by decide)
      have div : i / blockSize = 0 := Nat.div_eq_of_lt small
      rw [List.getElem_map, List.getElem_range, CoherentFs.fileByte_present, div, first,
        Nat.mod_eq_of_lt small, block i small]
      · unfold dirBlock
        rw [List.getD_eq_getElem?_getD, List.getElem?_eq_getElem]
        rfl
      · rw [div, first]
        exact nonzero
  refine ⟨dir, rfl, rfl, ?_, (first _).symm ▸ nonzero, fun {p} valid high => ?_⟩
  · rw [CoherentFs.readDir_eq dir, content, dirEntries_append (n := 1) (by rw [length]; rfl),
      dirEntries_single length, dirEntries_single length', readDirent_dots self (Or.inl rfl),
      readDirent_dots up (Or.inr rfl)]
    rfl
  · by_contra found
    obtain ⟨direct, path, here⟩ := CoherentFs.pointer_direct (newInode_direct _ _ _ _ _ _) valid found
    rw [here, newInode_addrs] at found
    obtain ⟨root, rest⟩ := p
    dsimp only at direct path found
    rw [(ite_ne_right_iff.mp found).1, path] at high
    exact absurd high (by decide)

/-- The parent is another file than the new one. -/
theorem CoherentFs.FreeSlot.ne_owner {ino other : Nat} {inode : Inode} {image : Image}
    (slot : fs.FreeSlot isize image ino) (owner : fs.Owner isize image other inode) :
    ino ≠ other := by
  rintro rfl
  have stat := owner.stat
  rw [slot.unused] at stat
  cases stat

/-- The parent stays while the new file is made. -/
theorem CoherentFs.Begun.parent {inode : OpenInode}
    (begun : fs.Begun isize fsize last s list t list')
    (consistent : fs.Consistent isize fsize last s.image list)
    (owner : fs.Owner isize s.image inode.ino inode.toInode) :
    fs.Owner isize t.image inode.ino inode.toInode :=
  (consistent.keeps begun.rewrites begun.slot.real begun.slot.last owner
    (begun.slot.ne_owner owner).symm).1

/-- The parent stays while the new file is filled. -/
theorem CoherentFs.Filled.parent {inode : OpenInode}
    (filled : fs.Filled isize fsize last data s list t list')
    (child : fs.Child isize fsize last s list) (ne : inode.ino ≠ s.inode.ino)
    (owner : fs.Owner isize s.image inode.ino inode.toInode) :
    fs.Owner isize t.image inode.ino inode.toInode :=
  (child.consistent.keeps filled.rewrites child.hand.real child.hand.table owner ne).1

theorem CoherentFs.Filled.ino (filled : fs.Filled isize fsize last data s list t list') :
    t.inode.ino = s.inode.ino := filled.over'.revised.ino

/-- The inode that was taken is put into its slot, on blocks that were taken with it. -/
theorem CoherentFs.Consistent.begin {u : Session}
    (consistent : fs.Consistent isize fsize last s.image list) (log : List AllocCall) (left : fs.InodeLeft s.image)
    (slot : fs.FreeSlot isize s.image u.inode.ino) (hand : fs.InHand isize u.image u.inode.ino)
    (frame : Image.AgreeExcept (fun bno => bno = fs.partOff + 1 ∨
      ∃ x, bno = fs.partOff + x ∧ x ∈ list) s.image u.image)
    (stock : fs.Stock isize fsize last u.image list') (sub : ∀ x ∈ list', x ∈ list)
    (calls : u.calls = log ++ .tookInode u.inode.ino :: s.calls)
    (blocks : ∀ call ∈ log, call.ofBlock = true)
    (count : list'.length + log.countP AllocCall.isTookBlock =
      list.length + log.countP AllocCall.isGaveBlock)
    (mode : u.inode.mode < 65536) (kind : u.inode.isFile = true ∨ u.inode.isDir = true)
    (size : u.inode.size < 2 ^ 32)
    (map : ∀ image, fs.OwnMap (fun x => x ∈ list ∧ x ∉ list') image u.inode.toInode)
    (free : ∀ image x, x ∈ list ↔ x ∈ list' ∨ fs.Maps image u.inode.toInode x) :
    Ends fs.writeInode u
      (fun _ t => t.inode = u.inode ∧
        Image.AgreeExcept (· = fs.inodeBlock u.inode.ino) u.image t.image ∧
        fs.Begun isize fsize last s list t list') noRaise := by
  refine (consistent.writeNew slot hand frame stock sub mode kind size map).mono ?_ fun _ _ => id
  rintro - t ⟨same, calls', onDisk, agree, child, rewrites⟩
  rw [← calls', ← same] at calls
  refine ⟨same, agree, same ▸ slot, left, child, same ▸ free t.image, same ▸ rewrites, ⟨log, calls, blocks⟩,
    ⟨log ++ [.tookInode t.inode.ino], ?_, ?_⟩, same ▸ onDisk⟩
  · rw [calls, List.append_assoc]
    rfl
  · rw [List.countP_append, List.countP_append]
    exact count

/-! ## The blocks of the new inode -/

theorem CoherentFs.Begun.holding (begun : fs.Begun isize fsize last s list t rest)
    (consistent : fs.Consistent isize fsize last s.image list)
    (length : list.length = count + rest.length) :
    fs.Holding isize fsize last s list count t rest :=
  ⟨begun.slot, begun.left, begun.child, begun.rewrites.others, fun owner =>
    consistent.untouched begun.rewrites begun.slot.real begun.slot.last owner
      (begun.slot.ne_owner owner).symm, length, begun.free, begun.balanced⟩

/-- Where no block was taken, the new inode has none. -/
theorem CoherentFs.Begun.blank (begun : fs.Begun isize fsize last s list t list) {p : BlockPlace}
    (valid : p.Valid) : fs.pointer t.image t.inode.toInode p = 0 := by
  by_contra found
  have maps := CoherentFs.Maps.of_pointer valid found
  exact begun.child.consistent.apart ⟨_, begun.child.owner, maps⟩ ((begun.free _).mpr (Or.inr maps))

/-- A file without blocks gets a free block for each place of its data. -/
theorem CoherentFs.Filled.perm (filled : fs.Filled isize fsize last data s list t list')
    (child : fs.Child isize fsize last s list)
    (blank : ∀ {p : BlockPlace}, p.Valid → fs.pointer s.image s.inode.toInode p = 0) :
    (∀ x, x ∈ (placesBelow (blocksOf data.length)).map (fs.pointer t.image t.inode.toInode) ↔
        fs.Maps t.image t.inode.toInode x) ∧
      list.Perm
        ((placesBelow (blocksOf data.length)).map (fs.pointer t.image t.inode.toInode) ++ list') := by
  have revised := filled.over'.revised
  have map := revised.growable.map
  have present : ∀ p ∈ placesBelow (blocksOf data.length),
      fs.pointer t.image t.inode.toInode p ≠ 0 := by
    intro p member
    obtain ⟨valid, before⟩ := mem_placesBelow.mp member
    exact CoherentFs.pointer_dense (fun idx below _ => (filled.over'.chunks idx below).1) valid before
  have own : ∀ x,
      x ∈ (placesBelow (blocksOf data.length)).map (fs.pointer t.image t.inode.toInode) ↔
        fs.Maps t.image t.inode.toInode x := by
    intro x
    rw [List.mem_map]
    constructor
    · rintro ⟨p, member, rfl⟩
      exact .of_pointer (mem_placesBelow.mp member).1 (present p member)
    · rintro ⟨nonzero, p, valid, here⟩
      refine ⟨p, mem_placesBelow.mpr ⟨valid, ?_⟩, here⟩
      by_contra beyond
      have gone := filled.over'.ends (Or.inr fun valid _ => blank valid) valid (Nat.not_lt.mp beyond)
      exact nonzero (here.symm.trans gone)
  have none : ∀ {x}, ¬ fs.Maps s.image s.inode.toInode x := by
    rintro x ⟨nonzero, p, valid, here⟩
    exact nonzero (here.symm.trans (blank valid))
  refine ⟨own, (List.perm_ext_iff_of_nodup child.consistent.stock.nodup ?_).mpr fun x => ?_⟩
  · refine List.nodup_append.mpr ⟨?_, revised.growable.stock.nodup, ?_⟩
    · refine (placesBelow_nodup _).map_on fun p inP q inQ same => ?_
      exact map.distinct (mem_placesBelow.mp inP).1 (mem_placesBelow.mp inQ).1 (present p inP) same
    · rintro x maps y free rfl
      exact ((revised.free x).mp free).2 ((own x).mp maps)
  · rw [List.mem_append, own, revised.free]
    constructor
    · intro free
      by_cases maps : fs.Maps t.image t.inode.toInode x
      · exact Or.inl maps
      · exact Or.inr ⟨Or.inl free, maps⟩
    · rintro (maps | ⟨before, -⟩)
      · exact (revised.mine maps).resolve_right none
      · exact before.resolve_right none

/-- The new file with its data. -/
theorem CoherentFs.Begun.filled (begun : fs.Begun isize fsize last s list t list)
    (consistent : fs.Consistent isize fsize last s.image list)
    (filled : fs.Filled isize fsize last data t list u list') :
    fs.Holding isize fsize last s list (placesBelow (blocksOf data.length)).length u list' := by
  obtain ⟨own, perm⟩ := filled.perm begun.child fun {_} => begun.blank
  have holding := begun.holding consistent (Nat.zero_add list.length).symm
  have ino := filled.ino
  refine ⟨ino ▸ holding.slot, holding.left, filled.child, fun other real table ne => ?_,
    fun owner => ?_, ?_, fun x => ?_, holding.balanced.trans filled.over'.revised.balanced⟩
  · rw [ino] at ne
    exact (filled.rewrites.others other real table ne).trans (holding.slots other real table ne)
  · have there := (consistent.keeps begun.rewrites begun.slot.real begun.slot.last owner
      (begun.slot.ne_owner owner).symm).1
    exact (holding.others owner).trans (begun.child.consistent.untouched filled.rewrites
      begun.child.hand.real begun.child.hand.table there (begun.slot.ne_owner owner).symm)
  · rw [perm.length_eq, List.length_append, List.length_map]
  · rw [perm.mem_iff, List.mem_append, own, or_comm]

end NewInode

end C900
