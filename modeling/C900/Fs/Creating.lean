import C900.Fs.Abandoned
import C900.Fs.AddEntry
import C900.Fs.CallLog

/-!
# The steps of creating a file

`create_file` and `create_dir` take an inode, put it on the disk, give it its blocks and enter it
into its parent. Between these steps the partition is consistent, with the new inode as one of its
files and with the number out of the cache; a handler clears the inode again.
-/

namespace C900

/-- The partition is consistent, and its inode cache holds distinct free slots. -/
structure CoherentFs.Sound (fs : CoherentFs) (isize fsize : Nat) (last : Option Nat) (image : Image)
    (list : List Nat) : Prop where
  consistent : fs.Consistent isize fsize last image list
  cache : fs.InodeCache isize image

/-- The number `ino` of the table is not in the cache, and it can be given back. -/
structure CoherentFs.InHand (fs : CoherentFs) (isize : Nat) (image : Image) (ino : Nat) : Prop where
  real : 1 ≤ ino
  table : ino ≤ (isize - 2) * inodesPerBlock
  small : ino < 65536
  cache : fs.InodeCache isize image
  fresh : ino ∉ cachedInodes (image.readBlock (fs.partOff + 1))
  room : (image.readBlock (fs.partOff + 1)).get16 sbTinode < 65535

/-- The new inode `s.inode` is one of the files. -/
structure CoherentFs.Child (fs : CoherentFs) (isize fsize : Nat) (last : Option Nat) (s : Session)
    (list : List Nat) : Prop where
  consistent : fs.Consistent isize fsize last s.image list
  owner : fs.Owner isize s.image s.inode.ino s.inode.toInode
  hand : fs.InHand isize s.image s.inode.ino

/-- The content of the new file is written. -/
structure CoherentFs.Filled (fs : CoherentFs) (isize fsize : Nat) (last : Option Nat)
    (data : List (BitVec 8)) (s : Session) (list : List Nat) (t : Session) (list' : List Nat) :
    Prop where
  over' : fs.Overwrote isize fsize last data s list list' t
  child : fs.Child isize fsize last t list'
  rewrites : fs.Rewrites isize s.inode.ino list s.image t.image

/-- The parent is written again, while the new file stays. -/
structure CoherentFs.Linked (fs : CoherentFs) (isize fsize : Nat) (last : Option Nat)
    (parent : OpenInode) (s : Session) (list : List Nat) (inode : OpenInode) (t : Session)
    (list' : List Nat) : Prop where
  child : fs.Child isize fsize last t list'
  same : t.inode = s.inode
  revised : fs.Revised isize fsize last { s with inode := parent } list list'
    { t with inode := inode }
  narrow : inode.size < 2 ^ 32
  owner : fs.Owner isize t.image parent.ino inode.toInode
  rewrites : fs.Rewrites isize parent.ino list s.image t.image

/-- The parent has got its entry by this write. -/
structure CoherentFs.EntryMade (fs : CoherentFs) (isize fsize : Nat) (last : Option Nat)
    (name : PosixPath) (parent : OpenInode) (s : Session) (list : List Nat) (inode : OpenInode)
    (t : Session) (list' : List Nat) : Prop where
  ready : fs.EntryReady { s with inode := parent } name s.inode.ino
  valid : validateName name = .ok ()
  entered : ∃ entry, encodeDirent s.inode.ino name = .ok entry ∧ entry.length = direntSize ∧
    fs.Entered isize fsize last entry
    (entryOffset (fs.readFile s.image parent.toInode) parent.size)
    (Session.withSize { s with inode := parent }
      (grownSize (fs.readFile s.image parent.toInode) parent.size))
    list list' { t with inode := inode }

/-- The parent was not grown to its end, and its inode is not written. -/
structure CoherentFs.HalfGrown (fs : CoherentFs) (isize fsize : Nat) (last : Option Nat)
    (name : PosixPath) (parent : OpenInode) (e : FsError) (s : Session) (list taken : List Nat)
    (t : Session) (rest : List Nat) : Prop where
  ready : fs.EntryReady { s with inode := parent } name s.inode.ino
  child : fs.Child isize fsize last t rest
  same : t.inode = s.inode
  grown : ∃ inode, fs.Grown isize fsize last
      (blocksOf (grownSize (fs.readFile s.image parent.toInode) parent.size))
      (Session.withSize { s with inode := parent }
        (grownSize (fs.readFile s.image parent.toInode) parent.size))
      list taken rest { t with inode := inode } ∧
    fs.EntryStops last (entryOffset (fs.readFile s.image parent.toInode) parent.size)
      (blocksOf (grownSize (fs.readFile s.image parent.toInode) parent.size)) rest
      { t with inode := inode } e
  slots : ∀ other, 1 ≤ other → other ≤ (isize - 2) * inodesPerBlock →
    fs.openStat t.image other = fs.openStat s.image other
  owner : fs.Owner isize t.image parent.ino parent.toInode
  rewrites : fs.Rewrites isize parent.ino list s.image t.image

/-- The new inode of `s` is given back with its blocks. -/
structure CoherentFs.Dismissed (fs : CoherentFs) (isize fsize : Nat) (image₀ : Image)
    (list₀ : List Nat) (s : Session) (list : List Nat) (t : Session) : Prop where
  given : ∃ last' dropped, fs.Sound isize fsize last' t.image (dropped ++ list) ∧
    (∀ x, x ∈ dropped ↔ fs.Maps s.image s.inode.toInode x) ∧
    t.calls = .gaveInode s.inode.ino :: (dropped.map AllocCall.gaveBlock ++ s.calls)
  rewrites : fs.Rewrites isize s.inode.ino list₀ image₀ t.image
  unused : fs.stat t.image s.inode.ino = none

section Steps

variable {fs : CoherentFs} {isize fsize ino n : Nat} {last last' : Option Nat}
  {image after : Image} {list list' taken rest : List Nat} {s t : Session} {inode : Inode}

/-! ## The inode cache -/

theorem CoherentFs.CacheKept.tinode (kept : fs.CacheKept image after) :
    (after.readBlock (fs.partOff + 1)).get16 sbTinode =
      (image.readBlock (fs.partOff + 1)).get16 sbTinode :=
  Buffer.get16_congr _ (kept _ (Or.inr (by decide))) (kept _ (Or.inr (by decide)))

theorem CoherentFs.InHand.keep (hand : fs.InHand isize image ino) (kept : fs.CacheKept image after)
    (slots : ∀ other ∈ cachedInodes (image.readBlock (fs.partOff + 1)),
      fs.stat after other = fs.stat image other) : fs.InHand isize after ino := by
  refine ⟨hand.real, hand.table, hand.small, hand.cache.keep kept slots, ?_, ?_⟩
  · rw [hand.cache.cached kept]
    exact hand.fresh
  · rw [kept.tinode]
    exact hand.room

/-- A cached slot is not one of the files. -/
theorem CoherentFs.InodeCache.apart (cache : fs.InodeCache isize image)
    (owner : fs.Owner isize image ino inode) :
    ino ∉ cachedInodes (image.readBlock (fs.partOff + 1)) := by
  intro member
  have stat := owner.stat
  rw [(cache.free ino member).unused] at stat
  cases stat

/-- The cached slots stay where an inode that is not cached is rewritten. -/
theorem CoherentFs.InodeCache.slots (cache : fs.InodeCache isize image)
    (rewrites : fs.Rewrites isize ino list image after)
    (apart : ino ∉ cachedInodes (image.readBlock (fs.partOff + 1))) :
    ∀ other ∈ cachedInodes (image.readBlock (fs.partOff + 1)),
      fs.stat after other = fs.stat image other := by
  intro other member
  have slot := cache.free other member
  exact rewrites.stat slot.real slot.last fun same => apart (same ▸ member)

/-- The number stays in hand while the inode is rewritten. -/
theorem CoherentFs.InHand.rewrite (hand : fs.InHand isize image ino)
    (kept : fs.CacheKept image after) (rewrites : fs.Rewrites isize ino list image after) :
    fs.InHand isize after ino :=
  hand.keep kept (hand.cache.slots rewrites hand.fresh)

/-- A rewritten file lies before and after in a slot that is in use. -/
theorem CoherentFs.Rewrites.used (rewrites : fs.Rewrites isize ino list image after)
    (owner : fs.Owner isize after ino inode) {other : Nat} (real : 1 ≤ other)
    (table : other ≤ (isize - 2) * inodesPerBlock) (used : fs.stat image other ≠ none) :
    fs.stat after other ≠ none := by
  by_cases here : other = ino
  · rw [here, owner.stat]
    exact Option.some_ne_none _
  · rw [rewrites.stat real table here]
    exact used

/-! ## Steps of a session -/

/-- A step on the image leaves the rest of the session. -/
theorem Ends.session {α : Type} {x : FsM α} {Q : α → Image → Prop} {E : FsError → Image → Prop}
    (ends : Ends x s.image Q E) :
    Ends (onImage x) s (fun a t => ∃ image, t = { s with image := image } ∧ Q a image)
      fun e t => ∃ image, t = { s with image := image } ∧ E e image := by
  unfold Ends onImage at *
  cases ran : x s.image with
  | ok a image =>
    rw [ran] at ends
    exact ⟨image, rfl, ends⟩
  | error e image =>
    rw [ran] at ends
    exact ⟨image, rfl, ends⟩

/-- A step on the parent keeps the inode of the session. -/
theorem Ends.onParent {parent : OpenInode} {x : WriteM Unit} {Q : Unit → Session → Prop}
    {E : FsError → Session → Prop} (ends : Ends x { s with inode := parent } Q E) :
    Ends (C900.onParent parent x) s
      (fun inode t => t.inode = s.inode ∧ Q ⟨⟩ { t with inode := inode })
      fun e t => t.inode = s.inode ∧ ∃ inode, E e { t with inode := inode } := by
  unfold Ends C900.onParent at *
  cases ran : x { s with inode := parent } with
  | ok a t =>
    rw [ran] at ends
    exact ⟨rfl, ends⟩
  | error e t =>
    rw [ran] at ends
    exact ⟨rfl, t.inode, ends⟩

/-- `alloc_inode` in a session. -/
theorem CoherentFs.Sound.takeInode (sound : fs.Sound isize fsize last s.image list) :
    Ends fs.takeInode s
      (fun ino t => t.inode = s.inode ∧ t.calls = .tookInode ino :: s.calls ∧
        fs.InodeLeft s.image ∧ fs.TookInode isize fsize last s.image list ino t.image)
      fun e t => t.inode = s.inode ∧ t.calls = s.calls ∧
        fs.MissedInode isize fsize last s.image list e t.image := by
  refine .bind (.of_ok (t := { s with clock := fun i => s.clock (i + 1) }) rfl ?_)
  refine .bind ((Ends.session (s := { s with clock := fun i => s.clock (i + 1) })
    (sound.cache.allocInode sound.consistent.stock (s.clock 0))).mono ?_ ?_)
  · rintro ino _ ⟨image, rfl, left, took⟩
    exact .bind (.update (.value ⟨rfl, rfl, left, took⟩))
  · rintro e _ ⟨image, rfl, missed⟩
    exact ⟨rfl, rfl, missed⟩

/-- A number that was taken is in hand. -/
theorem CoherentFs.TookInode.hand (took : fs.TookInode isize fsize last image list ino after) :
    fs.InHand isize after ino :=
  ⟨took.slot.real, took.slot.last, took.small, took.cache, took.fresh, took.room⟩

/-- `free_inode` in a session. -/
theorem CoherentFs.InHand.giveInode (hand : fs.InHand isize s.image ino)
    (stock : fs.Stock isize fsize last s.image list)
    (inside : s.image.hasBlock (fs.inodeBlock ino) = true) :
    Ends (fs.giveInode ino) s
      (fun _ t => t.inode = s.inode ∧ t.calls = .gaveInode ino :: s.calls ∧
        fs.GaveInode isize fsize last s.image list ino t.image) noRaise := by
  refine .bind (.of_ok (t := { s with clock := fun i => s.clock (i + 1) }) rfl ?_)
  refine .bind ((Ends.session (s := { s with clock := fun i => s.clock (i + 1) })
    (hand.cache.freeInode stock hand.real hand.table hand.small hand.fresh hand.room inside
      (s.clock 0))).mono ?_ ?_)
  · rintro _ _ ⟨image, rfl, gave⟩
    exact .update ⟨rfl, rfl, gave⟩
  · rintro e _ ⟨image, rfl, impossible⟩
    exact impossible

/-! ## The new inode -/

/-- The mode of a new inode. -/
theorem newMode_kind {mode kind : Nat} (high : kind &&& 0xF000 = kind) :
    (mode &&& 0xFFF ||| kind) &&& 0xF000 = kind := by
  have apart : 0xFFF &&& 0xF000 = 0 := by decide
  rw [Nat.and_or_distrib_right, Nat.and_assoc, apart, Nat.and_zero, Nat.zero_or, high]

theorem newMode_lt {mode kind : Nat} (small : kind < 65536) : mode &&& 0xFFF ||| kind < 65536 :=
  Nat.or_lt_two_pow (n := 16) (Nat.lt_of_le_of_lt Nat.and_le_right (by decide)) small

/-- The new inode is written into its slot. -/
theorem CoherentFs.Consistent.writeNew (consistent : fs.Consistent isize fsize last image list)
    (slot : fs.FreeSlot isize image s.inode.ino) (hand : fs.InHand isize s.image s.inode.ino)
    (frame : Image.AgreeExcept (fun bno => bno = fs.partOff + 1 ∨
      ∃ x, bno = fs.partOff + x ∧ x ∈ list) image s.image)
    (stock : fs.Stock isize fsize last' s.image rest) (sub : ∀ x ∈ rest, x ∈ list)
    (mode : s.inode.mode < 65536) (kind : s.inode.isFile = true ∨ s.inode.isDir = true)
    (size : s.inode.size < 2 ^ 32)
    (map : ∀ image, fs.OwnMap (fun x => x ∈ list ∧ x ∉ rest) image s.inode.toInode) :
    Ends fs.writeInode s
      (fun _ t => t.inode = s.inode ∧ t.calls = s.calls ∧
        fs.openStat t.image s.inode.ino = some s.inode.masked ∧
        Image.AgreeExcept (· = fs.inodeBlock s.inode.ino) s.image t.image ∧
        fs.Child isize fsize last' t rest ∧ fs.Rewrites isize s.inode.ino list image t.image)
      noRaise := by
  have low := fs.inodeBlock_lt hand.real hand.table
  have inside : s.image.hasBlock (fs.inodeBlock s.inode.ino) = true := by
    rw [frame.hasBlock]
    exact consistent.inside hand.real hand.table
  have before : s.image.readBlock (fs.inodeBlock s.inode.ino) =
      image.readBlock (fs.inodeBlock s.inode.ino) := by
    refine frame.block _ ?_
    rintro (sb | ⟨x, here, free⟩)
    · omega
    · have high := (consistent.stock.inArea x free).1
      omega
  refine (fs.writeInode_ends inside).mono ?_ fun _ _ => id
  rintro - t ⟨after, rfl, written⟩
  have agree : Image.AgreeExcept (· = fs.inodeBlock s.inode.ino) s.image after := by
    rw [written]
    exact s.image.setBlock_agreeExcept _ _
  have packed : ∀ i < blockSize, after.readBlock (fs.inodeBlock s.inode.ino) i =
      packInode (s.image.readBlock (fs.inodeBlock s.inode.ino)) (inodeOffset s.inode.ino) s.inode i := by
    intro i small
    rw [written]
    exact Image.readBlock_setBlock_same _ inside small
  have stock' : fs.Stock isize fsize last' after rest := by
    refine stock.congr agree.len (agree.block _ (Nat.ne_of_lt low.1)) fun b member =>
      agree.block _ ?_
    have high := (stock.inArea b member).1
    omega
  obtain ⟨owner, rewrites, consistent'⟩ := consistent.adopt slot
    ((frame.mono fun _ => Or.imp_right Or.inr).trans (agree.mono fun _ => Or.inr ∘ Or.inl))
    (before ▸ packed) stock' sub mode kind size (map after)
  have kept : fs.CacheKept s.image after := agree.cacheKept (Nat.ne_of_lt low.1)
  have used := (CoherentFs.stat_mode owner.stat).1
  have onDisk := CoherentFs.openStat_packed hand.real packed (by rwa [Nat.mod_eq_of_lt mode])
  refine ⟨rfl, rfl, onDisk, agree, ⟨consistent', owner, hand.keep kept fun other member => ?_⟩, rewrites⟩
  have free := hand.cache.free other member
  have ne : other ≠ s.inode.ino := fun same => hand.fresh (same ▸ member)
  rw [← fs.openStat_toInode, ← fs.openStat_toInode, CoherentFs.openStat_other hand.real ne packed
    fun apart => agree.block _ apart]

/-! ## Writing the new file -/

theorem CoherentFs.Revised.blockCalls (revised : fs.Revised isize fsize last s list list' t) :
    BlockCalls s t := by
  obtain ⟨taken, dropped, calls, -⟩ := revised.calls
  refine ⟨_, calls.trans (List.append_assoc _ _ _).symm, fun call member => ?_⟩
  exact (List.mem_append.mp member).elim (ofBlock_tookBlocks taken call)
    (ofBlock_gaveBlocks dropped call)

/-- The free blocks after the change are those that the calls have left. -/
theorem CoherentFs.Revised.balanced (revised : fs.Revised isize fsize last s list list' t) :
    Balanced list s list' t := by
  obtain ⟨taken, dropped, calls, perm⟩ := revised.calls
  refine ⟨_, calls.trans (List.append_assoc _ _ _).symm, ?_⟩
  have length := perm.length_eq
  rw [List.length_append, List.length_append] at length
  rw [List.countP_append, List.countP_append, countP_tookBlock, countP_took_gaveBlock,
    countP_gave_tookBlock, countP_gaveBlock]
  omega

theorem CoherentFs.Grown.balanced (grown : fs.Grown isize fsize last n s list taken rest t) :
    Balanced list s rest t := by
  refine ⟨_, grown.calls, ?_⟩
  rw [countP_tookBlock, countP_gave_tookBlock, grown.split, List.length_append, List.length_reverse]
  omega

theorem CoherentFs.Grown.blockCalls (grown : fs.Grown isize fsize last n s list taken rest t) :
    BlockCalls s t :=
  ⟨_, grown.calls, ofBlock_tookBlocks _⟩

/-- `write_file` on the new file. -/
theorem CoherentFs.Child.writeFile (child : fs.Child isize fsize last s list)
    (data : List (BitVec 8)) (file : s.inode.isFile = true)
    (fits : blocksOf s.inode.size ≤ blocksOf data.length) :
    Ends (fs.writeFile data) s
      (fun _ t => (∃ list', fs.Filled isize fsize last data s list t list') ∨
        Overdrawn last (fs.holes s.image s.inode.toInode (blocksOf data.length)).length list s t)
      fun e t => (∃ taken rest,
        fs.Grown isize fsize last (blocksOf data.length) s list taken rest t ∧
          fs.GrowthStops last (blocksOf data.length) rest t e) ∨
        Overdrawn last (fs.holes s.image s.inode.toInode (blocksOf data.length)).length list s t := by
  have hand := child.hand
  have owner := child.owner
  refine ((child.consistent.growable owner).writeFile file hand.real hand.table
    (child.consistent.inside hand.real hand.table)).mono ?_ ?_
  · rintro - t (⟨last', list', over', closed⟩ | ⟨-, exhausts⟩)
    · obtain rfl := closed fits
      obtain ⟨owner', rewrites, consistent⟩ := over'.revised.consistent child.consistent owner
        (over'.size ▸ size_lt over'.few)
      refine Or.inl ⟨list', over', ⟨consistent, ?_, ?_⟩, rewrites⟩
      · rw [over'.revised.ino]
        exact owner'
      · rw [over'.revised.ino]
        exact hand.rewrite over'.revised.cache rewrites
    · exact Or.inr ⟨(exhausts fits).1.spent, (exhausts fits).2⟩
  · exact fun e t ends => (ends fits).imp_right fun exhausts => ⟨exhausts.1.spent, exhausts.2⟩

/-! ## Entering the new file into its parent -/

/-- The new file stays while another one is rewritten. -/
theorem CoherentFs.Child.keep {last' : Option Nat} {parent : OpenInode}
    (child : fs.Child isize fsize last s list)
    (there : fs.Owner isize s.image parent.ino parent.toInode) (ne : s.inode.ino ≠ parent.ino)
    (kept : fs.CacheKept s.image t.image)
    (rewrites : fs.Rewrites isize parent.ino list s.image t.image)
    (consistent : fs.Consistent isize fsize last' t.image list') (same : t.inode = s.inode) :
    fs.Child isize fsize last' t list' := by
  refine ⟨consistent, ?_, ?_⟩
  · rw [same]
    exact (child.consistent.keeps rewrites there.real there.last child.owner ne).1
  · rw [same]
    exact child.hand.keep kept (child.hand.cache.slots rewrites (child.hand.cache.apart there))

/-- The parent is rewritten. -/
theorem CoherentFs.Child.linked {parent inode : OpenInode}
    (child : fs.Child isize fsize last s list)
    (there : fs.Owner isize s.image parent.ino parent.toInode) (ne : s.inode.ino ≠ parent.ino)
    (revised : fs.Revised isize fsize last { s with inode := parent } list list'
      { t with inode := inode })
    (narrow : inode.size < 2 ^ 32) (same : t.inode = s.inode) :
    fs.Linked isize fsize last parent s list inode t list' := by
  obtain ⟨owner, rewrites, after⟩ := revised.consistent child.consistent there narrow
  exact ⟨child.keep there ne revised.cache rewrites after same, same, revised, narrow, owner, rewrites⟩

/-- `add_dir_entry` on the parent of the new file. -/
theorem CoherentFs.Child.addDirEntry {parent : OpenInode}
    (child : fs.Child isize fsize last s list) (name : PosixPath)
    (there : fs.Owner isize s.image parent.ino parent.toInode) (ne : s.inode.ino ≠ parent.ino) :
    Ends (onParent parent (fs.addDirEntry name s.inode.ino)) s
      (fun inode t => (∃ list', fs.Linked isize fsize last parent s list inode t list' ∧
        fs.EntryMade isize fsize last name parent s list inode t list') ∨
          Overdrawn last (fs.entryHoles s.image parent.toInode).length list s t)
      fun e t => (t = s ∧ fs.EntryRefused { s with inode := parent } name s.inode.ino e) ∨
        (∃ taken rest, fs.HalfGrown isize fsize last name parent e s list taken t rest) ∨
          Overdrawn last (fs.entryHoles s.image parent.toInode).length list s t := by
  have consistent := child.consistent
  have growable : fs.Growable isize fsize last { s with inode := parent } list :=
    consistent.growable (s := { s with inode := parent }) there
  refine (Ends.onParent (growable.addDirEntry there.real there.last
    (consistent.inside there.real there.last))).mono ?_ ?_
  · rintro inode t ⟨same, valid, -, scanned, entry, encoded, ⟨list', entered⟩ | exhausts⟩
    · exact Or.inl ⟨list', child.linked there ne entered.revised.plain
        (entered.size ▸ size_lt entered.few) same, ⟨scanned, entry, encoded⟩, valid, entry, encoded,
          encodeDirent_length encoded (validateName_ok valid).2.2.2.2.2, entered⟩
    · exact Or.inr ⟨Drained.spent (s := { s with inode := parent }) exhausts.1, exhausts.2⟩
  · rintro e t ⟨same, inode, ⟨here, refused⟩ | ⟨taken, rest, ready, grown, stops⟩ | exhausts⟩
    · refine Or.inl ⟨?_, refused⟩
      obtain ⟨image, clock, child', calls⟩ := t
      obtain ⟨image', clock', child'', calls'⟩ := s
      dsimp only at same
      cases here
      rw [same]
    · obtain ⟨rewrites, slots, after⟩ := grown.abandoned consistent there rfl
      have owner' : fs.Owner isize t.image parent.ino parent.toInode := by
        refine ⟨there.real, there.last, ?_, there.kind⟩
        rw [← fs.openStat_toInode, slots _ there.real there.last, fs.openStat_toInode]
        exact there.stat
      exact Or.inr (Or.inl ⟨taken, rest, ready, child.keep there ne grown.kept rewrites after same, same,
        ⟨inode, grown, stops⟩, slots, owner', rewrites⟩)
    · exact Or.inr (Or.inr
        ⟨Drained.spent (s := { s with inode := parent }) exhausts.1, exhausts.2⟩)

/-! ## Giving the new inode up -/

theorem CoherentFs.Rewrites.refl (fs : CoherentFs) (isize ino : Nat) (list : List Nat)
    (image : Image) : fs.Rewrites isize ino list image image :=
  ⟨.refl _ _, fun _ _ _ _ => rfl⟩

/-- A further step on the superblock and on blocks of the inode. -/
theorem CoherentFs.Rewrites.trans_data {image₀ : Image} {list₀ : List Nat}
    (rewrites : fs.Rewrites isize ino list₀ image₀ image)
    (frame : Image.AgreeExcept (fun bno => bno = fs.partOff + 1 ∨ ∃ x, bno = fs.partOff + x ∧
      isize ≤ x ∧ (x ∈ list₀ ∨ fs.Belongs isize image₀ ino x)) image after) :
    fs.Rewrites isize ino list₀ image₀ after := by
  refine ⟨rewrites.frame.trans (frame.mono fun _ => Or.imp_right fun ⟨x, here, _, may⟩ =>
    Or.inr ⟨x, here, may⟩), fun other real table ne => ?_⟩
  rw [CoherentFs.openStat_data (frame.mono fun _ => Or.imp_right fun ⟨x, here, high, _⟩ =>
    ⟨x, here, high⟩) real table]
  exact rewrites.others other real table ne

/-- The inode that is in hand is given back, on a partition that was consistent with all its blocks
free or its own. -/
theorem CoherentFs.InHand.dismiss {image₀ : Image} {list₀ : List Nat} {last₀ : Option Nat}
    (hand : fs.InHand isize s.image ino) (consistent : fs.Consistent isize fsize last₀ image₀ list₀)
    (rewrites : fs.Rewrites isize ino list₀ image₀ s.image)
    (stock : fs.Stock isize fsize last s.image list)
    (free : ∀ {x}, x ∈ list → x ∈ list₀ ∨ fs.Belongs isize image₀ ino x) :
    Ends (fs.giveInode ino) s
      (fun _ t => t.inode = s.inode ∧ t.calls = .gaveInode ino :: s.calls ∧
        fs.Sound isize fsize last t.image list ∧ fs.Rewrites isize ino list₀ image₀ t.image ∧
        fs.stat t.image ino = none) noRaise := by
  have inside : s.image.hasBlock (fs.inodeBlock ino) = true := by
    rw [rewrites.frame.hasBlock]
    exact consistent.inside hand.real hand.table
  refine (hand.giveInode stock inside).mono ?_ fun _ _ => id
  rintro - t ⟨same, calls, gave⟩
  have rewrites' : fs.Rewrites isize ino list₀ image₀ t.image :=
    ⟨rewrites.frame.trans (gave.frame.mono fun _ => Or.imp_right Or.inl),
      fun other real table ne => (gave.others other ne).trans (rewrites.others other real table ne)⟩
  exact ⟨same, calls, ⟨consistent.dismiss rewrites' hand.real hand.table gave.unused gave.stock free,
    gave.cache⟩, rewrites', gave.unused⟩

/-- The new inode with blocks that were free or its own. -/
structure CoherentFs.Pending (fs : CoherentFs) (isize fsize : Nat) (image₀ : Image)
    (list₀ : List Nat) (s : Session) (list : List Nat) : Prop where
  consistent : ∃ last₀, fs.Consistent isize fsize last₀ image₀ list₀
  rewrites : fs.Rewrites isize s.inode.ino list₀ image₀ s.image
  growable : ∃ last, fs.Growable isize fsize last s list
  hand : fs.InHand isize s.image s.inode.ino
  mine : ∀ {x}, x ∈ list ∨ fs.Maps s.image s.inode.toInode x →
    x ∈ list₀ ∨ fs.Belongs isize image₀ s.inode.ino x

theorem CoherentFs.Child.pending (child : fs.Child isize fsize last s list) :
    fs.Pending isize fsize s.image list s list :=
  ⟨⟨last, child.consistent⟩, .refl _ _ _ _ _, ⟨last, child.consistent.growable child.owner⟩,
    child.hand, Or.imp_right fun maps => ⟨_, child.owner, maps⟩⟩

/-- The new file after a growth that has stopped. -/
theorem CoherentFs.Child.pending_grown (child : fs.Child isize fsize last s list)
    (grown : fs.Grown isize fsize last n s list taken rest t) :
    fs.Pending isize fsize s.image list t rest := by
  have ino : t.inode.ino = s.inode.ino := by rw [grown.inode]
  obtain ⟨rewrites, -, -⟩ := grown.abandoned child.consistent child.owner rfl
  refine ⟨⟨last, child.consistent⟩, ino.symm ▸ rewrites, ⟨last, grown.growable⟩,
    ino.symm ▸ child.hand.rewrite grown.kept rewrites, ?_⟩
  rintro x (free | ⟨nonzero, p, valid, here⟩)
  · exact Or.inl (grown.split ▸ List.mem_append_right _ free)
  · by_cases hole : fs.pointer s.image s.inode.toInode p = 0
    · have new := (grown.new valid hole (here ▸ nonzero)).2
      rw [here] at new
      exact Or.inl (grown.split ▸ List.mem_append_left _ new)
    · have old := grown.old valid hole
      rw [ino]
      exact Or.inr ⟨_, child.owner, nonzero, p, valid, old.symm.trans here⟩

/-- The handler of `create_file` frees the blocks of the new inode and the inode. -/
theorem CoherentFs.Pending.dismiss {image₀ : Image} {list₀ : List Nat}
    (pending : fs.Pending isize fsize image₀ list₀ s list) :
    Ends (do
      fs.shrinkToNBlocks 0
      fs.giveInode s.inode.ino) s
      (fun _ t => fs.Dismissed isize fsize image₀ list₀ s list t) noRaise := by
  obtain ⟨last, growable⟩ := pending.growable
  obtain ⟨last₀, consistent⟩ := pending.consistent
  refine .bind ((growable.cutBack 0).mono ?_ fun _ _ => id)
  rintro - t ⟨last', dropped, cut, gone⟩
  have none : ∀ {x}, ¬ fs.Maps t.image t.inode.toInode x := by
    rintro x ⟨nonzero, p, valid, here⟩
    exact nonzero (here.symm.trans (gone valid (Nat.zero_le _)))
  have gave : ∀ {x}, x ∈ dropped ↔ fs.Maps s.image s.inode.toInode x :=
    fun {x} => (cut.gave x).trans (and_iff_left none)
  have frame : Image.AgreeExcept (fun bno => bno = fs.partOff + 1 ∨ ∃ x, bno = fs.partOff + x ∧
      isize ≤ x ∧ (x ∈ list₀ ∨ fs.Belongs isize image₀ s.inode.ino x)) s.image t.image :=
    cut.frame.mono fun _ => Or.imp_right fun ⟨x, here, maps⟩ =>
      ⟨x, here, (growable.map.inArea maps).1, pending.mine (Or.inr maps)⟩
  have rewrites := pending.rewrites.trans_data frame
  have hand : fs.InHand isize t.image s.inode.ino := by
    refine pending.hand.keep cut.cache fun other member => ?_
    have slot := pending.hand.cache.free other member
    rw [← fs.openStat_toInode, ← fs.openStat_toInode, CoherentFs.openStat_data (frame.mono fun _ =>
      Or.imp_right fun ⟨x, here, high, _⟩ => ⟨x, here, high⟩) slot.real slot.last]
  have free : ∀ {x}, x ∈ dropped ++ list →
      x ∈ list₀ ∨ fs.Belongs isize image₀ s.inode.ino x := fun member =>
    (List.mem_append.mp member).elim (fun own => pending.mine (Or.inr (gave.mp own)))
      fun old => pending.mine (Or.inl old)
  refine (hand.dismiss consistent rewrites cut.growable.stock free).mono ?_ fun _ _ => id
  rintro - u ⟨-, calls, sound, rewrites', unused⟩
  exact ⟨⟨last', dropped, sound, fun x => gave, cut.calls ▸ calls⟩, rewrites', unused⟩

/-- `free_block` in a session. -/
theorem CoherentFs.Stock.giveBlock {b : Nat} (stock : fs.Stock isize fsize last s.image list)
    (known : DataArea isize fsize b) (fresh : b ∉ list) :
    Ends (fs.giveBlock b) s
      (fun _ t => ∃ last', t.inode = s.inode ∧ t.calls = .gaveBlock b :: s.calls ∧
        Image.AgreeExcept (fun bno => bno = fs.partOff + 1 ∨ bno = fs.partOff + b)
          s.image t.image ∧
        fs.CacheKept s.image t.image ∧ fs.Stock isize fsize last' t.image (b :: list))
      noRaise := by
  obtain ⟨after, last', call, agree, kept, stock'⟩ := stock.free known fresh (s.clock 0)
  refine .bind (.of_ok (t := { s with clock := fun i => s.clock (i + 1) }) rfl ?_)
  refine .bind (.of_ok (a := ()) (t := { s with clock := fun i => s.clock (i + 1), image := after })
    ?_ (.update ⟨last', rfl, rfl, agree, kept, stock'⟩))
  unfold onImage
  rw [call]

/-- The handler of `create_dir` frees the block of the new inode and the inode. -/
theorem CoherentFs.Child.dismiss {b : Nat} (child : fs.Child isize fsize last s list)
    (only : ∀ {x}, fs.Maps s.image s.inode.toInode x ↔ x = b) :
    Ends (do
      fs.giveBlock b
      fs.giveInode s.inode.ino) s
      (fun _ t => fs.Dismissed isize fsize s.image list s list t) noRaise := by
  have own : fs.Maps s.image s.inode.toInode b := only.mpr rfl
  have known := (child.consistent.map child.owner).inArea own
  have fresh := child.consistent.apart ⟨_, child.owner, own⟩
  refine .bind ((child.consistent.stock.giveBlock known fresh).mono ?_ fun _ _ => id)
  rintro - t ⟨last', same, calls, agree, kept, stock⟩
  have frame : Image.AgreeExcept (fun bno => bno = fs.partOff + 1 ∨ ∃ x, bno = fs.partOff + x ∧
      isize ≤ x ∧ (x ∈ list ∨ fs.Belongs isize s.image s.inode.ino x)) s.image t.image :=
    agree.mono fun _ => Or.imp_right fun here =>
      ⟨b, here, known.1, Or.inr ⟨_, child.owner, own⟩⟩
  have rewrites := (CoherentFs.Rewrites.refl fs isize s.inode.ino list s.image).trans_data frame
  have free : ∀ {x}, x ∈ b :: list → x ∈ list ∨ fs.Belongs isize s.image s.inode.ino x := fun member =>
    (List.mem_cons.mp member).elim (fun here => Or.inr ⟨_, child.owner, only.mpr here⟩) Or.inl
  refine ((child.hand.rewrite kept rewrites).dismiss child.consistent rewrites stock free).mono ?_
    fun _ _ => id
  rintro - u ⟨-, calls', sound, rewrites', unused⟩
  rw [calls] at calls'
  refine ⟨⟨last', [b], sound, fun x => ?_, calls'⟩, rewrites', unused⟩
  rw [List.mem_singleton, only]

end Steps

end C900
