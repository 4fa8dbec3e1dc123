import C900.Fs.Consistent

/-!
# Overwriting a file

`write_file` shrinks the file where it gets shorter, fills the holes below its new end, writes
every data block and last the inode. On a partition whose files, directories and free blocks are
apart it changes no other file, and what the file has given up is on the free list.
-/

namespace C900

open PointerTree

/-! ## Writing the chunks -/

section Chunks

variable {fs : CoherentFs} {s : Session} {data : List (BitVec 8)}

/-- The loop of `write_file` over distinct blocks. -/
theorem CoherentFs.writeChunks_ends {blocks : List Nat} (nodup : blocks.Nodup)
    (inside : ∀ b ∈ blocks, s.image.hasBlock (fs.partOff + b) = true) :
    Ends (fs.writeChunks data blocks) s (fun _ t => t = { s with image := t.image } ∧
      Image.AgreeExcept (fun bno => ∃ b ∈ blocks, bno = fs.partOff + b) s.image t.image ∧
      ∀ i b, blocks[i]? = some b → ∀ k < blockSize,
        t.image.readBlock (fs.partOff + b) k = chunkOf data i k) noRaise := by
  have done : Ends (fs.writeChunks data blocks) s (fun _ t => t = { s with image := t.image } ∧
      Image.AgreeExcept (fun bno => ∃ entry ∈ blocks.zipIdx, bno = fs.partOff + entry.1)
        s.image t.image ∧
      ∀ entry ∈ blocks.zipIdx, ∀ k < blockSize,
        t.image.readBlock (fs.partOff + entry.1) k = chunkOf data entry.2 k) noRaise := by
    refine .foldlM (fun before (_ : Unit) (t : Session) => t = { s with image := t.image } ∧
      Image.AgreeExcept (fun bno => ∃ entry ∈ before, bno = fs.partOff + entry.1) s.image t.image ∧
      ∀ entry ∈ before, ∀ k < blockSize,
        t.image.readBlock (fs.partOff + entry.1) k = chunkOf data entry.2 k)
      blocks.zipIdx ⟨rfl, .refl _ _, nofun⟩ ?_
    rintro before ⟨b, i⟩ later _ t split ⟨same, frame, written⟩
    have member : (b, i) ∈ blocks.zipIdx := by
      rw [split]
      exact List.mem_append_right _ List.mem_cons_self
    have fits : t.image.hasBlock (fs.partOff + b) = true := by
      rw [frame.hasBlock]
      exact inside b (List.fst_mem_of_mem_zipIdx member)
    have fresh : ∀ entry ∈ before, entry.1 ≠ b := by
      intro entry old eq
      have distinct := nodup
      rw [← List.zipIdx_map_fst 0 blocks, split, List.map_append, List.map_cons] at distinct
      exact List.disjoint_of_nodup_append distinct (List.mem_map_of_mem old)
        (eq ▸ List.mem_cons_self)
    refine .of_ok (writeBlock_session fits _) ⟨?_, ?_, fun entry old k small => ?_⟩
    · rw [same]
    · refine (frame.mono ?_).trans ((t.image.setBlock_agreeExcept _ _).mono ?_)
      · exact fun _ ⟨entry, old, here⟩ => ⟨entry, List.mem_append_left _ old, here⟩
      · exact fun _ here => ⟨(b, i), List.mem_append_right _ List.mem_cons_self, here⟩
    · rcases List.mem_append.mp old with before | last
      · dsimp only
        rw [Image.readBlock_setBlock_other _ _ fun eq =>
          fresh entry before (Nat.add_left_cancel eq)]
        exact written entry before k small
      · rw [List.mem_singleton.mp last]
        exact Image.readBlock_setBlock_same _ fits small
  refine done.mono (fun _ t => ?_) fun _ _ => id
  rintro ⟨same, frame, written⟩
  refine ⟨same, frame.mono ?_, fun i b found => ?_⟩
  · rintro bno ⟨entry, member, here⟩
    exact ⟨entry.1, List.fst_mem_of_mem_zipIdx member, here⟩
  · exact written (b, i) (List.mem_zipIdx_iff_getElem?.mpr found)

end Chunks

/-! ## Shrinking -/

/-- The map has given the blocks `dropped` to the free list. -/
structure CoherentFs.CutBack (fs : CoherentFs) (isize fsize : Nat) (last : Option Nat)
    (s : Session) (list dropped : List Nat) (t : Session) : Prop where
  growable : fs.Growable isize fsize last t (dropped ++ list)
  calls : t.calls = dropped.map AllocCall.gaveBlock ++ s.calls
  inode : t.inode = { s.inode with addrs := t.inode.addrs }
  frame : Image.AgreeExcept (fun bno => bno = fs.partOff + 1 ∨
    ∃ x, bno = fs.partOff + x ∧ fs.Maps s.image s.inode.toInode x) s.image t.image
  gave : ∀ x, x ∈ dropped ↔
    fs.Maps s.image s.inode.toInode x ∧ ¬ fs.Maps t.image t.inode.toInode x
  kept : ∀ {x}, fs.Maps t.image t.inode.toInode x → fs.Maps s.image s.inode.toInode x
  cache : fs.CacheKept s.image t.image

section Cutting

variable {fs : CoherentFs} {isize fsize : Nat} {last : Option Nat} {s : Session} {list : List Nat}

/-- Nothing is given up. -/
theorem CoherentFs.CutBack.refl (growable : fs.Growable isize fsize last s list) :
    fs.CutBack isize fsize last s list [] s :=
  ⟨growable, rfl, rfl, .refl _ _,
    fun _ => iff_of_false List.not_mem_nil fun both => both.2 both.1, id, .refl fs _⟩

/-- `_shrink_to_n_blocks` gives back what the map loses. -/
theorem CoherentFs.Growable.cutBack (growable : fs.Growable isize fsize last s list) (n : Nat) :
    Ends (fs.shrinkToNBlocks n) s
      (fun _ t => ∃ last' dropped, fs.CutBack isize fsize last' s list dropped t ∧
        ∀ {p : BlockPlace}, p.Valid → n ≤ p.first → fs.pointer t.image t.inode.toInode p = 0)
      noRaise := by
  have map : fs.OwnMap (fun b => DataArea isize fsize b ∧ b ∉ list) s.image s.inode.toInode :=
    ⟨growable.map.addrs, fun valid found => ⟨growable.map.area valid found,
      growable.apart valid found⟩, growable.map.distinct⟩
  have start : fs.CacheKept s.image s.image ∧ ∃ last, fs.Stock isize fsize last s.image ([] ++ list) :=
    ⟨.refl fs _, last, growable.stock⟩
  refine (CoherentFs.shrinkToNBlocks_trims
    (CoherentFs.Stock.rules fs list s.image growable.stock.data) map start
    (fun _ _ => List.not_mem_nil) n).mono ?_ fun _ _ => id
  rintro - t ⟨dropped, trimmed⟩
  obtain ⟨cache, last', stock⟩ := trimmed.done.inv
  rw [List.append_nil] at stock
  have settled : ∀ {p : BlockPlace}, p.Valid → fs.pointer t.image t.inode.toInode p ≠ 0 →
      fs.pointer t.image t.inode.toInode p = fs.pointer s.image s.inode.toInode p :=
    fun valid found => trimmed.settled valid found
  have mem : ∀ {p : BlockPlace}, p.Valid → fs.pointer s.image s.inode.toInode p ≠ 0 →
      (fs.pointer s.image s.inode.toInode p ∈ dropped ↔
        fs.pointer t.image t.inode.toInode p = 0) := by
    intro p valid found
    rw [trimmed.mem]
    constructor
    · rintro ⟨q, valid', -, same, -, dies⟩
      rw [growable.map.distinct valid valid' found same.symm]
      exact trimmed.gone q valid' valid'.1 dies
    · intro hole
      refine ⟨p, valid, valid.1, rfl, found, fun stays => found ?_⟩
      rw [← trimmed.kept p valid fun _ => stays, hole]
  have kept : ∀ {x}, fs.Maps t.image t.inode.toInode x → fs.Maps s.image s.inode.toInode x := by
    rintro x ⟨nonzero, p, valid, rfl⟩
    exact ⟨nonzero, p, valid, (settled valid nonzero).symm⟩
  refine ⟨last', dropped, ⟨⟨⟨trimmed.length, ?_, ?_⟩, stock, ?_⟩, trimmed.done.calls, trimmed.addrs,
    ?_, fun x => ⟨fun member => ?_, ?_⟩, kept, cache⟩, ?_⟩
  · intro p valid found
    have same := settled valid found
    rw [same] at found ⊢
    exact growable.map.area valid found
  · intro p q valid valid' found eq
    have same := settled valid found
    have same' := settled valid' (eq ▸ found)
    rw [same] at found eq
    rw [same'] at eq
    exact growable.map.distinct valid valid' found eq
  · intro p valid found member
    have same := settled valid found
    rw [same] at member
    rcases List.mem_append.mp member with given | free
    · exact found ((mem valid (same ▸ found)).mp given)
    · exact growable.apart valid (same ▸ found) free
  · refine trimmed.done.frame.mono fun _ => Or.imp_right ?_
    rintro ⟨x, here, root, -, path, valid, found, nonzero, -⟩
    exact ⟨x, here, nonzero, _, valid, found⟩
  · obtain ⟨p, valid, -, rfl, found, -⟩ := (trimmed.mem x).mp member
    refine ⟨.of_pointer valid found, ?_⟩
    rintro ⟨nonzero, q, valid', here⟩
    have same := settled valid' (here ▸ nonzero)
    have eq := growable.map.distinct valid valid' found (here.symm.trans same)
    rw [eq] at member found
    exact nonzero (here.symm.trans ((mem valid' found).mp member))
  · rintro ⟨⟨nonzero, p, valid, rfl⟩, lost⟩
    refine (mem valid nonzero).mpr ?_
    by_contra found
    have same := settled valid found
    exact lost (same ▸ .of_pointer valid found)
  · intro p valid high
    refine trimmed.gone p valid valid.1 fun stays => ?_
    have before := stays.first_lt
    omega

end Cutting

/-! ## Writing the inode -/

/-- The data blocks and the inode are written. -/
structure CoherentFs.Wrote (fs : CoherentFs) (s t : Session) : Prop where
  ino : t.inode.ino = s.inode.ino
  mode : t.inode.mode = s.inode.mode
  addrs : t.inode.addrs = s.inode.addrs
  packed : ∀ i < blockSize, t.image.readBlock (fs.inodeBlock s.inode.ino) i =
    packInode (s.image.readBlock (fs.inodeBlock s.inode.ino)) (inodeOffset s.inode.ino) t.inode i
  frame : Image.AgreeExcept (fun bno => bno = fs.inodeBlock s.inode.ino ∨
    ∃ p : BlockPlace, p.Valid ∧ p.height = 0 ∧ fs.pointer s.image s.inode.toInode p ≠ 0 ∧
      bno = fs.partOff + fs.pointer s.image s.inode.toInode p) s.image t.image

/-- The inode has a new block map, and the table has the inode. -/
structure CoherentFs.Revised (fs : CoherentFs) (isize fsize : Nat) (last : Option Nat) (s : Session)
    (list list' : List Nat) (t : Session) : Prop where
  growable : fs.Growable isize fsize last t list'
  ino : t.inode.ino = s.inode.ino
  mode : t.inode.mode = s.inode.mode
  packed : ∀ i < blockSize, t.image.readBlock (fs.inodeBlock s.inode.ino) i =
    packInode (s.image.readBlock (fs.inodeBlock s.inode.ino)) (inodeOffset s.inode.ino) t.inode i
  frame : Image.AgreeExcept (fun bno => bno = fs.partOff + 1 ∨ bno = fs.inodeBlock s.inode.ino ∨
    ∃ x, bno = fs.partOff + x ∧ (x ∈ list ∨ fs.Maps s.image s.inode.toInode x)) s.image t.image
  free : ∀ x, x ∈ list' ↔ (x ∈ list ∨ fs.Maps s.image s.inode.toInode x) ∧
    ¬ fs.Maps t.image t.inode.toInode x
  mine : ∀ {x}, fs.Maps t.image t.inode.toInode x →
    x ∈ list ∨ fs.Maps s.image s.inode.toInode x
  cache : fs.CacheKept s.image t.image
  calls : ∃ taken dropped : List Nat,
    t.calls = taken.map AllocCall.tookBlock ++ (dropped.map AllocCall.gaveBlock ++ s.calls) ∧
      (dropped ++ list).Perm (taken ++ list')

section Revision

variable {fs : CoherentFs} {isize fsize n : Nat} {last last' : Option Nat} {s t u v : Session}
  {list list' dropped taken rest : List Nat}

/-- The map stays when only data blocks are written. -/
theorem CoherentFs.Wrote.pointer (wrote : fs.Wrote s t)
    (map : fs.OwnMap (DataArea isize fsize) s.image s.inode.toInode) (real : 1 ≤ s.inode.ino)
    (table : s.inode.ino ≤ (isize - 2) * inodesPerBlock) {p : BlockPlace} (valid : p.Valid) :
    fs.pointer t.image t.inode.toInode p = fs.pointer s.image s.inode.toInode p := by
  refine CoherentFs.pointer_same wrote.addrs (fun {q} valid tall found => ?_) valid
  have low := (map.area valid found).1
  have inode := fs.inodeBlock_lt real table
  have same := wrote.frame.block
    (fs.partOff + fs.pointer s.image s.inode.toInode q) (by
      rintro (own | ⟨r, valid', leaf, -, eq⟩)
      · omega
      · have here := map.distinct valid valid' found (Nat.add_left_cancel eq)
        exact tall (here ▸ leaf))
  funext j
  unfold CoherentFs.entry
  rw [same]

/-- After the writing the blocks are as apart as before. -/
theorem CoherentFs.Wrote.growable (wrote : fs.Wrote s t)
    (growable : fs.Growable isize fsize last s list) (real : 1 ≤ s.inode.ino)
    (table : s.inode.ino ≤ (isize - 2) * inodesPerBlock) :
    fs.Growable isize fsize last t list := by
  have same : ∀ {p : BlockPlace}, p.Valid →
      fs.pointer t.image t.inode.toInode p = fs.pointer s.image s.inode.toInode p :=
    fun valid => wrote.pointer growable.map real table valid
  have inode := fs.inodeBlock_lt real table
  have data := growable.stock.data
  refine ⟨⟨wrote.addrs ▸ growable.map.addrs, ?_, ?_⟩, growable.stock.congr wrote.frame.len ?_ ?_, ?_⟩
  · intro p valid found
    rw [same valid] at found ⊢
    exact growable.map.area valid found
  · intro p q valid valid' found eq
    rw [same valid] at found eq
    rw [same valid'] at eq
    exact growable.map.distinct valid valid' found eq
  · refine wrote.frame.block _ ?_
    rintro (own | ⟨p, valid, -, found, eq⟩)
    · omega
    · have low := (growable.map.area valid found).1
      omega
  · intro b member
    have low := (growable.stock.inArea b member).1
    refine wrote.frame.block _ ?_
    rintro (own | ⟨p, valid, -, found, eq⟩)
    · omega
    · exact growable.apart valid found (Nat.add_left_cancel eq ▸ member)
  · intro p valid found
    rw [same valid] at found ⊢
    exact growable.apart valid found

/-- A shrink, a growth and the writing together. -/
theorem CoherentFs.CutBack.revised (growable : fs.Growable isize fsize last s list)
    (cut : fs.CutBack isize fsize last' s list dropped t)
    (grown : fs.Grown isize fsize last' n t (dropped ++ list) taken rest u)
    (wrote : fs.Wrote u v) (calls : v.calls = u.calls) (real : 1 ≤ s.inode.ino)
    (table : s.inode.ino ≤ (isize - 2) * inodesPerBlock) :
    fs.Revised isize fsize last' s list rest v := by
  have inoT : t.inode.ino = s.inode.ino := by rw [cut.inode]
  have inoU : u.inode.ino = s.inode.ino := by rw [grown.inode, inoT]
  have realU : 1 ≤ u.inode.ino := inoU.symm ▸ real
  have tableU : u.inode.ino ≤ (isize - 2) * inodesPerBlock := inoU.symm ▸ table
  have same : ∀ {p : BlockPlace}, p.Valid →
      fs.pointer v.image v.inode.toInode p = fs.pointer u.image u.inode.toInode p :=
    fun valid => wrote.pointer grown.growable.map realU tableU valid
  have inode := fs.inodeBlock_lt real table
  -- The blocks of the new map were free or stay from the old map.
  have origin : ∀ {x}, fs.Maps u.image u.inode.toInode x →
      x ∈ taken ∨ fs.Maps t.image t.inode.toInode x := by
    rintro x ⟨nonzero, p, valid, rfl⟩
    by_cases hole : fs.pointer t.image t.inode.toInode p = 0
    · exact Or.inl (grown.new valid hole nonzero).2
    · rw [grown.old valid hole]
      exact Or.inr (.of_pointer valid hole)
  have stays : ∀ {x}, fs.Maps t.image t.inode.toInode x → fs.Maps u.image u.inode.toInode x := by
    rintro x ⟨nonzero, p, valid, rfl⟩
    exact ⟨nonzero, p, valid, grown.old valid nonzero⟩
  have maps : ∀ {x}, fs.Maps v.image v.inode.toInode x ↔ fs.Maps u.image u.inode.toInode x := by
    intro x
    constructor
    · rintro ⟨nonzero, p, valid, here⟩
      exact ⟨nonzero, p, valid, (same valid).symm.trans here⟩
    · rintro ⟨nonzero, p, valid, here⟩
      exact ⟨nonzero, p, valid, (same valid).trans here⟩
  have mem : ∀ {x}, x ∈ taken ++ rest ↔ x ∈ dropped ∨ x ∈ list := by
    intro x
    rw [← grown.split, List.mem_append]
  have given : ∀ {x}, x ∈ dropped ∨ x ∈ list → x ∈ list ∨ fs.Maps s.image s.inode.toInode x :=
    fun either => either.elim (fun member => Or.inr ((cut.gave _).mp member).1) Or.inl
  have apart : ∀ {x}, fs.Maps u.image u.inode.toInode x → x ∉ rest := by
    rintro x ⟨nonzero, p, valid, rfl⟩
    exact grown.growable.apart valid nonzero
  have area : ∀ {x}, x ∈ list ∨ fs.Maps s.image s.inode.toInode x → DataArea isize fsize x :=
    fun either => either.elim (growable.stock.inArea _) growable.map.inArea
  have before : Image.AgreeExcept (fun bno => bno = fs.partOff + 1 ∨
      ∃ x, bno = fs.partOff + x ∧ (x ∈ list ∨ fs.Maps s.image s.inode.toInode x))
      s.image u.image := by
    refine (cut.frame.mono fun _ => Or.imp_right fun ⟨x, here, own⟩ => ⟨x, here, Or.inr own⟩).trans
      (grown.frame.mono fun _ => Or.imp_right ?_)
    rintro ⟨x, here, new | ⟨p, valid, -, nonzero, found⟩⟩
    · exact ⟨x, here, given (mem.mp (List.mem_append_left _ new))⟩
    · exact ⟨x, here, Or.inr (cut.kept ⟨nonzero, p, valid, found⟩)⟩
  refine ⟨wrote.growable grown.growable realU tableU, wrote.ino.trans inoU, ?_, ?_, ?_,
    fun x => ?_, fun {x} own => ?_,
    (cut.cache.trans grown.kept).trans (wrote.frame.cacheKept ?_), taken.reverse, dropped, ?_, ?_⟩
  · rw [wrote.mode, grown.inode, cut.inode]
  · have packed := wrote.packed
    rw [inoU] at packed
    rw [← before.block (fs.inodeBlock s.inode.ino)]
    · exact packed
    · rintro (sb | ⟨x, here, either⟩)
      · omega
      · have low := (area either).1
        omega
  · refine (before.mono fun _ => Or.imp_right Or.inr).trans (wrote.frame.mono ?_)
    rintro bno (own | ⟨p, valid, -, found, here⟩)
    · exact Or.inr (Or.inl (inoU ▸ own))
    · refine Or.inr (Or.inr ⟨_, here, ?_⟩)
      rcases origin (.of_pointer valid found) with new | old
      · exact given (mem.mp (List.mem_append_left _ new))
      · exact Or.inr (cut.kept old)
  · rw [maps]
    constructor
    · exact fun member => ⟨given (mem.mp (List.mem_append_right _ member)),
        fun own => apart own member⟩
    · rintro ⟨either, lost⟩
      have all : x ∈ dropped ∨ x ∈ list := either.elim Or.inr fun own =>
        Or.inl ((cut.gave x).mpr ⟨own, fun kept => lost (stays kept)⟩)
      refine (List.mem_append.mp (mem.mpr all)).resolve_left fun new => lost ?_
      obtain ⟨nonzero, p, valid, -, here⟩ := grown.used x new
      exact ⟨nonzero, p, valid, here⟩
  · rcases origin (maps.mp own) with new | old
    · exact given (mem.mp (List.mem_append_left _ new))
    · exact Or.inr (cut.kept old)
  · rintro (own | ⟨p, valid, -, found, here⟩)
    · rw [inoU] at own
      omega
    · have low := (grown.growable.map.area valid found).1
      have data := growable.stock.data
      omega
  · rw [calls, grown.calls, cut.calls]
  · rw [grown.split]
    exact (List.reverse_perm taken).symm.append_right rest

/-- The addresses of a map fit into the inode. -/
theorem CoherentFs.OwnMap.narrow {image : Image} {inode : Inode}
    (map : fs.OwnMap (DataArea isize fsize) image inode) (narrow : fsize ≤ 2 ^ 24) :
    ∀ b ∈ inode.addrs, b < 2 ^ 24 := by
  intro b member
  obtain ⟨root, small, here⟩ := List.getElem_of_mem member
  by_cases hole : b = 0
  · rw [hole]
    decide
  · have found : fs.pointer image inode ⟨root, []⟩ = b := by
      unfold CoherentFs.pointer
      rw [follow_nil]
      dsimp only
      rw [List.getD_eq_getElem?_getD, List.getElem?_eq_getElem small, here]
      rfl
    have length := map.addrs
    have inside : root < rootCount := length ▸ small
    have high := (map.area (p := ⟨root, []⟩) ⟨inside, IsPath.nil _⟩ (found ▸ hole)).2
    rw [found] at high
    omega

/-- A partition stays consistent when an inode is revised, and `stat` reads the inode back. -/
theorem CoherentFs.Revised.consistent {last₀ : Option Nat}
    (revised : fs.Revised isize fsize last s list list' t)
    (consistent : fs.Consistent isize fsize last₀ s.image list)
    (owner : fs.Owner isize s.image s.inode.ino s.inode.toInode) (size : t.inode.size < 2 ^ 32) :
    fs.Owner isize t.image s.inode.ino t.inode.toInode ∧
      fs.Rewrites isize s.inode.ino list s.image t.image ∧
      fs.Consistent isize fsize last t.image list' := by
  have real := owner.real
  have table := owner.last
  obtain ⟨used, wide⟩ := CoherentFs.stat_mode owner.stat
  rw [← revised.mode] at used wide
  have stat : fs.stat t.image s.inode.ino = some t.inode.toInode :=
    CoherentFs.stat_packed revised.ino real revised.packed wide used size revised.growable.map.addrs
      (revised.growable.map.narrow consistent.narrow)
  have owner' : fs.Owner isize t.image s.inode.ino t.inode.toInode := by
    refine ⟨real, table, stat, ?_⟩
    have kind := owner.kind
    unfold Inode.isFile Inode.isDir at kind ⊢
    rwa [revised.mode]
  have only : ∀ {inode}, fs.Owner isize t.image s.inode.ino inode → inode = t.inode.toInode :=
    fun other => Option.some.inj (other.stat.symm.trans stat)
  have mine : ∀ {x}, fs.Maps s.image s.inode.toInode x ↔ fs.Belongs isize s.image s.inode.ino x := by
    intro x
    refine ⟨fun maps => ⟨_, owner, maps⟩, ?_⟩
    rintro ⟨inode, other, maps⟩
    exact Option.some.inj (other.stat.symm.trans owner.stat) ▸ maps
  have rewrites : fs.Rewrites isize s.inode.ino list s.image t.image := by
    refine ⟨revised.frame.mono fun _ => Or.imp_right (Or.imp_right fun ⟨x, here, either⟩ =>
      ⟨x, here, either.imp_right mine.mp⟩), fun other real' table' ne => ?_⟩
    refine CoherentFs.openStat_other real ne revised.packed fun apart => ?_
    refine revised.frame.block _ ?_
    have inode := fs.inodeBlock_lt real' table'
    rintro (sb | own | ⟨x, here, either⟩)
    · omega
    · exact apart own
    · have low : isize ≤ x := either.elim (fun member => (consistent.stock.inArea x member).1)
        fun maps => ((consistent.map owner).inArea maps).1
      omega
  refine ⟨owner', rewrites, consistent.update rewrites real table revised.growable.stock
    (fun other => only other ▸ revised.growable.map) ?_ ?_⟩
  · rintro x ⟨inode, other, maps⟩
    rw [only other] at maps
    exact ⟨fun member => ((revised.free x).mp member).2 maps,
      (revised.mine maps).imp_right mine.mp⟩
  · exact fun {x} member => ((revised.free x).mp member).1.imp_right mine.mp

end Revision

/-! ## `write_file` -/

/-- `alloc_block` has returned. -/
def AllocCall.isTookBlock : AllocCall → Bool
  | .tookBlock _ => true
  | _ => false

/-- `free_block` has returned. -/
def AllocCall.isGaveBlock : AllocCall → Bool
  | .gaveBlock _ => true
  | _ => false

/-- Of the free blocks and those that the calls have given back, at least one was not taken. -/
def LeavesFree (list : List Nat) (s t : Session) : Prop :=
  ∃ calls, t.calls = calls ++ s.calls ∧
    calls.countP AllocCall.isTookBlock < list.length + calls.countP AllocCall.isGaveBlock

/-- The file is overwritten. -/
structure CoherentFs.Overwrote (fs : CoherentFs) (isize fsize : Nat) (last : Option Nat)
    (data : List (BitVec 8)) (s : Session) (list list' : List Nat) (t : Session) : Prop where
  revised : fs.Revised isize fsize last s list list' t
  size : t.inode.size = data.length
  few : blocksOf data.length ≤ maxBlocks
  links : t.inode.nlinks = s.inode.nlinks
  chunks : ∀ i < blocksOf data.length, fs.pointer t.image t.inode.toInode (dataPlace i) ≠ 0 ∧
    ∀ k < blockSize, t.image.readBlock
      (fs.partOff + fs.pointer t.image t.inode.toInode (dataPlace i)) k = chunkOf data i k
  ends : (blocksOf data.length < blocksOf s.inode.size ∨
      ∀ {p : BlockPlace}, p.Valid → blocksOf s.inode.size ≤ p.first →
        fs.pointer s.image s.inode.toInode p = 0) →
    ∀ {p : BlockPlace}, p.Valid → blocksOf data.length ≤ p.first →
      fs.pointer t.image t.inode.toInode p = 0

section WriteFile

variable {fs : CoherentFs} {isize fsize n : Nat} {last last' : Option Nat} {s t u v : Session}
  {list dropped taken rest : List Nat} {data : List (BitVec 8)}

/-- Where the last block of an open list is taken, no block is left. -/
theorem CoherentFs.CutBack.not_leavesFree (cut : fs.CutBack isize fsize last s list dropped t)
    (drained : Drained last (dropped ++ list) t u) : ¬ LeavesFree list s u := by
  rintro ⟨calls, since, some⟩
  obtain ⟨-, taken, calls', enough⟩ := drained
  have split : calls = taken.map AllocCall.tookBlock ++ dropped.map AllocCall.gaveBlock := by
    rw [calls', cut.calls, ← List.append_assoc] at since
    exact (List.append_cancel_right since).symm
  have all : ∀ l : List Nat, (l.map AllocCall.tookBlock).countP AllocCall.isTookBlock = l.length ∧
      (l.map AllocCall.gaveBlock).countP AllocCall.isGaveBlock = l.length := fun l => by
    rw [List.countP_map, List.countP_map]
    exact ⟨List.countP_eq_length.mpr fun _ _ => rfl, List.countP_eq_length.mpr fun _ _ => rfl⟩
  have none : ∀ l : List Nat, (l.map AllocCall.gaveBlock).countP AllocCall.isTookBlock = 0 ∧
      (l.map AllocCall.tookBlock).countP AllocCall.isGaveBlock = 0 := fun l => by
    rw [List.countP_map, List.countP_map]
    exact ⟨List.countP_eq_zero.mpr fun _ _ => nofun, List.countP_eq_zero.mpr fun _ _ => nofun⟩
  rw [split, List.countP_append, List.countP_append, (all taken).1, (none dropped).1,
    (none taken).2, (all dropped).2] at some
  rw [List.length_append] at enough
  omega

/-- The blocks of a grown file and its inode are written. -/
theorem CoherentFs.Growable.writeBlocks (growable : fs.Growable isize fsize last s list)
    (real : 1 ≤ s.inode.ino) (table : s.inode.ino ≤ (isize - 2) * inodesPerBlock)
    (inside : s.image.hasBlock (fs.inodeBlock s.inode.ino) = true) (few : n ≤ maxBlocks)
    (present : ∀ idx < n, fs.pointer s.image s.inode.toInode (dataPlace idx) ≠ 0) :
    Ends (do
      fs.writeChunks data ((List.range n).map
        fun idx => fs.pointer s.image s.inode.toInode (dataPlace idx))
      let now ← timeNow
      modify fun s => { s with
        inode := { s.inode with size := data.length, atime := now, mtime := now, ctime := now } }
      fs.writeInode) s
      (fun _ t => fs.Wrote s t ∧ t.calls = s.calls ∧ t.inode.size = data.length ∧
        t.inode.nlinks = s.inode.nlinks ∧ ∀ i < n, ∀ k < blockSize, t.image.readBlock
          (fs.partOff + fs.pointer s.image s.inode.toInode (dataPlace i)) k = chunkOf data i k)
      noRaise := by
  have low := fs.inodeBlock_lt real table
  have place : ∀ idx < n, (dataPlace idx).Valid ∧ (dataPlace idx).height = 0 := fun idx small =>
    have spec := dataPlace_spec (Nat.lt_of_lt_of_le small few)
    ⟨spec.1, spec.2.1⟩
  have nodup : ((List.range n).map
      fun idx => fs.pointer s.image s.inode.toInode (dataPlace idx)).Nodup := by
    refine (List.nodup_range).map_on fun i smallI j smallJ eq => ?_
    rw [List.mem_range] at smallI smallJ
    have same := growable.map.distinct (place i smallI).1 (place j smallJ).1 (present i smallI) eq
    rw [← (dataPlace_spec (Nat.lt_of_lt_of_le smallI few)).2.2, same,
      (dataPlace_spec (Nat.lt_of_lt_of_le smallJ few)).2.2]
  have area : ∀ idx < n, DataArea isize fsize (fs.pointer s.image s.inode.toInode (dataPlace idx)) :=
    fun idx small => growable.map.area (place idx small).1 (present idx small)
  refine .bind ((CoherentFs.writeChunks_ends nodup fun b member => ?_).mono ?_ fun _ _ => id)
  · obtain ⟨idx, small, rfl⟩ := List.mem_map.mp member
    exact growable.stock.inside _ (area idx (List.mem_range.mp small))
  rintro - t ⟨same, frame, written⟩
  -- The data blocks lie after the table.
  have untouched : t.image.readBlock (fs.inodeBlock s.inode.ino) =
      s.image.readBlock (fs.inodeBlock s.inode.ino) := by
    refine frame.block _ ?_
    rintro ⟨b, member, here⟩
    obtain ⟨idx, small, rfl⟩ := List.mem_map.mp member
    have first := (area idx (List.mem_range.mp small)).1
    omega
  have fits : t.image.hasBlock (fs.inodeBlock s.inode.ino) = true := by
    rw [frame.hasBlock]
    exact inside
  have inode : t.inode = s.inode := by rw [same]
  have calls : t.calls = s.calls := by rw [same]
  refine .bind (.of_ok (t := { t with clock := fun i => t.clock (i + 1) }) rfl (.bind (.update ?_)))
  refine (fs.writeInode_ends (inode ▸ fits)).mono ?_ fun _ _ => id
  rintro - u ⟨_, rfl, rfl⟩
  dsimp only
  rw [inode]
  refine ⟨⟨rfl, rfl, rfl, fun i small => ?_, ?_⟩, calls, rfl, rfl, fun i small k near => ?_⟩
  · dsimp only
    rw [Image.readBlock_setBlock_same _ fits small, untouched]
  · refine (frame.mono ?_).trans ((t.image.setBlock_agreeExcept _ _).mono fun _ => Or.inl)
    rintro bno ⟨b, member, here⟩
    obtain ⟨idx, small, rfl⟩ := List.mem_map.mp member
    have small := List.mem_range.mp small
    exact Or.inr ⟨_, (place idx small).1, (place idx small).2, present idx small, here⟩
  · have first := (area i small).1
    rw [Image.readBlock_setBlock_other _ _ (by omega)]
    exact written i _ (by rw [List.getElem?_map, List.getElem?_range small]; rfl) k near

/-- The part of `write_file` after the shrink only takes blocks. -/
theorem CoherentFs.writeRest_onlyTakes (fs : CoherentFs) (data : List (BitVec 8))
    (blocks : List Nat) :
    OnlyTakes (do
      fs.writeChunks data blocks
      let now ← timeNow
      modify fun s => { s with
        inode := { s.inode with size := data.length, atime := now, mtime := now, ctime := now } }
      fs.writeInode) :=
  .bind (.foldlM (fun _ _ => .onImage _) _ _) fun _ => .bind .timeNow fun _ =>
    .bind (fun s => .update (.refl s)) fun _ => .bind (fun s => .state (.refl s)) fun _ =>
      .bind (.onImage _) fun _ => .onImage _

/-- The part of `write_file` after the shrink. -/
theorem CoherentFs.CutBack.overwrite (growable : fs.Growable isize fsize last s list)
    (cut : fs.CutBack isize fsize last' s list dropped t) (real : 1 ≤ s.inode.ino)
    (table : s.inode.ino ≤ (isize - 2) * inodesPerBlock)
    (inside : s.image.hasBlock (fs.inodeBlock s.inode.ino) = true)
    (ends : (blocksOf data.length < blocksOf s.inode.size ∨
        ∀ {p : BlockPlace}, p.Valid → blocksOf s.inode.size ≤ p.first →
          fs.pointer s.image s.inode.toInode p = 0) →
      ∀ {p : BlockPlace}, p.Valid → blocksOf data.length ≤ p.first →
        fs.pointer t.image t.inode.toInode p = 0) :
    Ends (do
      let blocks ← fs.growToNBlocks (blocksOf data.length)
      fs.writeChunks data blocks
      let now ← timeNow
      modify fun s => { s with
        inode := { s.inode with size := data.length, atime := now, mtime := now, ctime := now } }
      fs.writeInode) t
      (fun _ u => (∃ rest, fs.Overwrote isize fsize last' data s list rest u) ∨
        fs.Exhausts last' (blocksOf data.length) t (dropped ++ list) u)
      fun e u => (∃ taken rest,
        fs.Grown isize fsize last' (blocksOf data.length) t (dropped ++ list) taken rest u ∧
          fs.GrowthStops last' (blocksOf data.length) rest u e) ∨
        fs.Exhausts last' (blocksOf data.length) t (dropped ++ list) u := by
  refine .bind (Ends.mono (cut.growable.growToNBlocks (blocksOf data.length)) ?_ fun _ _ => id)
  rintro blocks u (⟨taken, rest, grown, few, rfl, present⟩ | exhausts)
  swap
  · exact (fs.writeRest_onlyTakes data blocks u).mono
      (fun _ v more => Or.inr (exhausts.mono more)) fun _ _ more => Or.inr (exhausts.mono more)
  have inoT : t.inode.ino = s.inode.ino := by rw [cut.inode]
  have ino : u.inode.ino = s.inode.ino := by rw [grown.inode, inoT]
  have fits : u.image.hasBlock (fs.inodeBlock u.inode.ino) = true := by
    rw [grown.frame.hasBlock, cut.frame.hasBlock, ino]
    exact inside
  refine (grown.growable.writeBlocks (ino.symm ▸ real) (ino.symm ▸ table) fits few present).mono ?_
    fun _ _ => False.elim
  rintro - v ⟨wrote, calls, size, links, written⟩
  have revised := cut.revised growable grown wrote calls real table
  have same : ∀ {p : BlockPlace}, p.Valid →
      fs.pointer v.image v.inode.toInode p = fs.pointer u.image u.inode.toInode p :=
    fun valid => wrote.pointer grown.growable.map (ino.symm ▸ real) (ino.symm ▸ table) valid
  refine Or.inl ⟨rest, revised, size, few, ?_, fun i small => ?_, fun start p valid high => ?_⟩
  · rw [links, grown.inode, cut.inode]
  · have valid := (dataPlace_spec (Nat.lt_of_lt_of_le small few)).1
    rw [same valid]
    exact ⟨present i small, written i small⟩
  · rw [same valid]
    by_contra found
    have before := (grown.new valid (ends start valid high) found).1
    omega

/-- `write_file` on a regular file. -/
theorem CoherentFs.Growable.writeFile (growable : fs.Growable isize fsize last s list)
    (file : s.inode.isFile = true) (real : 1 ≤ s.inode.ino)
    (table : s.inode.ino ≤ (isize - 2) * inodesPerBlock)
    (inside : s.image.hasBlock (fs.inodeBlock s.inode.ino) = true) :
    Ends (fs.writeFile data) s
      (fun _ t => (∃ last' list', fs.Overwrote isize fsize last' data s list list' t ∧
        (blocksOf s.inode.size ≤ blocksOf data.length → last' = last)) ∨ (¬ LeavesFree list s t ∧
          (blocksOf s.inode.size ≤ blocksOf data.length →
            fs.Exhausts last (blocksOf data.length) s list t)))
      fun e t => blocksOf s.inode.size ≤ blocksOf data.length → (∃ taken rest,
        fs.Grown isize fsize last (blocksOf data.length) s list taken rest t ∧
          fs.GrowthStops last (blocksOf data.length) rest t e) ∨
        fs.Exhausts last (blocksOf data.length) s list t := by
  unfold CoherentFs.writeFile
  refine .bind (.state (.ite (fun other => ?_) fun _ => ?_))
  · rw [file] at other
    cases other
  refine .ite (fun shorter => .bind ?_) fun longer => ?_
  · refine (growable.cutBack _).mono ?_ fun _ _ => False.elim
    rintro - t ⟨last', dropped, cut, gone⟩
    refine (cut.overwrite growable real table inside fun _ _ valid high => gone valid high).mono
      (fun _ u => Or.imp (fun ⟨rest, over'⟩ => ⟨last', rest, over', fun le =>
        absurd shorter (Nat.not_lt.mpr le)⟩) fun exhausts => ⟨cut.not_leavesFree exhausts.1, fun le =>
          absurd shorter (Nat.not_lt.mpr le)⟩) fun _ _ _ le => absurd shorter (Nat.not_lt.mpr le)
  · have same := CoherentFs.CutBack.refl growable
    refine (same.overwrite growable real table inside fun start p valid high => ?_).mono
      (fun _ u => Or.imp (fun ⟨rest, over'⟩ => ⟨last, rest, over', fun _ => rfl⟩) fun exhausts =>
        ⟨same.not_leavesFree exhausts.1, fun _ => exhausts⟩) fun _ _ stops _ => stops
    exact (start.resolve_left longer) valid (Nat.le_trans (Nat.not_lt.mp longer) high)

end WriteFile

/-! ## The file afterwards -/

/-- The bytes of the chunks are the bytes of the data. -/
theorem chunkOf_apply {data : List (BitVec 8)} {i : Nat} (below : i < data.length) :
    chunkOf data (i / blockSize) (i % blockSize) = data[i] := by
  have some : 0 < blockSize := by decide
  have small : i % blockSize < blockSize := Nat.mod_lt _ some
  have whole : i / blockSize * blockSize + i % blockSize = i := by
    rw [Nat.mul_comm]
    exact Nat.div_add_mod i blockSize
  unfold chunkOf
  rw [List.getD_eq_getElem?_getD, List.getElem?_take_of_lt small, List.getElem?_drop, whole,
    List.getElem?_eq_getElem below]
  rfl

/-- The new content is read back. -/
theorem CoherentFs.Overwrote.readFile {fs : CoherentFs} {isize fsize : Nat} {last : Option Nat}
    {data : List (BitVec 8)} {s t : Session} {list list' : List Nat}
    (over' : fs.Overwrote isize fsize last data s list list' t) :
    fs.readFile t.image t.inode.toInode = data := by
  have few := over'.few
  have size := over'.size
  have fits : data.length ≤ maxBlocks * blockSize := by
    unfold blocksOf blockSize at few
    unfold blockSize
    omega
  rw [CoherentFs.readFile_eq over'.revised.growable.map.addrs, size, Nat.min_eq_left fits]
  refine List.ext_getElem ?_ fun i inRange inData => ?_
  · rw [List.length_map, List.length_range]
  have small : i / blockSize < blocksOf data.length := by
    unfold blocksOf blockSize
    omega
  obtain ⟨present, chunk⟩ := over'.chunks (i / blockSize) small
  rw [List.getElem_map, List.getElem_range]
  unfold CoherentFs.fileByte CoherentFs.absolute Image.readEntry
  rw [if_pos present]
  dsimp only
  rw [chunk _ (Nat.mod_lt _ (by decide)), chunkOf_apply inData]

/-- The allocator calls of a run that returns. -/
def returnedCalls : EStateM.Result FsError Session Unit → Option (List AllocCall)
  | .ok _ t => some t.calls
  | .error _ _ => none

theorem returnedCalls_eq {result : EStateM.Result FsError Session Unit} {calls : List AllocCall}
    (returned : returnedCalls result = some calls) :
    ∃ t, result = .ok ⟨⟩ t ∧ t.calls = calls := by
  cases result with
  | ok a t => exact ⟨t, rfl, Option.some.inj returned⟩
  | error e t => cases returned

end C900
