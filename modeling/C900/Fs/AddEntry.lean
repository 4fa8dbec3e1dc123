import C900.Fs.Locate
import C900.Fs.Overwrite

/-!
# Adding a directory entry

`add_dir_entry` fills the holes below the end of the directory, writes the entry into its block
and last the inode. The bytes of the other entries stay where the directory has all its blocks.
-/

namespace C900

open PointerTree

/-- The bytes of an entry are at its place, and the directory has the size. -/
structure CoherentFs.Entered (fs : CoherentFs) (isize fsize : Nat) (last : Option Nat)
    (entry : List (BitVec 8)) (off : Nat) (s : Session) (list list' : List Nat) (t : Session) :
    Prop where
  revised : fs.Revised isize fsize last s list list' t
  size : t.inode.size = s.inode.size
  few : blocksOf s.inode.size ≤ maxBlocks
  fits : off % blockSize + entry.length ≤ blockSize
  present : ∀ idx < blocksOf s.inode.size,
    fs.pointer t.image t.inode.toInode (dataPlace idx) ≠ 0
  old : ∀ {p : BlockPlace}, p.Valid → fs.pointer s.image s.inode.toInode p ≠ 0 →
    fs.pointer t.image t.inode.toInode p = fs.pointer s.image s.inode.toInode p
  ends : ∀ {p : BlockPlace}, p.Valid → blocksOf s.inode.size ≤ p.first →
    fs.pointer s.image s.inode.toInode p = 0 → fs.pointer t.image t.inode.toInode p = 0
  links : t.inode.nlinks = s.inode.nlinks
  written : ∀ j < entry.length, fs.fileByte t.image t.inode.toInode (off + j) = entry.getD j 0
  kept : ∀ i < s.inode.size, i < off ∨ off + entry.length ≤ i →
    fs.pointer s.image s.inode.toInode (dataPlace (i / blockSize)) ≠ 0 →
    fs.fileByte t.image t.inode.toInode i = fs.fileByte s.image s.inode.toInode i

section Enter

variable {fs : CoherentFs} {isize fsize n off : Nat} {last : Option Nat} {s t u : Session}
  {list taken rest : List Nat} {entry : List (BitVec 8)}

theorem CoherentFs.fileByte_present {image : Image} {inode : Inode} {i : Nat}
    (present : fs.pointer image inode (dataPlace (i / blockSize)) ≠ 0) :
    fs.fileByte image inode i = image.readBlock
      (fs.partOff + fs.pointer image inode (dataPlace (i / blockSize))) (i % blockSize) := by
  unfold CoherentFs.fileByte CoherentFs.absolute Image.readEntry
  rw [if_pos present]

/-- A data block that was there stays when the file grows. -/
theorem CoherentFs.Grown.data (growable : fs.Growable isize fsize last s list)
    (grown : fs.Grown isize fsize last n s list taken rest t) {p : BlockPlace} (valid : p.Valid)
    (leaf : p.height = 0) (found : fs.pointer s.image s.inode.toInode p ≠ 0) :
    t.image.readBlock (fs.partOff + fs.pointer s.image s.inode.toInode p) =
      s.image.readBlock (fs.partOff + fs.pointer s.image s.inode.toInode p) := by
  refine grown.frame.block _ ?_
  have low := (growable.map.area valid found).1
  have data := growable.stock.data
  rintro (sb | ⟨x, here, new | ⟨q, valid', tall, -, found'⟩⟩)
  · omega
  · refine growable.apart valid found ?_
    rw [grown.split, Nat.add_left_cancel here]
    exact List.mem_append_left _ new
  · have same := growable.map.distinct valid valid' found
      ((Nat.add_left_cancel here).trans found'.symm)
    exact tall (same ▸ leaf)

/-- A byte string is put into a data block. -/
theorem CoherentFs.writeBytes_ends {b : Nat}
    (inside : s.image.hasBlock (fs.partOff + b) = true) (fits : off + entry.length ≤ blockSize) :
    Ends (onImage (fs.writeBytes b off entry)) s (fun _ t => ∃ image, t = { s with image := image } ∧
      Image.AgreeExcept (· = fs.partOff + b) s.image image ∧
      ∀ k < blockSize, image.readBlock (fs.partOff + b) k =
        if off ≤ k ∧ k < off + entry.length then entry.getD (k - off) 0
        else s.image.readBlock (fs.partOff + b) k) noRaise := by
  have ran : onImage (fs.writeBytes b off entry) s = .ok () { s with
      image := s.image.setBlock (fs.partOff + b)
        ((s.image.readBlock (fs.partOff + b)).blit off (fun i => entry.getD i 0) 0
          entry.length) } := by
    have call : fs.writeBytes b off entry s.image = .ok () (s.image.setBlock (fs.partOff + b)
        ((s.image.readBlock (fs.partOff + b)).blit off (fun i => entry.getD i 0) 0
          entry.length)) := by
      unfold CoherentFs.writeBytes
      rw [EStateM.bind_ok (readBlock_apply _ _), if_neg (Nat.not_lt.mpr fits)]
      exact writeBlock_inside inside _
    unfold onImage
    rw [call]
  refine .of_ok ran ⟨_, rfl, s.image.setBlock_agreeExcept _ _, fun k small => ?_⟩
  rw [Image.readBlock_setBlock_same _ inside small]
  unfold Buffer.blit
  rw [Nat.zero_add]

/-- A byte string that does not fit into the block is refused. -/
theorem CoherentFs.writeBytes_wide {b : Nat} (wide : blockSize < off + entry.length) :
    onImage (fs.writeBytes b off entry) s =
      .error (.writeLength (fs.partOff + b) (off + entry.length)) s := by
  unfold onImage CoherentFs.writeBytes
  rw [EStateM.bind_ok (readBlock_apply _ _), if_pos wide]
  rfl

/-- The entry and the inode of a grown directory are written. -/
theorem CoherentFs.Grown.enter (growable : fs.Growable isize fsize last s list)
    (grown : fs.Grown isize fsize last (blocksOf s.inode.size) s list taken rest t)
    (few : blocksOf s.inode.size ≤ maxBlocks)
    (present : ∀ idx < blocksOf s.inode.size,
      fs.pointer t.image t.inode.toInode (dataPlace idx) ≠ 0)
    (real : 1 ≤ s.inode.ino) (table : s.inode.ino ≤ (isize - 2) * inodesPerBlock)
    (inside : s.image.hasBlock (fs.inodeBlock s.inode.ino) = true)
    (fits : off % blockSize + entry.length ≤ blockSize) (within : off < s.inode.size) :
    Ends (do
      onImage (fs.writeBytes (fs.pointer t.image t.inode.toInode (dataPlace (off / blockSize)))
        (off % blockSize) entry)
      let now ← timeNow
      modify fun s => { s with inode := { s.inode with mtime := now, ctime := now } }
      fs.writeInode) t (fun _ u => fs.Entered isize fsize last entry off s list rest u) noRaise := by
  have ino : t.inode.ino = s.inode.ino := by rw [grown.inode]
  have size : t.inode.size = s.inode.size := by rw [grown.inode]
  have low := fs.inodeBlock_lt real table
  have block : off / blockSize < blocksOf s.inode.size := by
    unfold blocksOf blockSize
    omega
  have place : ∀ {idx}, idx < blocksOf s.inode.size →
      (dataPlace idx).Valid ∧ (dataPlace idx).height = 0 ∧ (dataPlace idx).first = idx :=
    fun small => dataPlace_spec (Nat.lt_of_lt_of_le small few)
  have area : ∀ {idx}, idx < blocksOf s.inode.size →
      DataArea isize fsize (fs.pointer t.image t.inode.toInode (dataPlace idx)) :=
    fun small => grown.growable.map.area (place small).1 (present _ small)
  refine .bind ((CoherentFs.writeBytes_ends (grown.growable.stock.inside _ (area block))
    fits).mono ?_ fun _ _ => id)
  rintro - _ ⟨image, rfl, frame, written⟩
  -- The inode lies before the data blocks.
  have untouched : image.readBlock (fs.inodeBlock t.inode.ino) =
      t.image.readBlock (fs.inodeBlock t.inode.ino) := by
    have first := (area block).1
    refine frame.block _ ?_
    rw [ino]
    omega
  have room : image.hasBlock (fs.inodeBlock t.inode.ino) = true := by
    rw [frame.hasBlock, grown.frame.hasBlock, ino]
    exact inside
  refine .bind (.of_ok (t := { t with clock := fun i => t.clock (i + 1), image := image }) rfl
    (.bind (.update ?_)))
  refine (fs.writeInode_ends room).mono ?_ fun _ _ => id
  rintro - u ⟨after, rfl, packed⟩
  have wrote : fs.Wrote t { t with
      image := after
      clock := fun i => t.clock (i + 1)
      inode := { t.inode with mtime := t.clock 0, ctime := t.clock 0 } } := by
    refine ⟨rfl, rfl, rfl, fun i small => ?_, ?_⟩
    · dsimp only at packed ⊢
      rw [packed, Image.readBlock_setBlock_same _ room small, untouched]
    · refine (frame.mono fun _ here => ?_).trans ?_
      · exact Or.inr ⟨_, (place block).1, (place block).2.1, present _ block, here⟩
      · rw [packed]
        exact (image.setBlock_agreeExcept _ _).mono fun _ => Or.inl
  have same : ∀ {p : BlockPlace}, p.Valid →
      fs.pointer after t.inode.toInode p = fs.pointer t.image t.inode.toInode p :=
    fun valid => wrote.pointer grown.growable.map (ino.symm ▸ real) (ino.symm ▸ table) valid
  have content : ∀ {idx}, idx < blocksOf s.inode.size →
      after.readBlock (fs.partOff + fs.pointer t.image t.inode.toInode (dataPlace idx)) =
        image.readBlock (fs.partOff + fs.pointer t.image t.inode.toInode (dataPlace idx)) := by
    intro idx small
    have first := (area small).1
    rw [packed]
    refine Image.readBlock_setBlock_other _ _ ?_
    dsimp only
    rw [ino]
    omega
  have byte : ∀ {i}, i / blockSize < blocksOf s.inode.size →
      fs.fileByte after t.inode.toInode i = image.readBlock
        (fs.partOff + fs.pointer t.image t.inode.toInode (dataPlace (i / blockSize)))
        (i % blockSize) := by
    intro i small
    have pointer := same (place small).1
    rw [CoherentFs.fileByte_present (pointer ▸ present _ small), pointer, content small]
  have some : 0 < blockSize := by decide
  refine ⟨CoherentFs.CutBack.revised growable (.refl growable) grown wrote rfl real table, size, few,
    fits, fun idx small => ?_, fun valid found => ?_, fun valid high none => ?_, ?_,
    fun j small => ?_, fun i below outside found => ?_⟩
  · exact (same (place small).1).symm ▸ present idx small
  · exact (same valid).trans (grown.old valid found)
  · refine (same valid).trans ?_
    by_contra found
    exact absurd (grown.new valid none found).1 (Nat.not_lt.mpr high)
  · dsimp only
    rw [grown.inode]
  · have div : (off + j) / blockSize = off / blockSize := by
      unfold blockSize at fits ⊢
      omega
    have mod : (off + j) % blockSize = off % blockSize + j := by
      unfold blockSize at fits ⊢
      omega
    refine (byte (div ▸ block)).trans ?_
    rw [div, mod, written _ (by omega), if_pos (by omega), Nat.add_sub_cancel_left]
  · have small : i / blockSize < blocksOf s.inode.size := by
      unfold blocksOf blockSize
      omega
    obtain ⟨valid, leaf, first⟩ := place small
    have old := grown.old valid found
    have kept := grown.data growable valid leaf found
    refine (byte small).trans ?_
    rw [CoherentFs.fileByte_present found, ← kept, ← old]
    by_cases here : i / blockSize = off / blockSize
    · rw [here, written _ (Nat.mod_lt _ some), if_neg]
      have iSplit := Nat.div_add_mod i blockSize
      have offSplit := Nat.div_add_mod off blockSize
      rw [here] at iSplit
      omega
    · refine congrFun (frame.block _ fun eq => here ?_) _
      have pointers := Nat.add_left_cancel eq
      have places := grown.growable.map.distinct valid (place block).1 (present _ small) pointers
      rw [← first, places, (place block).2.2]

/-- `add_dir_entry` after its checks. -/
theorem CoherentFs.Growable.enter (entry : List (BitVec 8)) (off : Nat)
    (growable : fs.Growable isize fsize last s list)
    (real : 1 ≤ s.inode.ino) (table : s.inode.ino ≤ (isize - 2) * inodesPerBlock)
    (inside : s.image.hasBlock (fs.inodeBlock s.inode.ino) = true)
    (within : off < s.inode.size) :
    Ends (do
      let blocks ← fs.growToNBlocks (blocksOf s.inode.size)
      onImage (fs.writeBytes (blocks.getD (off / blockSize) 0) (off % blockSize) entry)
      let now ← timeNow
      modify fun s => { s with inode := { s.inode with mtime := now, ctime := now } }
      fs.writeInode) s
      (fun _ t => (∃ list', fs.Entered isize fsize last entry off s list list' t) ∨
        fs.Exhausts last (blocksOf s.inode.size) s list t)
      fun e t => (∃ taken rest,
        fs.Grown isize fsize last (blocksOf s.inode.size) s list taken rest t ∧
          (fs.GrowthStops last (blocksOf s.inode.size) rest t e ∨
            (blockSize < off % blockSize + entry.length ∧ (∀ idx < blocksOf s.inode.size,
              fs.pointer t.image t.inode.toInode (dataPlace idx) ≠ 0) ∧
                ∃ bno n, e = .writeLength bno n))) ∨
        fs.Exhausts last (blocksOf s.inode.size) s list t := by
  refine .bind (Ends.mono (growable.growToNBlocks (blocksOf s.inode.size)) ?_ fun _ _ =>
    Or.imp_left fun ⟨taken, rest, grown, stops⟩ => ⟨taken, rest, grown, Or.inl stops⟩)
  rintro blocks t (⟨taken, rest, grown, few, rfl, present⟩ | exhausts)
  · have block : off / blockSize < blocksOf s.inode.size := by
      unfold blocksOf blockSize
      omega
    rw [List.getD_eq_getElem?_getD, List.getElem?_map, List.getElem?_range block]
    by_cases fits : off % blockSize + entry.length ≤ blockSize
    · exact (grown.enter growable few present real table inside fits within).mono
        (fun _ u entered => Or.inl ⟨rest, entered⟩) fun _ _ => False.elim
    · exact .bind (.of_error (CoherentFs.writeBytes_wide (Nat.not_le.mp fits))
        (Or.inl ⟨taken, rest, grown, Or.inr ⟨Nat.not_le.mp fits, present, _, _, rfl⟩⟩))
  · have only : OnlyTakes (do
        onImage (fs.writeBytes (blocks.getD (off / blockSize) 0) (off % blockSize) entry)
        let now ← timeNow
        modify fun s => { s with inode := { s.inode with mtime := now, ctime := now } }
        fs.writeInode) :=
      .bind (.onImage _) fun _ => .bind .timeNow fun _ => .bind (fun s => .update (.refl s))
        fun _ => .bind (fun s => .state (.refl s)) fun _ => .bind (.onImage _) fun _ => .onImage _
    exact (only t).mono (fun _ u more => Or.inr (exhausts.mono more))
      fun _ _ more => Or.inr (exhausts.mono more)

end Enter

/-! ## The directory afterwards -/

/-- The parent while the entry is written. -/
def OpenInode.withSize (inode : OpenInode) (size : Nat) : OpenInode := { inode with size := size }

/-- The session with the new size of the parent. -/
def Session.withSize (s : Session) (size : Nat) : Session :=
  { s with inode := s.inode.withSize size }

/-- Where the entry goes in a directory of a size. -/
def entryOffset (body : List (BitVec 8)) (size : Nat) : Nat := (insertOffset body).getD size

/-- The size of a directory with the entry. -/
def grownSize (body : List (BitVec 8)) (size : Nat) : Nat :=
  if insertOffset body = none then size + direntSize else size

/-- The holes of a directory that a new entry fills. -/
def CoherentFs.entryHoles (fs : CoherentFs) (image : Image) (parent : Inode) : List BlockPlace :=
  fs.holes image parent (blocksOf (grownSize (fs.readFile image parent) parent.size))

section Directory

variable {fs : CoherentFs} {isize fsize : Nat} {last : Option Nat} {s t : Session}
  {list list' : List Nat} {entry : List (BitVec 8)} {name : PosixPath} {childIno : Nat}

/-- The new size is not part of the block map. -/
theorem CoherentFs.Growable.withSize (growable : fs.Growable isize fsize last s list) (size : Nat) :
    fs.Growable isize fsize last (s.withSize size) list :=
  ⟨⟨growable.map.addrs, growable.map.area, growable.map.distinct⟩, growable.stock, growable.apart⟩

theorem CoherentFs.Revised.plain {size : Nat}
    (revised : fs.Revised isize fsize last (s.withSize size) list list' t) :
    fs.Revised isize fsize last s list list' t :=
  ⟨revised.growable, revised.ino, revised.mode, revised.packed, revised.frame, revised.free,
    revised.mine, revised.cache, revised.calls⟩

/-- The content of a file that is not larger than the largest file. -/
theorem CoherentFs.readFile_whole {image : Image} {inode : Inode}
    (addrs : inode.addrs.length = rootCount) (few : blocksOf inode.size ≤ maxBlocks) :
    fs.readFile image inode = (List.range inode.size).map (fs.fileByte image inode) := by
  have fits : inode.size ≤ maxBlocks * blockSize := by
    unfold blocksOf blockSize at few
    unfold blockSize
    omega
  rw [CoherentFs.readFile_eq addrs, Nat.min_eq_left fits]

/-- An entry fits into the directory with its new size. -/
theorem entryOffset_le {body : List (BitVec 8)} {size : Nat} (length : body.length ≤ size) :
    entryOffset body size + direntSize ≤ grownSize body size := by
  unfold entryOffset grownSize
  cases found : insertOffset body with
  | none =>
    rw [if_pos rfl]
    exact Nat.le_refl _
  | some off =>
    obtain ⟨k, inside, rfl, -⟩ := insertOffset_some found
    rw [if_neg nofun, Option.getD_some]
    have whole := Nat.div_mul_le_self body.length direntSize
    unfold direntSize at *
    omega

/-- The entries lie at multiples of their size. -/
theorem entryOffset_spec {body : List (BitVec 8)} {size : Nat} (length : body.length ≤ size)
    (aligned : direntSize ∣ size) :
    direntSize ∣ entryOffset body size ∧
      entryOffset body size + direntSize ≤ grownSize body size ∧
      ((grownSize body size = size ∧ insertOffset body ≠ none) ∨
        (entryOffset body size = size ∧ grownSize body size = size + direntSize)) := by
  have fits := entryOffset_le length
  unfold entryOffset grownSize at fits ⊢
  cases found : insertOffset body with
  | none =>
    rw [found] at fits
    exact ⟨aligned, fits, Or.inr ⟨rfl, if_pos rfl⟩⟩
  | some off =>
    rw [found] at fits
    obtain ⟨k, -, rfl, -⟩ := insertOffset_some found
    exact ⟨Nat.dvd_mul_right _ _, fits, Or.inl ⟨if_neg nofun, nofun⟩⟩

/-- The slot of the new entry holds no entry before. -/
theorem dirEntries_around {body : List (BitVec 8)} {size : Nat} (length : body.length = size)
    (aligned : direntSize ∣ size) :
    (body.take (entryOffset body size)).length = direntSize * (entryOffset body size / direntSize) ∧
      dirEntries body = dirEntries (body.take (entryOffset body size)) ++
        dirEntries (body.drop (entryOffset body size + direntSize)) := by
  obtain ⟨slot, fits, -⟩ := entryOffset_spec (Nat.le_of_eq length) aligned
  rw [Nat.mul_div_cancel' slot, List.length_take]
  unfold entryOffset
  cases found : insertOffset body with
  | none =>
    rw [Option.getD_none, ← length, List.take_length, List.drop_of_length_le (Nat.le_add_right _ _)]
    exact ⟨Nat.min_self _, (List.append_nil _).symm⟩
  | some off =>
    obtain ⟨k, inside, rfl, free⟩ := insertOffset_some found
    rw [Option.getD_some]
    have room : direntSize * k + direntSize ≤ body.length := by
      rw [← Nat.mul_succ, Nat.mul_comm]
      exact Nat.le_trans (Nat.mul_le_mul_right _ inside) (Nat.div_mul_le_self _ _)
    have front : (body.take (direntSize * k)).length = direntSize * k := by
      rw [List.length_take]
      omega
    have whole : (direntAt body k).length = direntSize := by
      unfold direntAt
      rw [List.length_take, List.length_drop]
      omega
    have split : body = body.take (direntSize * k) ++ direntAt body k ++
        body.drop (direntSize * k + direntSize) := by
      unfold direntAt
      rw [List.append_assoc, ← List.drop_drop, List.take_append_drop, List.take_append_drop]
    refine ⟨Nat.min_eq_left (by omega), ?_⟩
    have entries : dirEntries (_ ++ _ ++ body.drop (direntSize * k + direntSize)) = _ :=
      dirEntries_slot front whole
    rw [← split, readDirent_free free] at entries
    exact entries

/-- The bytes of the entry replace those of the slot. -/
theorem CoherentFs.Entered.readFile
    (entered : fs.Entered isize fsize last entry
      (entryOffset (fs.readFile s.image s.inode.toInode) s.inode.size)
      (s.withSize (grownSize (fs.readFile s.image s.inode.toInode) s.inode.size)) list list' t)
    (addrs : s.inode.addrs.length = rootCount) (aligned : direntSize ∣ s.inode.size)
    (dense : ∀ idx < blocksOf s.inode.size, idx < maxBlocks →
      fs.pointer s.image s.inode.toInode (dataPlace idx) ≠ 0)
    (whole : entry.length = direntSize) :
    let body := fs.readFile s.image s.inode.toInode
    let off := entryOffset body s.inode.size
    body.length = s.inode.size ∧
      fs.readFile t.image t.inode.toInode =
        body.take off ++ entry ++ body.drop (off + direntSize) := by
  have few : blocksOf s.inode.size ≤ maxBlocks := by
    refine Nat.le_trans ?_ entered.few
    have larger : s.inode.size ≤ grownSize (fs.readFile s.image s.inode.toInode) s.inode.size := by
      unfold grownSize
      split <;> omega
    unfold blocksOf blockSize
    change _ ≤ (grownSize _ _ + 512 - 1) / 512
    omega
  have content : fs.readFile s.image s.inode.toInode = _ := CoherentFs.readFile_whole addrs few
  have length : (fs.readFile s.image s.inode.toInode).length = s.inode.size := by
    rw [content, List.length_map, List.length_range]
  obtain ⟨-, fits, cases⟩ := entryOffset_spec (Nat.le_of_eq length) aligned
  have size := entered.size
  have content' : fs.readFile t.image t.inode.toInode = _ :=
    CoherentFs.readFile_whole entered.revised.growable.map.addrs (size.symm ▸ entered.few)
  have written := entered.written
  have kept := entered.kept
  change t.inode.size = grownSize _ _ at size
  change ∀ i < grownSize _ _, _ → _ → _ = fs.fileByte s.image s.inode.toInode i at kept
  dsimp only
  generalize fs.readFile s.image s.inode.toInode = body at *
  generalize entryOffset body s.inode.size = off at *
  generalize grownSize body s.inode.size = size' at *
  obtain ⟨rest, rfl⟩ := Nat.exists_eq_add_of_le fits
  refine ⟨length, ?_⟩
  have byte : ∀ i < s.inode.size, i < off ∨ off + direntSize ≤ i →
      fs.fileByte t.image t.inode.toInode i = fs.fileByte s.image s.inode.toInode i := by
    intro i below outside
    refine kept i ?_ (whole.symm ▸ outside) (dense _ ?_ ?_)
    · rcases cases with ⟨same, -⟩ | ⟨-, same⟩ <;> omega
    · unfold blocksOf blockSize
      omega
    · unfold blocksOf blockSize at few
      unfold blockSize
      omega
  have front : off ≤ s.inode.size := by
    rcases cases with ⟨same, -⟩ | ⟨same, -⟩ <;> omega
  rw [content', size, List.range_add, List.range_add, List.map_append, List.map_append,
    List.map_map, List.map_map, content, ← List.map_take, ← List.map_drop, List.take_range,
    Nat.min_eq_left front]
  refine congrArg₂ (· ++ ·) (congrArg₂ (· ++ ·) ?_ ?_) ?_
  · refine List.map_congr_left fun i member => ?_
    have small := List.mem_range.mp member
    exact byte i (by omega) (Or.inl small)
  · refine List.ext_getElem ?_ fun j inMap inEntry => ?_
    · rw [List.length_map, List.length_range, whole]
    · rw [List.getElem_map, List.getElem_range, Function.comp_apply, written j inEntry,
        List.getD_eq_getElem?_getD, List.getElem?_eq_getElem inEntry]
      rfl
  · rcases cases with ⟨same, -⟩ | ⟨rfl, same⟩
    · rw [← same, List.range_add, List.drop_left' List.length_range, List.map_map]
      refine List.map_congr_left fun i member => ?_
      have small := List.mem_range.mp member
      exact byte (off + direntSize + i) (by omega) (Or.inr (Nat.le_add_right _ _))
    · obtain rfl : rest = 0 := by omega
      rw [List.drop_of_length_le (by rw [List.length_range]; omega)]
      rfl

/-- The checks of `add_dir_entry` that fail before anything changes. -/
def CoherentFs.EntryRefused (fs : CoherentFs) (s : Session) (name : PosixPath) (childIno : Nat)
    (e : FsError) : Prop :=
  validateName name = .error e ∨ (s.inode.isDir = false ∧ e = .notDirectory s.inode.ino) ∨
    scanDir (fs.readFile s.image s.inode.toInode) name = .error e ∨
    ((∃ reuse, scanDir (fs.readFile s.image s.inode.toInode) name = .ok reuse) ∧
      encodeDirent childIno name = .error e)

/-- The checks of `add_dir_entry` have passed. -/
structure CoherentFs.EntryReady (fs : CoherentFs) (s : Session) (name : PosixPath) (childIno : Nat) :
    Prop where
  scanned : ∃ reuse, scanDir (fs.readFile s.image s.inode.toInode) name = .ok reuse
  encoded : ∃ entry, encodeDirent childIno name = .ok entry

/-- Why an entry is not written at `off` into a directory that is grown to `n` blocks: the growth
stops, or the entry does not lie in one block. -/
def CoherentFs.EntryStops (fs : CoherentFs) (last : Option Nat) (off n : Nat) (rest : List Nat)
    (t : Session) (e : FsError) : Prop :=
  fs.GrowthStops last n rest t e ∨ (blockSize < off % blockSize + direntSize ∧
    (∀ idx < n, fs.pointer t.image t.inode.toInode (dataPlace idx) ≠ 0) ∧
      ∃ bno len, e = .writeLength bno len)

/-- `add_dir_entry`: its ends, as the checks, the growth and the free list have them. -/
theorem CoherentFs.Growable.addDirEntry (growable : fs.Growable isize fsize last s list)
    (real : 1 ≤ s.inode.ino) (table : s.inode.ino ≤ (isize - 2) * inodesPerBlock)
    (inside : s.image.hasBlock (fs.inodeBlock s.inode.ino) = true) :
    Ends (fs.addDirEntry name childIno) s
      (fun _ t => validateName name = .ok () ∧ s.inode.isDir = true ∧
        (∃ reuse, scanDir (fs.readFile s.image s.inode.toInode) name = .ok reuse) ∧
        ∃ entry, encodeDirent childIno name = .ok entry ∧
          ((∃ list', fs.Entered isize fsize last entry
            (entryOffset (fs.readFile s.image s.inode.toInode) s.inode.size)
            (s.withSize (grownSize (fs.readFile s.image s.inode.toInode) s.inode.size))
            list list' t) ∨ fs.Exhausts last
              (blocksOf (grownSize (fs.readFile s.image s.inode.toInode) s.inode.size)) s list t))
      fun e t => (t = s ∧ fs.EntryRefused s name childIno e) ∨ (∃ taken rest,
        fs.EntryReady s name childIno ∧ fs.Grown isize fsize last
          (blocksOf (grownSize (fs.readFile s.image s.inode.toInode) s.inode.size))
          (s.withSize (grownSize (fs.readFile s.image s.inode.toInode) s.inode.size))
          list taken rest t ∧ fs.EntryStops last
            (entryOffset (fs.readFile s.image s.inode.toInode) s.inode.size)
            (blocksOf (grownSize (fs.readFile s.image s.inode.toInode) s.inode.size)) rest t e) ∨
        fs.Exhausts last
          (blocksOf (grownSize (fs.readFile s.image s.inode.toInode) s.inode.size)) s list t := by
  have length : (fs.readFile s.image s.inode.toInode).length ≤ s.inode.size := by
    rw [CoherentFs.readFile_eq growable.map.addrs, List.length_map, List.length_range]
    exact Nat.min_le_left _ _
  have fits := entryOffset_le length
  unfold CoherentFs.addDirEntry
  refine .bind (.lifted (fun _ valid => .bind (.state ?_)) fun e raised =>
    Or.inl ⟨rfl, Or.inl raised⟩)
  refine .ite (fun other => .bind (.raise (Or.inl ⟨rfl, Or.inr (Or.inl ⟨?_, rfl⟩)⟩))) fun dir => ?_
  · exact Bool.not_eq_true' _ ▸ other
  have isDir : s.inode.isDir = true := by
    cases flag : s.inode.isDir with
    | true => rfl
    | false =>
      rw [flag] at dir
      exact absurd rfl dir
  refine .bind (.lifted (fun reuse scanned => ?_) fun e raised =>
    Or.inl ⟨rfl, Or.inr (Or.inr (Or.inl raised))⟩)
  refine .bind (.lifted (fun entry encoded => ?_) fun e raised =>
    Or.inl ⟨rfl, Or.inr (Or.inr (Or.inr ⟨⟨reuse, scanned⟩, raised⟩))⟩)
  have whole := encodeDirent_length encoded (validateName_ok valid).2.2.2.2.2
  obtain ⟨rfl, -⟩ := scanDir_ok scanned
  refine .bind (.update ?_)
  have grows := growable.withSize (grownSize (fs.readFile s.image s.inode.toInode) s.inode.size)
  have ends := grows.enter entry
    (entryOffset (fs.readFile s.image s.inode.toInode) s.inode.size) real table inside
    (Nat.lt_of_lt_of_le (Nat.lt_add_of_pos_right (by decide)) fits)
  refine ends.mono (fun _ t holds => ⟨valid, isDir, ⟨_, scanned⟩, entry, encoded, holds⟩)
    fun _ t holds => Or.inr (holds.imp_left ?_)
  rintro ⟨taken, rest, grown, stops⟩
  rw [whole] at stops
  exact ⟨taken, rest, ⟨⟨_, scanned⟩, entry, encoded⟩, grown, stops⟩

/-- A file that is not larger than the largest file has a size of 32 bits. -/
theorem size_lt {size : Nat} (few : blocksOf size ≤ maxBlocks) : size < 2 ^ 32 := by
  have most : maxBlocks = 2113674 := by decide
  unfold blocksOf blockSize at few
  omega

end Directory

/-- A partition with a directory of two slots, one of them free, and an empty file. -/
def slotImage : Image where
  len := 6 * 512
  byte := fun i =>
    if i = 512 then 3 else if i = 516 then 6 else if i = 1025 then 0x40 else if i = 1034 then 32
    else if i = 1037 then 3 else if i = 1089 then 0x80 else if i = 1536 then 1
    else if i = 1538 then 0x2E else 0

/-- The directory, with its block. -/
def slotDir (block : Nat) : OpenInode :=
  { inodeOf [block, 0, 0, 0, 0, 0, 0, 0, 0, 0, 0, 0, 0] with mode := sIfdir, size := 32 }

/-- The empty file. -/
def slotFile : Inode := ⟨sIfreg, 0, [0, 0, 0, 0, 0, 0, 0, 0, 0, 0, 0, 0, 0]⟩

/-- The session on one of the images. -/
def slotSession (image : Image) (block : Nat) : Session := ⟨image, fun _ => 0, slotDir block, []⟩

theorem slot_owner {image : Image} {ino : Nat} {dir inode : Inode}
    (stats : ∀ ino < 9, 1 ≤ ino → CoherentFs.stat ⟨0⟩ image ino =
      if ino = 1 then some dir else if ino = 2 then some slotFile else none)
    (owner : CoherentFs.Owner ⟨0⟩ 3 image ino inode) :
    (ino = 1 ∧ inode = dir) ∨ (ino = 2 ∧ inode = slotFile) := by
  have stat := owner.stat
  rw [stats ino (Nat.lt_succ_of_le owner.last) owner.real] at stat
  split at stat
  · next first => exact Or.inl ⟨first, (Option.some.inj stat).symm⟩
  · split at stat
    · next second => exact Or.inr ⟨second, (Option.some.inj stat).symm⟩
    · cases stat

theorem slot_consistent {image : Image} {block : Nat} {list : List Nat} {dir : Inode}
    (stats : ∀ ino < 9, 1 ≤ ino → CoherentFs.stat ⟨0⟩ image ino =
      if ino = 1 then some dir else if ino = 2 then some slotFile else none)
    (single : dir.addrs = (slotDir block).addrs)
    (inside : ∀ b < 6, image.hasBlock (0 + b) = true)
    (stock : ∃ nfree tfree, CoherentFs.Holds ⟨0⟩ image 3 6 none nfree tfree list)
    (nodup : list.Nodup) (used : block ≠ 0 → DataArea 3 6 block ∧ block ∉ list) :
    CoherentFs.Consistent ⟨0⟩ 3 6 none image list := by
  have addrs : ∀ root, dir.addrs.getD root 0 = if root = 0 then block else 0 := by
    intro root
    rw [single]
    match root with
    | 0 | 1 | 2 | 3 | 4 | 5 | 6 | 7 | 8 | 9 | 10 | 11 | 12 | _ + 13 => rfl
  have addrs' : ∀ root, slotFile.addrs.getD root 0 = 0 := by
    intro root
    match root with
    | 0 | 1 | 2 | 3 | 4 | 5 | 6 | 7 | 8 | 9 | 10 | 11 | 12 | _ + 13 => rfl
  -- Only the directory has a block.
  have only : ∀ {ino inode}, CoherentFs.Owner ⟨0⟩ 3 image ino inode → ∀ root,
      inode.addrs.getD root 0 ≠ 0 → ino = 1 ∧ root = 0 ∧ inode.addrs.getD root 0 = block := by
    intro ino inode owner root found
    rcases slot_owner stats owner with ⟨first, rfl⟩ | ⟨-, rfl⟩
    · rw [addrs] at found ⊢
      by_cases zero : root = 0
      · rw [if_pos zero]
        exact ⟨first, zero, rfl⟩
      · rw [if_neg zero] at found
        exact absurd rfl found
    · exact absurd (addrs' root) found
  refine CoherentFs.consistent_direct ⟨by decide, stock, nodup, fun b inArea => inside b inArea.2⟩
    (by decide) (fun b low => inside b (Nat.lt_trans low (by decide))) ?_ ?_ ?_
  · intro ino inode owner root _ tree
    by_contra found
    obtain ⟨-, rfl, -⟩ := only owner root found
    exact absurd tree (by decide)
  · intro ino inode owner root _ found
    obtain ⟨-, -, here⟩ := only owner root found
    rw [here] at found ⊢
    exact used found
  · intro ino inode other inode' owner owner' root _ root' _ found same
    obtain ⟨first, zero, -⟩ := only owner root found
    obtain ⟨first', zero', -⟩ := only owner' root' (same ▸ found)
    exact ⟨first.trans first'.symm, zero.trans zero'.symm⟩

theorem slotImage_stat : ∀ ino < 9, 1 ≤ ino → CoherentFs.stat ⟨0⟩ slotImage ino =
    if ino = 1 then some (slotDir 3).toInode else if ino = 2 then some slotFile else none := by
  decide

theorem slotImage_consistent : CoherentFs.Consistent ⟨0⟩ 3 6 none slotImage [] :=
  slot_consistent slotImage_stat rfl (by decide) ⟨0, 0, by decide,
    fun i => (slotImage.readBlock 1).get32 (sbFree + i * 4),
    ⟨by decide, by decide, by decide, by decide, fun _ _ => rfl, by decide⟩, .empty rfl⟩
    List.nodup_nil fun _ => ⟨⟨by decide, by decide⟩, List.not_mem_nil⟩

theorem slotImage_owner : CoherentFs.Owner ⟨0⟩ 3 slotImage 1 (slotDir 3).toInode :=
  ⟨by decide, by decide, slotImage_stat 1 (by decide) (by decide), by decide⟩

end C900
