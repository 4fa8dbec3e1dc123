import C900.Fs.Consistent
import C900.Fs.Create

/-!
# The inode cache

`alloc_inode` takes the last number of the cache and fills an empty cache from the table, where a
slot with a mode of 0 is free; `free_inode` clears the slot and pushes the number while there is
room. The cache holds distinct numbers of free slots after each of them.
-/

namespace C900

/-- The numbers in the cache of a superblock. -/
def cachedInodes (sb : Buffer) : List Nat :=
  (List.range (sb.get16 sbNinode)).map fun i => sb.get16 (sbInode + i * 2)

/-- Slot `ino` of the inode table is free. -/
structure CoherentFs.FreeSlot (fs : CoherentFs) (isize : Nat) (image : Image) (ino : Nat) : Prop
    where
  real : 1 ≤ ino
  last : ino ≤ (isize - 2) * inodesPerBlock
  unused : fs.stat image ino = none

/-- The cache holds distinct numbers of free slots. -/
structure CoherentFs.InodeCache (fs : CoherentFs) (isize : Nat) (image : Image) : Prop where
  few : (image.readBlock (fs.partOff + 1)).get16 sbNinode ≤ nicInode
  distinct : (cachedInodes (image.readBlock (fs.partOff + 1))).Nodup
  free : ∀ ino ∈ cachedInodes (image.readBlock (fs.partOff + 1)), fs.FreeSlot isize image ino

/-! ## The fields of the superblock -/

section Fields

variable {sb other : Buffer} {list : List Nat} {ino n : Nat}

theorem cachedInodes_length (sb : Buffer) : (cachedInodes sb).length = sb.get16 sbNinode := by
  rw [cachedInodes, List.length_map, List.length_range]

/-- The cache depends on its count and on the entries below it. -/
theorem cachedInodes_congr (count : other.get16 sbNinode = sb.get16 sbNinode)
    (entries : ∀ i < sb.get16 sbNinode,
      other.get16 (sbInode + i * 2) = sb.get16 (sbInode + i * 2)) :
    cachedInodes other = cachedInodes sb := by
  unfold cachedInodes
  rw [count]
  exact List.map_congr_left fun i member => entries i (List.mem_range.mp member)

/-- The last number goes with the count. -/
theorem cachedInodes_pop (count : sb.get16 sbNinode = n + 1) (less : other.get16 sbNinode = n)
    (entries : ∀ i < n, other.get16 (sbInode + i * 2) = sb.get16 (sbInode + i * 2)) :
    cachedInodes sb = cachedInodes other ++ [sb.get16 (sbInode + n * 2)] := by
  unfold cachedInodes
  rw [count, less, List.range_succ, List.map_append, List.map_singleton]
  congr 1
  exact List.map_congr_left fun i member => (entries i (List.mem_range.mp member)).symm

/-- The bytes of a superblock that the inode allocator does not use. -/
def BlockFields (sb other : Buffer) : Prop :=
  ∀ i, i < sbNinode ∨ (sbTfree ≤ i ∧ i < sbTinode) → other i = sb i

theorem BlockFields.refl (sb : Buffer) : BlockFields sb sb := fun _ _ => rfl

theorem BlockFields.set16 (fields : BlockFields sb other) {p v : Nat}
    (apart : (sbNinode ≤ p ∧ p + 2 ≤ sbFlock) ∨ sbTinode ≤ p) :
    BlockFields sb (other.set16 p v) := by
  intro i inside
  rw [Buffer.set16_apply_of_ne (by unfold sbNinode sbFlock sbTfree sbTinode at *; omega),
    fields i inside]

theorem BlockFields.touchSb (fields : BlockFields sb other) (now : Nat) :
    BlockFields sb (touchSb other now) := by
  intro i inside
  have range : sbFmod = 468 ∧ sbTime = 470 ∧ sbNinode = 264 ∧ sbTfree = 474 := by decide
  unfold C900.touchSb
  rw [Buffer.set32_apply_of_ne (by omega), Buffer.set8_apply_of_ne (by omega), fields i inside]

/-- The time stamp lies apart from the inode fields. -/
theorem get16_touchSb (now : Nat) {o : Nat} (apart : o + 2 ≤ sbFlock ∨ sbTinode ≤ o) :
    (touchSb sb now).get16 o = sb.get16 o := by
  have range : sbFmod = 468 ∧ sbTime = 470 ∧ sbFlock = 466 ∧ sbTinode = 478 := by decide
  unfold touchSb
  rw [Buffer.get16_set32_apart (by omega)]
  exact Buffer.get16_congr _ (Buffer.set8_apply_of_ne (by omega)) (Buffer.set8_apply_of_ne (by omega))

end Fields

section Cache

variable {fs : CoherentFs} {isize fsize ino : Nat} {last last' : Option Nat} {image after : Image}
  {list : List Nat}

/-- The inode of another block stays. -/
theorem CoherentFs.SbOnly.openStat (only : fs.SbOnly image after) (ino : Nat) :
    fs.openStat after ino = fs.openStat image ino := by
  by_cases real : 1 ≤ ino
  · have behind : fs.partOff + 1 < fs.inodeBlock ino := by
      rw [fs.inodeBlock_eq real]
      exact Nat.lt_of_lt_of_le (Nat.lt_succ_self _) (Nat.le_add_right _ _)
    exact CoherentFs.openStat_congr real fun i _ _ =>
      congrFun (only.block _ (Nat.ne_of_gt behind)) i
  · unfold CoherentFs.openStat
    rw [if_pos (by omega), if_pos (by omega)]

theorem CoherentFs.SbOnly.stat (only : fs.SbOnly image after) (ino : Nat) :
    fs.stat after ino = fs.stat image ino := by
  rw [← fs.openStat_toInode, ← fs.openStat_toInode, only.openStat]

theorem CoherentFs.FreeSlot.congr (slot : fs.FreeSlot isize image ino)
    (same : fs.stat after ino = fs.stat image ino) : fs.FreeSlot isize after ino :=
  ⟨slot.real, slot.last, same.trans slot.unused⟩

/-- The cache of a superblock whose inode fields are kept. -/
theorem CoherentFs.InodeCache.cached (cache : fs.InodeCache isize image)
    (kept : fs.CacheKept image after) :
    cachedInodes (after.readBlock (fs.partOff + 1)) =
      cachedInodes (image.readBlock (fs.partOff + 1)) := by
  have few := cache.few
  have word : ∀ {o}, sbNinode ≤ o → o + 2 ≤ sbFlock →
      (after.readBlock (fs.partOff + 1)).get16 o = (image.readBlock (fs.partOff + 1)).get16 o :=
    fun low high => Buffer.get16_congr _ (kept _ (Or.inl (by omega))) (kept _ (Or.inl (by omega)))
  refine cachedInodes_congr (word (Nat.le_refl _) (by decide)) fun i small => word ?_ ?_
  · unfold sbNinode sbInode
    omega
  · unfold nicInode at few
    unfold sbInode sbFlock
    omega

/-- A step that keeps the inode fields and does not use a cached slot. -/
theorem CoherentFs.InodeCache.keep (cache : fs.InodeCache isize image)
    (kept : fs.CacheKept image after)
    (slots : ∀ ino ∈ cachedInodes (image.readBlock (fs.partOff + 1)),
      fs.stat after ino = fs.stat image ino) : fs.InodeCache isize after := by
  have same := cache.cached kept
  have few := cache.few
  rw [← cachedInodes_length, ← same, cachedInodes_length] at few
  refine ⟨few, same ▸ cache.distinct, fun ino member => ?_⟩
  rw [same] at member
  exact (cache.free ino member).congr (slots ino member)

/-- The superblock is written with other inode fields. -/
theorem CoherentFs.Stock.writeSb (stock : fs.Stock isize fsize last image list) {sb : Buffer}
    (fields : BlockFields (image.readBlock (fs.partOff + 1)) sb) :
    ∃ after, fs.writeSb sb image = .ok () after ∧ fs.SbOnly image after ∧
      fs.Stock isize fsize last after list ∧
      ∀ i < blockSize, after.readBlock (fs.partOff + 1) i = sb i := by
  obtain ⟨nfree, tfree, bound, free, sees, chain⟩ := stock.holds
  have data := stock.data
  obtain ⟨after, wrote, only, sees'⟩ :=
    CoherentFs.writeSb_sees sees.inside (sees.view.congr fields)
  have image' : after = image.setBlock (fs.partOff + 1) sb := by
    have ran : fs.writeSb sb image = _ := writeBlock_inside sees.inside sb
    rw [ran] at wrote
    cases wrote
    rfl
  refine ⟨after, wrote, only, ⟨data, ⟨nfree, tfree, bound, free, sees', ?_⟩, stock.nodup,
    fun b inArea => ?_⟩, fun i small => ?_⟩
  · refine chain.congr (fun _ _ => rfl) fun b member => only.block _ ?_
    have low := (chain.inArea b member).1
    omega
  · rw [only.hasBlock]
    exact stock.inside b inArea
  · rw [image']
    exact Image.readBlock_setBlock_same sb sees.inside small

/-- The partition stays consistent where only the superblock is written and the list stays. -/
theorem CoherentFs.Consistent.sbOnly (consistent : fs.Consistent isize fsize last image list)
    (only : fs.SbOnly image after) (stock : fs.Stock isize fsize last' after list) :
    fs.Consistent isize fsize last' after list := by
  have data := stock.data
  have owner : ∀ {ino inode}, fs.Owner isize after ino inode → fs.Owner isize image ino inode :=
    fun owner => ⟨owner.real, owner.last, (only.stat _).symm.trans owner.stat, owner.kind⟩
  have same : ∀ {ino inode} {p : BlockPlace}, fs.Owner isize image ino inode → p.Valid →
      fs.pointer after inode p = fs.pointer image inode p := by
    intro ino inode p own valid
    refine (CoherentFs.readFile_untouched (CoherentFs.stat_addrs own.stat) fun {q} valid found => ?_).1
      valid
    have low := ((consistent.map own).area valid found).1
    exact only.block _ (by omega)
  have belongs : ∀ {ino x}, fs.Belongs isize after ino x → fs.Belongs isize image ino x := by
    rintro ino x ⟨inode, own, nonzero, p, valid, here⟩
    exact ⟨inode, owner own, nonzero, p, valid, (same (owner own) valid).symm.trans here⟩
  refine ⟨stock, consistent.narrow, fun b low => ?_, fun {ino inode} own => ?_, fun own =>
    consistent.apart (belongs own), fun own own' => consistent.distinct (belongs own) (belongs own')⟩
  · rw [only.hasBlock]
    exact consistent.table b low
  · have old := consistent.map (owner own)
    refine ⟨old.addrs, fun valid found => ?_, fun valid valid' found eq => ?_⟩
    · rw [same (owner own) valid] at found ⊢
      exact old.area valid found
    · rw [same (owner own) valid] at found eq
      rw [same (owner own) valid'] at eq
      exact old.distinct valid valid' found eq

end Cache

/-! ## The scan -/

/-- The scan of `alloc_inode` has passed the first `m` slots of the table. -/
structure CoherentFs.Scanned (fs : CoherentFs) (isize : Nat) (image : Image) (sb : Buffer) (m : Nat)
    (scan : InodeScan) : Prop where
  few : scan.idx ≤ nicInode
  next : scan.idx < nicInode → scan.ino = m + 1
  found : ∀ i < scan.idx, fs.FreeSlot isize image (scan.sb.get16 (sbInode + i * 2)) ∧
    scan.sb.get16 (sbInode + i * 2) ≤ m
  rising : ∀ i < scan.idx, ∀ j < i,
    scan.sb.get16 (sbInode + j * 2) < scan.sb.get16 (sbInode + i * 2)
  empty : scan.idx = 0 → ∀ ino, 1 ≤ ino → ino ≤ m → fs.stat image ino ≠ none
  fields : BlockFields sb scan.sb

section Scan

variable {fs : CoherentFs} {isize m k blk off : Nat} {image : Image} {sb body : Buffer}
  {scan : InodeScan} {σ : Type} {s : σ}

/-- A slot of the table is free where its mode is 0. -/
theorem CoherentFs.stat_slot (small : k < inodesPerBlock) :
    fs.stat image (blk * inodesPerBlock + k + 1) = none ↔
      (image.readBlock (fs.partOff + (blk + 2))).get16 (k * inodeSize) = 0 := by
  have block : (blk * inodesPerBlock + k + 1 - 1) / inodesPerBlock = blk := by
    unfold inodesPerBlock at *
    omega
  have slot : (blk * inodesPerBlock + k + 1 - 1) % inodesPerBlock = k := by
    unfold inodesPerBlock at *
    omega
  have number : fs.partOff + (blk + 2) = fs.partOff + 2 + blk := by omega
  unfold CoherentFs.stat
  rw [if_neg (by omega)]
  dsimp only
  rw [block, slot, number]
  by_cases unused : (image.readBlock (fs.partOff + 2 + blk)).get16 (k * inodeSize) = 0
  · rw [if_pos unused]
    exact iff_of_true rfl unused
  · rw [if_neg unused]
    exact iff_of_false (Option.some_ne_none _) unused

/-- A slot is passed. -/
theorem CoherentFs.Scanned.slot (scanned : fs.Scanned isize image sb m scan)
    (inside : m + 1 ≤ (isize - 2) * inodesPerBlock)
    (mode : fs.stat image (m + 1) = none ↔ body.get16 off = 0) :
    Ends (ofExcept (scan.slot body off)) s
      (fun scan t => t = s ∧ fs.Scanned isize image sb (m + 1) scan)
      fun (e : FsError) t => t = s ∧ e = .packOutside := by
  unfold InodeScan.slot
  by_cases full : nicInode ≤ scan.idx
  · rw [if_pos full]
    refine ⟨rfl, scanned.few, fun room => absurd full (Nat.not_le.mpr room), fun i small => ?_,
      scanned.rising, fun empty => ?_, scanned.fields⟩
    · exact ⟨(scanned.found i small).1, Nat.le_succ_of_le (scanned.found i small).2⟩
    · rw [empty] at full
      exact absurd full (by decide)
  have room := Nat.not_le.mp full
  have ino := scanned.next room
  rw [if_neg full]
  by_cases unused : body.get16 off = 0
  swap
  · rw [if_neg unused]
    refine ⟨rfl, scanned.few, fun _ => congrArg (· + 1) ino, fun i small => ?_,
      scanned.rising, fun none other real low => ?_, scanned.fields⟩
    · exact ⟨(scanned.found i small).1, Nat.le_succ_of_le (scanned.found i small).2⟩
    · by_cases here : other = m + 1
      · rw [here]
        exact fun free => unused (mode.mp free)
      · exact scanned.empty none other real (by omega)
  rw [if_pos unused]
  by_cases wide : 65535 < scan.ino
  · rw [if_pos wide]
    exact ⟨rfl, rfl⟩
  rw [if_neg wide]
  have new : (scan.sb.set16 (sbInode + scan.idx * 2) scan.ino).get16 (sbInode + scan.idx * 2) =
      m + 1 := by
    rw [Buffer.get16_set16_same (by omega), ino]
  have old : ∀ i < scan.idx,
      (scan.sb.set16 (sbInode + scan.idx * 2) scan.ino).get16 (sbInode + i * 2) =
        scan.sb.get16 (sbInode + i * 2) :=
    fun i small => Buffer.get16_set16_apart (by omega)
  refine ⟨rfl, room, fun _ => congrArg (· + 1) ino, fun i small => ?_, fun i small j less => ?_,
    fun empty => absurd empty (Nat.succ_ne_zero _), scanned.fields.set16 (Or.inl ?_)⟩
  · by_cases last : i = scan.idx
    · dsimp only
      rw [last, new]
      exact ⟨⟨Nat.succ_pos m, inside, mode.mpr unused⟩, Nat.le_refl _⟩
    · have before : i < scan.idx := Nat.lt_of_le_of_ne (Nat.le_of_lt_succ small) last
      dsimp only
      rw [old i before]
      exact ⟨(scanned.found i before).1, Nat.le_succ_of_le (scanned.found i before).2⟩
  · have earlier : j < scan.idx := Nat.lt_of_lt_of_le less (Nat.le_of_lt_succ small)
    dsimp only
    rw [old j earlier]
    by_cases last : i = scan.idx
    · rw [last, new]
      exact Nat.lt_succ_of_le (scanned.found j earlier).2
    · have before : i < scan.idx := Nat.lt_of_le_of_ne (Nat.le_of_lt_succ small) last
      rw [old i before]
      exact scanned.rising i before j less
  · unfold nicInode at room
    unfold sbNinode sbInode sbFlock
    omega

/-- A block of the table is passed. -/
theorem CoherentFs.Scanned.block (scanned : fs.Scanned isize image sb (blk * inodesPerBlock) scan)
    (inside : blk + 2 < isize) :
    Ends (ofExcept (scan.block fs image (blk + 2))) s
      (fun scan t => t = s ∧ fs.Scanned isize image sb ((blk + 1) * inodesPerBlock) scan)
      fun (e : FsError) t => t = s ∧ e = .packOutside := by
  have room : (blk + 1) * inodesPerBlock ≤ (isize - 2) * inodesPerBlock :=
    Nat.mul_le_mul_right _ (by omega)
  rw [Nat.succ_mul] at room ⊢
  unfold InodeScan.block
  by_cases full : nicInode ≤ scan.idx
  · rw [if_pos full]
    refine ⟨rfl, scanned.few, fun space => absurd full (Nat.not_le.mpr space), fun i small => ?_,
      scanned.rising, fun empty => ?_, scanned.fields⟩
    · exact ⟨(scanned.found i small).1, Nat.le_add_right_of_le (scanned.found i small).2⟩
    · rw [empty] at full
      exact absurd full (by decide)
  rw [if_neg full]
  dsimp only
  rw [ofExcept_foldlM]
  refine Ends.foldlM_range
    (fun k scan t => t = s ∧ fs.Scanned isize image sb (blk * inodesPerBlock + k) scan)
    inodesPerBlock ⟨rfl, scanned⟩ ?_
  rintro k scan t small ⟨rfl, passed⟩
  exact passed.slot (by omega) (CoherentFs.stat_slot small)

/-- The scan passes the whole table. -/
theorem CoherentFs.scanInodes_ends (fs : CoherentFs) (image : Image) (sb : Buffer)
    (count : sb.get16 sbIsize = isize) (s : σ) :
    Ends (ofExcept (fs.scanInodes image sb)) s
      (fun scan t => t = s ∧ fs.Scanned isize image sb ((isize - 2) * inodesPerBlock) scan)
      fun (e : FsError) t => t = s ∧ e = .packOutside := by
  unfold CoherentFs.scanInodes
  rw [count, ofExcept_foldlM]
  have start : fs.Scanned isize image sb ((2 - 2) * inodesPerBlock) ⟨sb, 1, 0⟩ :=
    ⟨Nat.zero_le _, fun _ => rfl, fun i none => absurd none (Nat.not_lt_zero i),
      fun i none => absurd none (Nat.not_lt_zero i), fun _ ino real low => by omega, .refl sb⟩
  have run : Ends ((List.range' 2 (isize - 2)).foldlM
      (fun scan blk => ofExcept (InodeScan.block fs image scan blk)) ⟨sb, 1, 0⟩) s _
      (fun e t => t = s ∧ e = FsError.packOutside) := Ends.foldlM_range'
    (fun blk scan t => t = s ∧ fs.Scanned isize image sb ((blk - 2) * inodesPerBlock) scan)
    ⟨rfl, start⟩ ?_
  · rwa [Nat.add_sub_cancel_left] at run
  rintro blk scan t low high ⟨rfl, passed⟩
  obtain ⟨blk, rfl⟩ := Nat.exists_eq_add_of_le' low
  rw [Nat.add_sub_cancel] at passed
  have less : blk + 2 + 1 - 2 = blk + 1 := rfl
  rw [less]
  exact passed.block (by omega)

end Scan

/-! ## `alloc_inode` -/

/-- A number is left in the cache, or the scan of the table finds one. -/
def CoherentFs.InodeLeft (fs : CoherentFs) (image : Image) : Prop :=
  let sb := image.readBlock (fs.partOff + 1)
  cachedInodes sb ≠ [] ∨ ∃ scan, fs.scanInodes image sb = .ok scan ∧ 0 < scan.idx

/-- What `alloc_inode` changes. -/
structure CoherentFs.TookInode (fs : CoherentFs) (isize fsize : Nat) (last : Option Nat)
    (image : Image) (list : List Nat) (ino : Nat) (after : Image) : Prop where
  slot : fs.FreeSlot isize image ino
  small : ino < 65536
  only : fs.SbOnly image after
  stock : fs.Stock isize fsize last after list
  cache : fs.InodeCache isize after
  fresh : ino ∉ cachedInodes (after.readBlock (fs.partOff + 1))
  room : (after.readBlock (fs.partOff + 1)).get16 sbTinode < 65535

/-- What a failing `alloc_inode` changes. -/
structure CoherentFs.MissedInode (fs : CoherentFs) (isize fsize : Nat) (last : Option Nat)
    (image : Image) (list : List Nat) (e : FsError) (after : Image) : Prop where
  only : fs.SbOnly image after
  stock : fs.Stock isize fsize last after list
  cache : fs.InodeCache isize after
  exhausted : e = .outOfFreeInodes → ∀ ino, ¬ fs.FreeSlot isize image ino
  noneLeft : ¬ fs.InodeLeft image

section Take

variable {fs : CoherentFs} {isize fsize n : Nat} {last : Option Nat} {image : Image}
  {list : List Nat} {sb : Buffer}

/-- The top of a cache of `n + 1` numbers is taken. -/
theorem CoherentFs.Stock.popInode (stock : fs.Stock isize fsize last image list)
    (fields : BlockFields (image.readBlock (fs.partOff + 1)) sb) (few : n + 1 ≤ nicInode)
    (distinct : ((List.range (n + 1)).map fun i => sb.get16 (sbInode + i * 2)).Nodup)
    (free : ∀ i < n + 1, fs.FreeSlot isize image (sb.get16 (sbInode + i * 2))) {count : Int}
    (counted : count = n + 1) (now : Nat) :
    Ends (do
      if count ≤ 0 then throw .packOutside
      let ninode := (count - 1).toNat
      if blockSize < sbInode + ninode * 2 + 2 then throw .unpackOutside
      let ino := sb.get16 (sbInode + ninode * 2)
      let sb := sb.set16 sbNinode ninode
      let tinode := sb.get16 sbTinode
      let sb := if 0 < tinode then sb.set16 sbTinode (tinode - 1) else sb
      fs.writeSb (touchSb sb now)
      return ino) image (fs.TookInode isize fsize last image list) noRaise := by
  have index : (count - 1).toNat = n := by omega
  have bound : sbInode + nicInode * 2 = sbFlock ∧ sbFlock = 466 ∧ blockSize = 512 := by decide
  refine .ite (fun low => absurd low (by omega)) fun _ => ?_
  refine .ite (fun wide => absurd wide (by omega)) fun _ => ?_
  dsimp only
  rw [index]
  generalize written : (if 0 < (sb.set16 sbNinode n).get16 sbTinode then
    (sb.set16 sbNinode n).set16 sbTinode ((sb.set16 sbNinode n).get16 sbTinode - 1)
    else sb.set16 sbNinode n) = sb'
  have popped := fields.set16 (p := sbNinode) (v := n) (Or.inl ⟨Nat.le_refl _, by decide⟩)
  -- The count of free inodes comes below its largest value.
  have parts : BlockFields (image.readBlock (fs.partOff + 1)) sb' ∧
      (∀ o, o + 2 ≤ sbFlock → sb'.get16 o = (sb.set16 sbNinode n).get16 o) ∧
      sb'.get16 sbTinode < 65535 := by
    have below := (sb.set16 sbNinode n).get16_lt sbTinode
    subst written
    split
    · refine ⟨popped.set16 (Or.inr (Nat.le_refl _)), fun o low => ?_, ?_⟩
      · exact Buffer.get16_set16_apart (Or.inl (Nat.le_trans low (by decide)))
      · rw [Buffer.get16_set16_same (by omega)]
        omega
    · exact ⟨popped, fun _ _ => rfl, by omega⟩
  obtain ⟨fields', words, room⟩ := parts
  obtain ⟨after, wrote, only, stock', bytes⟩ := stock.writeSb (fields'.touchSb now)
  have word : ∀ {o}, o + 2 ≤ sbFlock ∨ o = sbTinode →
      (after.readBlock (fs.partOff + 1)).get16 o = sb'.get16 o := by
    intro o inside
    have range : sbTinode = 478 := rfl
    rw [Buffer.get16_congr _ (bytes _ (by omega)) (bytes _ (by omega)), get16_touchSb]
    exact inside.imp_right fun same => Nat.le_of_eq same.symm
  have countNow : (after.readBlock (fs.partOff + 1)).get16 sbNinode = n := by
    unfold nicInode at few
    rw [word (Or.inl (by decide)), words _ (by decide), Buffer.get16_set16_same (by omega)]
  have entries : ∀ i < n, (after.readBlock (fs.partOff + 1)).get16 (sbInode + i * 2) =
      sb.get16 (sbInode + i * 2) := by
    intro i small
    have low : sbInode + i * 2 + 2 ≤ sbFlock := by omega
    rw [word (Or.inl low), words _ low]
    exact Buffer.get16_set16_apart (Or.inr (by unfold sbNinode sbInode; omega))
  have cached : cachedInodes (after.readBlock (fs.partOff + 1)) =
      (List.range n).map fun i => sb.get16 (sbInode + i * 2) := by
    unfold cachedInodes
    rw [countNow]
    exact List.map_congr_left fun i member => entries i (List.mem_range.mp member)
  rw [List.range_succ, List.map_append, List.map_singleton, ← cached] at distinct
  obtain ⟨distinct', -, apart⟩ := List.nodup_append.mp distinct
  refine .bind (.of_ok wrote (.value ⟨free n (Nat.lt_succ_self n), sb.get16_lt _, only, stock', ?_,
    fun member => apart _ member _ (List.mem_singleton_self _) rfl, ?_⟩))
  · refine ⟨countNow ▸ Nat.le_of_succ_le few, distinct', fun ino member => ?_⟩
    rw [cached] at member
    obtain ⟨i, small, rfl⟩ := List.mem_map.mp member
    exact (free i (Nat.lt_succ_of_lt (List.mem_range.mp small))).congr (only.stat _)
  · rw [word (Or.inr rfl)]
    exact room

/-- `alloc_inode` returns the number of a free slot that leaves the cache. It runs out of inodes
only where no slot of the table is free. -/
theorem CoherentFs.InodeCache.allocInode (cache : fs.InodeCache isize image)
    (stock : fs.Stock isize fsize last image list) (now : Nat) :
    Ends (fs.allocInode now) image
      (fun ino after => fs.InodeLeft image ∧ fs.TookInode isize fsize last image list ino after)
      (fs.MissedInode isize fsize last image list) := by
  obtain ⟨_, _, _, _, sees, -⟩ := id stock.holds
  have few := cache.few
  have signed : s16 ((image.readBlock (fs.partOff + 1)).get16 sbNinode) =
      (image.readBlock (fs.partOff + 1)).get16 sbNinode :=
    s16_of_le (Nat.le_trans few (by decide))
  refine .bind (.of_ok (fs.readSb_apply image) ?_)
  dsimp only
  rw [signed]
  refine .ite (fun none => ?_) fun some => .bind (.value ?_)
  swap
  · obtain ⟨n, count⟩ := Nat.exists_eq_succ_of_ne_zero fun zero => some (congrArg Int.ofNat zero)
    have cached : cachedInodes (image.readBlock (fs.partOff + 1)) = (List.range (n + 1)).map
        fun i => (image.readBlock (fs.partOff + 1)).get16 (sbInode + i * 2) := by
      unfold cachedInodes
      rw [count]
    have left : fs.InodeLeft image := by
      refine Or.inl fun empty => Nat.succ_ne_zero n ?_
      rw [← count, ← cachedInodes_length, empty]
      rfl
    refine (stock.popInode (.refl _) (count ▸ few) (cached ▸ cache.distinct) (fun i small => ?_)
      (by rw [count]; rfl) now).mono (fun _ _ took => ⟨left, took⟩) fun _ _ => False.elim
    exact cache.free _ (cached ▸ List.mem_map_of_mem (List.mem_range.mpr small))
  have zero : (image.readBlock (fs.partOff + 1)).get16 sbNinode = 0 := Int.ofNat_eq_zero.mp none
  have empty : cachedInodes (image.readBlock (fs.partOff + 1)) = [] := by
    unfold cachedInodes
    rw [zero]
    rfl
  have ends := fs.scanInodes_ends image _ sees.view.isize image
  refine .bind (.state (.bind ?_))
  cases result : fs.scanInodes image (image.readBlock (fs.partOff + 1)) with
  | error e =>
    rw [result] at ends
    refine ⟨.refl _ _, stock, cache, fun out => ?_, ?_⟩
    · have pack : e = .packOutside := ends.2
      rw [pack] at out
      cases out
    · rintro (some | ⟨scan, found, -⟩)
      · exact some empty
      · rw [result] at found
        cases found
  | ok scan =>
    rw [result] at ends
    obtain ⟨-, scanned⟩ := ends
    refine .value (.ite (fun nothing => ?_) fun some => .bind (.value ?_))
    · have fields := (scanned.fields.set16 (p := sbNinode) (v := scan.idx)
        (Or.inl ⟨Nat.le_refl _, by decide⟩)).set16 (p := sbTinode) (v := 0) (Or.inr (Nat.le_refl _))
      obtain ⟨after, wrote, only, stock', bytes⟩ := stock.writeSb (fields.touchSb now)
      refine .bind (.of_ok wrote (.bind (.raise ⟨only, stock', ?_, fun _ ino slot => ?_, ?_⟩)))
      · have count : (after.readBlock (fs.partOff + 1)).get16 sbNinode = 0 := by
          rw [Buffer.get16_congr _ (bytes _ (by decide)) (bytes _ (by decide)),
            get16_touchSb _ (Or.inl (by decide)), Buffer.get16_set16_apart (Or.inl (by decide)),
            Buffer.get16_set16_same (by rw [nothing]; decide), nothing]
        have gone : cachedInodes (after.readBlock (fs.partOff + 1)) = [] := by
          unfold cachedInodes
          rw [count]
          rfl
        exact ⟨count ▸ Nat.zero_le _, gone ▸ List.nodup_nil, fun ino member =>
          absurd (gone ▸ member) List.not_mem_nil⟩
      · exact scanned.empty nothing ino slot.real slot.last slot.unused
      · rintro (some | ⟨scan', found, more⟩)
        · exact some empty
        · rw [result] at found
          cases found
          exact absurd more (by omega)
    · obtain ⟨n, count⟩ := Nat.exists_eq_succ_of_ne_zero some
      have few' := scanned.few
      rw [count] at few'
      have apart : ∀ i, (scan.sb.set16 sbNinode scan.idx).get16 (sbInode + i * 2) =
          scan.sb.get16 (sbInode + i * 2) :=
        fun i => Buffer.get16_set16_apart (Or.inr (by unfold sbNinode sbInode; omega))
      refine (stock.popInode (n := n) (scanned.fields.set16 (Or.inl ⟨Nat.le_refl _, by decide⟩)) few'
        ?_ (fun i small => ?_) (by rw [count]; rfl) now).mono
        (fun _ _ took => ⟨Or.inr ⟨scan, result, count ▸ Nat.succ_pos n⟩, took⟩) fun _ _ => False.elim
      · refine List.nodup_range.map_on fun i small j small' eq => ?_
        rw [apart, apart] at eq
        rw [← Nat.succ_eq_add_one, ← count, List.mem_range] at small small'
        rcases Nat.lt_trichotomy i j with less | same | more
        · exact absurd eq (Nat.ne_of_lt (scanned.rising j small' i less))
        · exact same
        · exact absurd eq.symm (Nat.ne_of_lt (scanned.rising i small j more))
      · rw [apart]
        exact (scanned.found i (count ▸ small)).1

end Take

/-! ## `free_inode` -/

/-- What `free_inode` changes. -/
structure CoherentFs.GaveInode (fs : CoherentFs) (isize fsize : Nat) (last : Option Nat)
    (image : Image) (list : List Nat) (ino : Nat) (after : Image) : Prop where
  frame : Image.AgreeExcept (fun bno => bno = fs.partOff + 1 ∨ bno = fs.inodeBlock ino) image after
  unused : fs.stat after ino = none
  others : ∀ other, other ≠ ino → fs.openStat after other = fs.openStat image other
  stock : fs.Stock isize fsize last after list
  cache : fs.InodeCache isize after

section Give

variable {fs : CoherentFs} {isize fsize ino : Nat} {last : Option Nat} {image : Image}
  {list : List Nat} {sb : Buffer}

/-- The image with a slot cleared. -/
def CoherentFs.clearSlot (fs : CoherentFs) (image : Image) (ino : Nat) : Image :=
  image.setBlock (fs.inodeBlock ino)
    ((image.readBlock (fs.inodeBlock ino)).blit (inodeOffset ino) (fun _ => 0) 0 inodeSize)

theorem CoherentFs.clearSlot_stat (real : 1 ≤ ino)
    (inside : image.hasBlock (fs.inodeBlock ino) = true) :
    fs.stat (fs.clearSlot image ino) ino = none := by
  have room := inodeOffset_lt ino
  have zero : ∀ i < 2, (fs.clearSlot image ino).readBlock (fs.inodeBlock ino) (inodeOffset ino + i) =
      0 := by
    intro i small
    unfold inodeSize at room
    refine (Image.readBlock_setBlock_same _ inside (by omega)).trans ?_
    exact Buffer.blit_apply_of_mem (by unfold inodeSize; omega)
  have mode : ((fs.clearSlot image ino).readBlock (fs.inodeBlock ino)).get16 (inodeOffset ino) = 0 := by
    unfold Buffer.get16
    rw [zero 1 (by decide)]
    have low := zero 0 (by decide)
    rw [Nat.add_zero] at low
    rw [low]
    rfl
  rw [fs.inodeBlock_eq real, inodeOffset_eq real] at mode
  unfold CoherentFs.stat
  rw [if_neg (by omega)]
  dsimp only
  rw [if_pos mode]

theorem CoherentFs.clearSlot_other (real : 1 ≤ ino)
    (inside : image.hasBlock (fs.inodeBlock ino) = true) {other : Nat} (ne : other ≠ ino) :
    fs.openStat (fs.clearSlot image ino) other = fs.openStat image other := by
  by_cases real' : 1 ≤ other
  swap
  · unfold CoherentFs.openStat
    rw [if_pos (by omega), if_pos (by omega)]
  refine CoherentFs.openStat_congr real' fun i low high => ?_
  by_cases same : fs.inodeBlock other = fs.inodeBlock ino
  · have room := inodeOffset_lt other
    unfold inodeSize at room
    rw [same]
    refine (Image.readBlock_setBlock_same _ inside (by omega)).trans (Buffer.blit_apply_of_ne ?_)
    rw [fs.inodeBlock_eq real, fs.inodeBlock_eq real'] at same
    rw [inodeOffset_eq real] at *
    rw [inodeOffset_eq real'] at *
    unfold inodesPerBlock inodeSize at *
    omega
  · exact congrFun (Image.readBlock_setBlock_other _ _ same) i

/-- `free_inode` clears the slot, and the number joins the cache while there is room. -/
theorem CoherentFs.InodeCache.freeInode (cache : fs.InodeCache isize image)
    (stock : fs.Stock isize fsize last image list) (real : 1 ≤ ino)
    (table : ino ≤ (isize - 2) * inodesPerBlock) (small : ino < 65536)
    (fresh : ino ∉ cachedInodes (image.readBlock (fs.partOff + 1)))
    (room : (image.readBlock (fs.partOff + 1)).get16 sbTinode < 65535)
    (inside : image.hasBlock (fs.inodeBlock ino) = true) (now : Nat) :
    Ends (fs.freeInode now ino) image
      (fun _ => fs.GaveInode isize fsize last image list ino) noRaise := by
  have behind := fs.inodeBlock_lt real table
  have agree : Image.AgreeExcept (· = fs.inodeBlock ino) image (fs.clearSlot image ino) :=
    image.setBlock_agreeExcept _ _
  have sbSame : (fs.clearSlot image ino).readBlock (fs.partOff + 1) =
      image.readBlock (fs.partOff + 1) := agree.block _ (Nat.ne_of_lt behind.1)
  have others : ∀ {other}, other ≠ ino →
      fs.openStat (fs.clearSlot image ino) other = fs.openStat image other :=
    fun ne => CoherentFs.clearSlot_other real inside ne
  have unused := CoherentFs.clearSlot_stat real inside
  have stock' : fs.Stock isize fsize last (fs.clearSlot image ino) list := by
    refine stock.congr agree.len sbSame fun b member => agree.block _ ?_
    have low := (stock.inArea b member).1
    omega
  have count := cache.few
  have signed : s16 ((image.readBlock (fs.partOff + 1)).get16 sbNinode) =
      (image.readBlock (fs.partOff + 1)).get16 sbNinode :=
    s16_of_le (Nat.le_trans count (by decide))
  -- The numbers of free slots are still those of free slots.
  have free : ∀ other ∈ cachedInodes (image.readBlock (fs.partOff + 1)),
      fs.FreeSlot isize (fs.clearSlot image ino) other := by
    intro other member
    have ne : other ≠ ino := fun same => fresh (same ▸ member)
    refine (cache.free other member).congr ?_
    rw [← fs.openStat_toInode, ← fs.openStat_toInode, others ne]
  -- The superblock is written with a cache of free slots.
  have ends : ∀ {sb : Buffer}, BlockFields (image.readBlock (fs.partOff + 1)) sb →
      sb.get16 sbTinode = (image.readBlock (fs.partOff + 1)).get16 sbTinode →
      sb.get16 sbNinode ≤ nicInode → (cachedInodes sb).Nodup →
      (∀ other ∈ cachedInodes sb, fs.FreeSlot isize (fs.clearSlot image ino) other) →
      Ends (do
        let tinode := sb.get16 sbTinode
        if 65535 < tinode + 1 then throw .packOutside
        fs.writeSb (touchSb (sb.set16 sbTinode (tinode + 1)) now)) (fs.clearSlot image ino)
        (fun _ => fs.GaveInode isize fsize last image list ino) noRaise := by
    intro sb fields tinode few distinct slots
    dsimp only
    rw [tinode]
    refine .ite (fun wide => absurd wide (by omega)) fun _ => ?_
    have fields' : BlockFields ((fs.clearSlot image ino).readBlock (fs.partOff + 1))
        (touchSb (sb.set16 sbTinode ((image.readBlock (fs.partOff + 1)).get16 sbTinode + 1)) now) := by
      rw [sbSame]
      exact (fields.set16 (Or.inr (Nat.le_refl _))).touchSb now
    obtain ⟨after, wrote, only, stock'', bytes⟩ := stock'.writeSb fields'
    have bound : sbInode + nicInode * 2 = sbFlock ∧ sbFlock = 466 ∧ sbTinode = 478 ∧
        blockSize = 512 := by decide
    have word : ∀ {o}, o + 2 ≤ sbFlock →
        (after.readBlock (fs.partOff + 1)).get16 o = sb.get16 o := by
      intro o low
      rw [Buffer.get16_congr _ (bytes _ (by omega)) (bytes _ (by omega)),
        get16_touchSb _ (Or.inl low), Buffer.get16_set16_apart (by omega)]
    have cached : cachedInodes (after.readBlock (fs.partOff + 1)) = cachedInodes sb :=
      cachedInodes_congr (word (by decide)) fun i below => word (by omega)
    refine .of_ok wrote ⟨?_, ?_, fun other ne => (only.openStat other).trans (others ne), stock'',
      ?_, cached ▸ distinct, fun other member => ?_⟩
    · exact (agree.mono fun _ => Or.inr).trans (Image.AgreeExcept.mono only fun _ => Or.inl)
    · rw [only.stat]
      exact unused
    · rw [word (by decide)]
      exact few
    · rw [cached] at member
      exact (slots other member).congr (only.stat other)
  refine .ite (fun zero => absurd zero (by omega)) fun _ => ?_
  refine .bind (.of_ok (readBlock_apply _ image) (.bind (.of_ok (writeBlock_inside inside _) ?_)))
  refine .bind (.of_ok (fs.readSb_apply _) ?_)
  change Ends _ (fs.clearSlot image ino) _ _
  dsimp only
  have sbHere : (image.setBlock (fs.inodeBlock ino)
      ((image.readBlock (fs.inodeBlock ino)).blit (inodeOffset ino) (fun _ => 0) 0
        inodeSize)).readBlock (fs.partOff + 1) = image.readBlock (fs.partOff + 1) := sbSame
  rw [sbHere, signed]
  refine .ite (fun more => ?_) fun full => .bind (.value ?_)
  swap
  · exact ends (.refl _) rfl count cache.distinct free
  refine .ite (fun wide => absurd wide (by omega)) fun _ => .bind (.value ?_)
  generalize held : (image.readBlock (fs.partOff + 1)).get16 sbNinode = n at *
  have index : (sbInode + (n : Int) * 2).toNat = sbInode + n * 2 := by omega
  have next : ((n : Int) + 1).toNat = n + 1 := by omega
  rw [index, next]
  have range : sbNinode = 264 ∧ sbInode = 266 ∧ nicInode = 100 ∧ sbFlock = 466 ∧ sbTinode = 478 := by
    decide
  have countNow : (((image.readBlock (fs.partOff + 1)).set16 (sbInode + n * 2) ino).set16 sbNinode
      (n + 1)).get16 sbNinode = n + 1 := Buffer.get16_set16_same (by omega)
  have last : (((image.readBlock (fs.partOff + 1)).set16 (sbInode + n * 2) ino).set16 sbNinode
      (n + 1)).get16 (sbInode + n * 2) = ino := by
    rw [Buffer.get16_set16_apart (by omega), Buffer.get16_set16_same small]
  have cached : cachedInodes (((image.readBlock (fs.partOff + 1)).set16 (sbInode + n * 2) ino).set16
      sbNinode (n + 1)) = cachedInodes (image.readBlock (fs.partOff + 1)) ++ [ino] := by
    have popped := cachedInodes_pop countNow held fun i below => ?_
    · rw [popped, last]
    rw [Buffer.get16_set16_apart (by omega), Buffer.get16_set16_apart (by omega)]
  refine ends ?_ ?_ ?_ ?_ fun other member => ?_
  · exact ((BlockFields.refl _).set16 (Or.inl (by omega))).set16 (Or.inl (by omega))
  · rw [Buffer.get16_set16_apart (by omega), Buffer.get16_set16_apart (by omega)]
  · rw [countNow]
    omega
  · rw [cached]
    exact List.nodup_append.mpr ⟨cache.distinct, List.nodup_singleton ino,
      fun a member b single => List.mem_singleton.mp single ▸ fun same => fresh (same ▸ member)⟩
  · rw [cached] at member
    rcases List.mem_append.mp member with old | new
    · exact free other old
    · rw [List.mem_singleton.mp new]
      exact ⟨real, table, unused⟩

end Give

end C900
