import C900.Fs.Alloc
import Mathlib.Logic.Function.Basic

/-!
# What the allocator does to the superblock

`SbIs` reads the fields of a superblock that the allocator uses. One lemma for
each way a call of `alloc_block` or `free_block` can go says which call it is
and what the superblock holds afterwards; later proofs cite these and unfold
neither method.
-/

namespace C900

/-- The allocator's view of a superblock: `free` lists the cache entries. -/
structure SbIs (sb : Buffer) (isize fsize nfree : Nat) (free : Nat → Nat) (tfree : Nat) :
    Prop where
  isize : sb.get16 sbIsize = isize
  fsize : sb.get32 sbFsize = fsize
  nfree : sb.get16 sbNfree = nfree
  free : ∀ i < nicFree, sb.get32 (sbFree + i * 4) = free i
  tfree : sb.get32 sbTfree = tfree

/-- A block as a link of the chain: its count of entries is `n`. -/
def linkCount (block : Buffer) : Int := s16 (block.get16 fblkNfree)

/-- Entry `i` of a link. -/
def linkEntry (block : Buffer) (i : Nat) : Nat := block.get32 (fblkFree + i * 4)

section View

variable {sb : Buffer} {isize fsize nfree tfree : Nat} {free : Nat → Nat}

theorem s16_of_le {n : Nat} (small : n ≤ 0x7FFF) : s16 n = n := by
  unfold s16
  rw [if_neg (by omega)]

/-- The view depends on the bytes up to the end of the cache and on the total
count. -/
theorem SbIs.congr (view : SbIs sb isize fsize nfree free tfree) {other : Buffer}
    (same : ∀ i, i < sbNinode ∨ (sbTfree ≤ i ∧ i < sbTinode) → other i = sb i) :
    SbIs other isize fsize nfree free tfree := by
  constructor
  · rw [← view.isize]
    exact Buffer.get16_congr _ (same _ (by decide)) (same _ (by decide))
  · rw [← view.fsize]
    exact Buffer.get32_congr _ fun i small => same _ (by unfold sbFsize sbNinode; omega)
  · rw [← view.nfree]
    exact Buffer.get16_congr _ (same _ (by decide)) (same _ (by decide))
  · intro i bound
    rw [← view.free i bound]
    unfold nicFree at bound
    exact Buffer.get32_congr _ fun k small => same _ (by unfold sbFree sbNinode; omega)
  · rw [← view.tfree]
    exact Buffer.get32_congr _ fun i small => same _ (by unfold sbTfree sbTinode; omega)

theorem SbIs.touchSb (view : SbIs sb isize fsize nfree free tfree) (now : Nat) :
    SbIs (touchSb sb now) isize fsize nfree free tfree := by
  refine view.congr fun i inside => ?_
  have apart : i < sbFmod ∨ sbTime + 4 ≤ i := by
    unfold sbNinode sbTfree sbTinode at inside
    unfold sbFmod sbTime
    omega
  unfold C900.touchSb
  rw [Buffer.set32_apply_of_ne (by unfold sbFmod sbTime at *; omega),
    Buffer.set8_apply_of_ne (by unfold sbFmod sbTime at *; omega)]

theorem SbIs.setNfree (view : SbIs sb isize fsize nfree free tfree) {n : Nat} (small : n < 65536) :
    SbIs (sb.set16 sbNfree n) isize fsize n free tfree := by
  constructor
  · rw [Buffer.get16_set16_apart (by decide), view.isize]
  · rw [Buffer.get32_set16_apart (by decide), view.fsize]
  · exact Buffer.get16_set16_same small
  · intro i inside
    rw [Buffer.get32_set16_apart (by unfold sbFree sbNfree; omega), view.free i inside]
  · rw [Buffer.get32_set16_apart (by decide), view.tfree]

theorem SbIs.setTfree (view : SbIs sb isize fsize nfree free tfree) (n : Nat) :
    SbIs (sb.set32 sbTfree n) isize fsize nfree free (n % 2 ^ 32) := by
  constructor
  · rw [Buffer.get16_set32_apart (by decide), view.isize]
  · rw [Buffer.get32_set32_apart (by decide), view.fsize]
  · rw [Buffer.get16_set32_apart (by decide), view.nfree]
  · intro i inside
    unfold nicFree at inside
    rw [Buffer.get32_set32_apart (by unfold sbFree sbTfree; omega), view.free i inside]
  · exact Buffer.get32_set32_same

theorem SbIs.setEntry (view : SbIs sb isize fsize nfree free tfree) {n b : Nat}
    (inside : n < nicFree) (small : b < 2 ^ 32) :
    SbIs (sb.set32 (sbFree + n * 4) b) isize fsize nfree (Function.update free n b) tfree := by
  unfold nicFree at inside
  constructor
  · rw [Buffer.get16_set32_apart (by unfold sbIsize sbFree; omega), view.isize]
  · rw [Buffer.get32_set32_apart (by unfold sbFsize sbFree; omega), view.fsize]
  · rw [Buffer.get16_set32_apart (by unfold sbNfree sbFree; omega), view.nfree]
  · intro i bound
    by_cases same : i = n
    · rw [same, Buffer.get32_set32_same, Function.update_self, Nat.mod_eq_of_lt small]
    · rw [Buffer.get32_set32_apart (by omega), Function.update_of_ne same, view.free i bound]
  · rw [Buffer.get32_set32_apart (by unfold sbTfree sbFree; omega), view.tfree]

/-- Refill the cache from a link. -/
theorem SbIs.refill (view : SbIs sb isize fsize nfree free tfree) (fblk : Buffer) :
    SbIs (sb.blit sbFree fblk fblkFree (nicFree * 4)) isize fsize nfree (linkEntry fblk) tfree := by
  constructor
  · rw [Buffer.get16_blit_apart (by decide), view.isize]
  · rw [Buffer.get32_blit_apart (by decide), view.fsize]
  · rw [Buffer.get16_blit_apart (by decide), view.nfree]
  · intro i bound
    exact Buffer.get32_blit_inside (by omega)
  · rw [Buffer.get32_blit_apart (by decide), view.tfree]

/-- The total count after an allocation. -/
theorem SbIs.countDown (view : SbIs sb isize fsize nfree free tfree) :
    SbIs (if 0 < sb.get32 sbTfree then sb.set32 sbTfree (sb.get32 sbTfree - 1) else sb)
      isize fsize nfree free (tfree - 1) := by
  have bound := sb.get32_lt sbTfree
  have same := view.tfree
  split
  · have less : (sb.get32 sbTfree - 1) % 2 ^ 32 = tfree - 1 := by omega
    rw [← less]
    exact view.setTfree _
  · have zero : tfree - 1 = tfree := by omega
    rw [zero]
    exact view

end View

/-! ## The superblock of a partition -/

/-- The superblock of the partition lies in the image and has this view. -/
structure CoherentFs.Sees (fs : CoherentFs) (image : Image) (isize fsize nfree : Nat)
    (free : Nat → Nat) (tfree : Nat) : Prop where
  inside : image.hasBlock (fs.partOff + 1) = true
  view : SbIs (image.readBlock (fs.partOff + 1)) isize fsize nfree free tfree

/-- Only the superblock changed. -/
def CoherentFs.SbOnly (fs : CoherentFs) (before after : Image) : Prop :=
  Image.AgreeExcept (· = fs.partOff + 1) before after

section Calls

variable {fs : CoherentFs} {image : Image} {isize fsize nfree tfree : Nat} {free : Nat → Nat}

/-- Writing a superblock that has a view gives an image that sees it. -/
theorem CoherentFs.writeSb_sees (inside : image.hasBlock (fs.partOff + 1) = true) {sb : Buffer}
    (view : SbIs sb isize fsize nfree free tfree) :
    ∃ after, fs.writeSb sb image = .ok () after ∧ fs.SbOnly image after ∧
      fs.Sees after isize fsize nfree free tfree := by
  refine ⟨image.setBlock (fs.partOff + 1) sb, writeBlock_inside inside sb,
    image.setBlock_agreeExcept _ sb, inside, ?_⟩
  have same : ∀ i < blockSize,
      (image.setBlock (fs.partOff + 1) sb).readBlock (fs.partOff + 1) i = sb i :=
    fun i small => Image.readBlock_setBlock_same sb inside small
  refine view.congr fun i inside => same i ?_
  unfold sbNinode sbTfree sbTinode at inside
  unfold blockSize
  omega

/-- No entries: the call fails and changes nothing. -/
theorem CoherentFs.allocBlock_empty (sees : fs.Sees image isize fsize 0 free tfree) (now : Nat) :
    fs.allocBlock now image = .error .outOfFreeBlocks image := by
  unfold CoherentFs.allocBlock
  simp [FsM.bind_apply, sees.view.nfree, s16]

/-- The count of a cache with a top entry, as `alloc_block` computes with it. -/
theorem CoherentFs.Sees.top {n : Nat} (sees : fs.Sees image isize fsize (n + 1) free tfree)
    (bound : n < nicFree) :
    (¬ s16 ((image.readBlock (fs.partOff + 1)).get16 sbNfree) ≤ 0) ∧
      (s16 ((image.readBlock (fs.partOff + 1)).get16 sbNfree) - 1).toNat = n ∧
      (¬ blockSize < sbFree + n * 4 + 4) ∧
      (image.readBlock (fs.partOff + 1)).get32 (sbFree + n * 4) = free n := by
  unfold nicFree at bound
  have count : s16 ((image.readBlock (fs.partOff + 1)).get16 sbNfree) = (n : Int) + 1 := by
    rw [sees.view.nfree, s16_of_le (by omega)]
    rfl
  refine ⟨by omega, by omega, ?_, sees.view.free n (by unfold nicFree; omega)⟩
  unfold blockSize sbFree
  omega

/-- An entry of 0 on top: the call empties the cache and fails. -/
theorem CoherentFs.allocBlock_sentinel (sees : fs.Sees image isize fsize (nfree + 1) free tfree)
    (bound : nfree < nicFree) (zero : free nfree = 0) (now : Nat) :
    ∃ after, fs.allocBlock now image = .error .outOfFreeBlocks after ∧ fs.SbOnly image after ∧
      fs.Sees after isize fsize 0 free tfree := by
  obtain ⟨after, write, only, sees'⟩ :=
    CoherentFs.writeSb_sees sees.inside (sees.view.setNfree (n := 0) (by omega))
  obtain ⟨pos, index, fits, top⟩ := sees.top bound
  refine ⟨after, ?_, only, sees'⟩
  unfold CoherentFs.allocBlock
  simp only [FsM.bind_apply, CoherentFs.readSb_apply, pos, index, fits, top, zero, write, if_false,
    if_true, FsM.throw_apply]

/-- An entry above others: the call takes it off the cache. -/
theorem CoherentFs.allocBlock_entry (sees : fs.Sees image isize fsize (nfree + 2) free tfree)
    (bound : nfree + 1 < nicFree) (nonzero : free (nfree + 1) ≠ 0)
    (inArea : isize ≤ free (nfree + 1) ∧ free (nfree + 1) < fsize) (now : Nat) :
    ∃ after, fs.allocBlock now image = .ok (free (nfree + 1)) after ∧ fs.SbOnly image after ∧
      fs.Sees after isize fsize (nfree + 1) free (tfree - 1) := by
  have view := sees.view.setNfree (n := nfree + 1) (by unfold nicFree at bound; omega)
  obtain ⟨after, write, only, sees'⟩ :=
    CoherentFs.writeSb_sees sees.inside (view.countDown.touchSb now)
  obtain ⟨pos, index, fits, top⟩ := sees.top bound
  have cached : ¬ nfree + 1 = 0 := by omega
  have inside : ¬ (free (nfree + 1) < isize ∨ fsize ≤ free (nfree + 1)) := by omega
  refine ⟨after, ?_, only, sees'⟩
  unfold CoherentFs.allocBlock
  simp only [FsM.bind_apply, CoherentFs.readSb_apply, pos, index, fits, top, nonzero, if_false, cached,
    FsM.pure_apply, view.isize, view.fsize, inside, write]

/-- The last entry is the link to the next cache: the call returns it and
refills the cache from it. -/
theorem CoherentFs.allocBlock_link (sees : fs.Sees image isize fsize 1 free tfree)
    (nonzero : free 0 ≠ 0) (inArea : isize ≤ free 0 ∧ free 0 < fsize) {n : Nat} (small : n ≤ nicFree)
    (count : linkCount (image.readBlock (fs.partOff + free 0)) = n) (now : Nat) :
    ∃ after, fs.allocBlock now image = .ok (free 0) after ∧ fs.SbOnly image after ∧
      fs.Sees after isize fsize n (linkEntry (image.readBlock (fs.partOff + free 0)))
        (tfree - 1) := by
  have view := sees.view.setNfree (n := 0) (by omega)
  have refilled := (view.refill (image.readBlock (fs.partOff + free 0))).setNfree (n := n)
    (by unfold nicFree at small; omega)
  obtain ⟨after, write, only, sees'⟩ :=
    CoherentFs.writeSb_sees sees.inside (refilled.countDown.touchSb now)
  obtain ⟨pos, index, fits, top⟩ := sees.top (n := 0) (by decide)
  have inside : ¬ (free 0 < isize ∨ fsize ≤ free 0) := by omega
  have valid : ¬ ((n : Int) < 0 ∨ (nicFree : Int) < n) := by omega
  refine ⟨after, ?_, only, sees'⟩
  unfold linkCount at count
  unfold CoherentFs.allocBlock
  simp only [FsM.bind_apply, CoherentFs.readSb_apply, pos, index, fits, top, nonzero, if_false, if_true,
    FsM.pure_apply, view.isize, view.fsize, inside, readBlock_apply, count, valid, Int.toNat_natCast,
    write]

/-- The last entry names a block that is no link: the call fails. -/
theorem CoherentFs.allocBlock_badLink (sees : fs.Sees image isize fsize 1 free tfree)
    (nonzero : free 0 ≠ 0) (inArea : isize ≤ free 0 ∧ free 0 < fsize)
    (bad : linkCount (image.readBlock (fs.partOff + free 0)) < 0 ∨
      (nicFree : Int) < linkCount (image.readBlock (fs.partOff + free 0))) (now : Nat) :
    fs.allocBlock now image =
      .error (.badChainNfree (linkCount (image.readBlock (fs.partOff + free 0)))) image := by
  have view := sees.view.setNfree (n := 0) (by omega)
  obtain ⟨pos, index, fits, top⟩ := sees.top (n := 0) (by decide)
  have inside : ¬ (free 0 < isize ∨ fsize ≤ free 0) := by omega
  unfold linkCount at bad
  unfold CoherentFs.allocBlock
  simp only [FsM.bind_apply, CoherentFs.readSb_apply, pos, index, fits, top, nonzero, if_false, if_true,
    FsM.throw_apply, view.isize, view.fsize, inside, readBlock_apply, bad, linkCount]

/-- A top entry that is no data block: the call fails, but not for want of
blocks. -/
theorem CoherentFs.allocBlock_outside (sees : fs.Sees image isize fsize (nfree + 1) free tfree)
    (bound : nfree < nicFree) (nonzero : free nfree ≠ 0)
    (outside : free nfree < isize ∨ fsize ≤ free nfree) (now : Nat) :
    ∃ e, fs.allocBlock now image = .error e image ∧ e ≠ .outOfFreeBlocks := by
  have view := sees.view.setNfree (n := nfree) (by unfold nicFree at bound; omega)
  obtain ⟨pos, index, fits, top⟩ := sees.top bound
  unfold CoherentFs.allocBlock
  simp only [FsM.bind_apply, CoherentFs.readSb_apply, pos, index, fits, top, nonzero, if_false,
    view.isize, view.fsize, outside, if_true]
  split
  · exact ⟨_, rfl, nofun⟩
  · exact ⟨_, rfl, nofun⟩

/-- With an entry other than 0 on top the call does not run out of blocks. -/
theorem CoherentFs.allocBlock_ne_outOfFreeBlocks
    (sees : fs.Sees image isize fsize (nfree + 1) free tfree) (bound : nfree < nicFree)
    (nonzero : free nfree ≠ 0) (now : Nat) (after : Image) :
    fs.allocBlock now image ≠ .error .outOfFreeBlocks after := by
  intro fails
  by_cases inArea : isize ≤ free nfree ∧ free nfree < fsize
  · cases nfree with
    | succ n =>
      obtain ⟨_, call, _⟩ := CoherentFs.allocBlock_entry sees bound nonzero inArea now
      rw [call] at fails
      cases fails
    | zero =>
      by_cases valid : 0 ≤ linkCount (image.readBlock (fs.partOff + free 0)) ∧
          linkCount (image.readBlock (fs.partOff + free 0)) ≤ nicFree
      · obtain ⟨_, call, _⟩ := CoherentFs.allocBlock_link sees nonzero inArea
          (n := (linkCount (image.readBlock (fs.partOff + free 0))).toNat) (by omega) (by omega) now
        rw [call] at fails
        cases fails
      · rw [CoherentFs.allocBlock_badLink sees nonzero inArea (by omega) now] at fails
        cases fails
  · obtain ⟨e, call, ne⟩ := CoherentFs.allocBlock_outside sees bound nonzero (by omega) now
    rw [call] at fails
    cases fails
    exact ne rfl

/-- `free_block` with room in the cache: the block becomes the top entry. -/
theorem CoherentFs.freeBlock_push (sees : fs.Sees image isize fsize nfree free tfree)
    (room : nfree < nicFree) {b : Nat} (nonzero : b ≠ 0) (inArea : isize ≤ b ∧ b < fsize)
    (now : Nat) :
    ∃ after, fs.freeBlock now b image = .ok () after ∧ fs.SbOnly image after ∧
      fs.Sees after isize fsize (nfree + 1) (Function.update free nfree b)
        ((tfree + 1) % 2 ^ 32) := by
  have bound := (image.readBlock (fs.partOff + 1)).get32_lt sbFsize
  have fsizeEq := sees.view.fsize
  have pushed := (sees.view.setEntry (b := b) room (by omega)).setNfree (n := nfree + 1)
    (by unfold nicFree at room; omega)
  have counted := pushed.setTfree (tfree + 1)
  obtain ⟨after, write, only, sees'⟩ := CoherentFs.writeSb_sees sees.inside (counted.touchSb now)
  have count : s16 nfree = nfree := s16_of_le (by unfold nicFree at room; omega)
  have inside : ¬ (b < isize ∨ fsize ≤ b) := by omega
  have valid : ¬ ((nfree : Int) < 0 ∨ (nicFree : Int) < nfree) := by omega
  have notFull : ¬ nfree = nicFree := by omega
  refine ⟨after, ?_, only, sees'⟩
  unfold CoherentFs.freeBlock
  simp only [FsM.bind_apply, CoherentFs.readSb_apply, nonzero, if_false, sees.view.isize,
    sees.view.fsize, inside, sees.view.nfree, count, valid, Int.toNat_natCast, notFull,
    pushed.tfree, write]

/-- The link that a full cache is spilled into. -/
def spilledLink (sb : Buffer) : Buffer :=
  Buffer.blit (Buffer.set16 (fun _ => 0) fblkNfree nicFree) fblkFree sb sbFree (nicFree * 4)

/-- `free_block` on a full cache: the cache goes into the block, which becomes
the only entry. -/
theorem CoherentFs.freeBlock_spill (sees : fs.Sees image isize fsize nicFree free tfree) {b : Nat}
    (nonzero : b ≠ 0) (notSb : b ≠ 1) (inArea : isize ≤ b ∧ b < fsize)
    (room : image.hasBlock (fs.partOff + b) = true) (now : Nat) :
    ∃ after, fs.freeBlock now b image = .ok () after ∧
      Image.AgreeExcept (fun bno => bno = fs.partOff + 1 ∨ bno = fs.partOff + b) image after ∧
      fs.Sees after isize fsize 1 (Function.update free 0 b) ((tfree + 1) % 2 ^ 32) ∧
      linkCount (after.readBlock (fs.partOff + b)) = nicFree ∧
      ∀ i < nicFree, linkEntry (after.readBlock (fs.partOff + b)) i = free i := by
  have bound := (image.readBlock (fs.partOff + 1)).get32_lt sbFsize
  have fsizeEq := sees.view.fsize
  let link := spilledLink (image.readBlock (fs.partOff + 1))
  let spilled := image.setBlock (fs.partOff + b) link
  have apart : fs.partOff + 1 ≠ fs.partOff + b := by omega
  have sbKept : spilled.readBlock (fs.partOff + 1) = image.readBlock (fs.partOff + 1) :=
    image.readBlock_setBlock_other link apart
  have pushed := (sees.view.setEntry (n := 0) (b := b) (by decide) (by omega)).setNfree (n := 1)
    (by omega)
  have counted := pushed.setTfree (tfree + 1)
  have inside' : spilled.hasBlock (fs.partOff + 1) = true := sees.inside
  obtain ⟨after, write, only, sees'⟩ := CoherentFs.writeSb_sees inside' (counted.touchSb now)
  have linked : ∀ i < blockSize, after.readBlock (fs.partOff + b) i = link i := by
    intro i small
    rw [only.block _ (Ne.symm apart)]
    exact Image.readBlock_setBlock_same link room small
  unfold blockSize at linked
  refine ⟨after, ?_, ?_, sees', ?_, ?_⟩
  · have count : s16 nicFree = nicFree := by decide
    have inside : ¬ (b < isize ∨ fsize ≤ b) := by omega
    have valid : ¬ ((nicFree : Int) < 0 ∨ (nicFree : Int) < nicFree) := by decide
    have spill : writeBlock (fs.partOff + b) (Buffer.blit
        (Buffer.set16 (fun _ => 0) fblkNfree nicFree) fblkFree
        (image.readBlock (fs.partOff + 1)) sbFree (nicFree * 4)) image = .ok () spilled :=
      writeBlock_inside room link
    unfold CoherentFs.freeBlock
    simp only [FsM.bind_apply, CoherentFs.readSb_apply, nonzero, if_false, if_true, sees.view.isize,
      sees.view.fsize, inside, sees.view.nfree, count, valid, Int.toNat_natCast, spill,
      pushed.tfree, Nat.zero_add, write]
  · refine ((image.setBlock_agreeExcept _ link).mono fun bno eq => Or.inr eq).trans ?_
    exact Image.AgreeExcept.mono only fun bno eq => Or.inl eq
  · have field : (after.readBlock (fs.partOff + b)).get16 fblkNfree = link.get16 fblkNfree :=
      Buffer.get16_congr _ (linked _ (by decide)) (linked _ (by decide))
    have apart : fblkNfree + 2 ≤ fblkFree := by decide
    have value : link.get16 fblkNfree = nicFree :=
      (Buffer.get16_blit_apart (Or.inl apart)).trans (Buffer.get16_set16_same (by decide))
    rw [linkCount, field, value]
    rfl
  · intro i small
    have field : linkEntry (after.readBlock (fs.partOff + b)) i = link.get32 (fblkFree + i * 4) :=
      Buffer.get32_congr _ fun k inside =>
        linked _ (by unfold nicFree at small; unfold fblkFree; omega)
    rw [field, ← sees.view.free i small]
    exact Buffer.get32_blit_inside (by omega)

/-- A full cache cannot be spilled beyond the image: the call fails and changes
nothing. -/
theorem CoherentFs.freeBlock_spillOutside (sees : fs.Sees image isize fsize nicFree free tfree)
    {b : Nat} (nonzero : b ≠ 0) (inArea : isize ≤ b ∧ b < fsize)
    (outside : image.hasBlock (fs.partOff + b) = false) (now : Nat) :
    fs.freeBlock now b image =
      .error (.writeOutside (fs.partOff + b) image.len) image := by
  have count : s16 nicFree = nicFree := by decide
  have inside : ¬ (b < isize ∨ fsize ≤ b) := by omega
  have valid : ¬ ((nicFree : Int) < 0 ∨ (nicFree : Int) < nicFree) := by decide
  unfold CoherentFs.freeBlock
  simp only [FsM.bind_apply, CoherentFs.readSb_apply, nonzero, if_false, if_true, sees.view.isize,
    sees.view.fsize, inside, sees.view.nfree, count, valid, Int.toNat_natCast,
    writeBlock_outside outside]

end Calls

end C900
