import C900.Fs.Superblock
import C900.Logic.Raising

/-!
# The inode fields of the superblock

The numbers of free inodes and their count lie behind the cache of free blocks. The block
allocator writes the superblock back without a change to them.
-/

namespace C900

/-- The inode cache, its count and the count of free inodes are as before. -/
def CoherentFs.CacheKept (fs : CoherentFs) (before after : Image) : Prop :=
  ∀ i, (sbNinode ≤ i ∧ i < sbFlock) ∨ (sbTinode ≤ i ∧ i < sbTinode + 2) →
    after.readBlock (fs.partOff + 1) i = before.readBlock (fs.partOff + 1) i

section Kept

variable {fs : CoherentFs} {image middle after : Image}

theorem CoherentFs.CacheKept.refl (fs : CoherentFs) (image : Image) : fs.CacheKept image image :=
  fun _ _ => rfl

theorem CoherentFs.CacheKept.trans (first : fs.CacheKept image middle)
    (second : fs.CacheKept middle after) : fs.CacheKept image after :=
  fun i inside => (second i inside).trans (first i inside)

/-- A step that does not write the superblock. -/
theorem Image.AgreeExcept.cacheKept {changed : Nat → Prop}
    (agree : Image.AgreeExcept changed image after) (apart : ¬ changed (fs.partOff + 1)) :
    fs.CacheKept image after := by
  intro i _
  rw [agree.block _ apart]

/-- The bytes of a superblock that the block allocator does not use. -/
def InodeFields (sb other : Buffer) : Prop :=
  ∀ i, (sbNinode ≤ i ∧ i < sbFlock) ∨ (sbTinode ≤ i ∧ i < sbTinode + 2) → other i = sb i

theorem InodeFields.refl (sb : Buffer) : InodeFields sb sb := fun _ _ => rfl

section Writes

variable {sb other : Buffer} (fields : InodeFields sb other)

include fields

theorem InodeFields.set16 {p v : Nat} (apart : p + 2 ≤ sbNinode) :
    InodeFields sb (other.set16 p v) := by
  intro i inside
  rw [Buffer.set16_apply_of_ne (by unfold sbNinode sbTinode at *; omega), fields i inside]

theorem InodeFields.set32 {p v : Nat}
    (apart : p + 4 ≤ sbNinode ∨ (sbFlock ≤ p ∧ p + 4 ≤ sbTinode)) :
    InodeFields sb (other.set32 p v) := by
  intro i inside
  rw [Buffer.set32_apply_of_ne (by unfold sbNinode sbFlock sbTinode at *; omega), fields i inside]

theorem InodeFields.blit {src : Buffer} {d o n : Nat} (apart : d + n ≤ sbNinode) :
    InodeFields sb (other.blit d src o n) := by
  intro i inside
  rw [Buffer.blit_apply_of_ne (by unfold sbNinode sbTinode at *; omega), fields i inside]

theorem InodeFields.touchSb (now : Nat) : InodeFields sb (touchSb other now) := by
  intro i inside
  unfold C900.touchSb
  have range : sbFmod = 468 ∧ sbTime = 470 ∧ sbNinode = 264 ∧ sbFlock = 466 ∧ sbTinode = 478 := by
    decide
  rw [Buffer.set32_apply_of_ne (by omega), Buffer.set8_apply_of_ne (by omega), fields i inside]

end Writes

/-- The superblock is written back with its inode fields. -/
theorem CoherentFs.writeSb_cacheKept {sb : Buffer}
    (fields : InodeFields (image.readBlock (fs.partOff + 1)) sb) :
    Ends (fs.writeSb sb) image (fun _ => fs.CacheKept image) fun _ => fs.CacheKept image := by
  by_cases inside : image.hasBlock (fs.partOff + 1) = true
  · refine .of_ok (writeBlock_inside inside sb) fun i range => ?_
    have small : i < blockSize := by
      have bounds : sbFlock = 466 ∧ sbTinode = 478 ∧ blockSize = 512 := by decide
      omega
    rw [Image.readBlock_setBlock_same sb inside small, fields i range]
  · exact .of_error (writeBlock_outside (Bool.eq_false_iff.mpr inside) sb) (.refl fs image)

/-- `alloc_block` keeps the inode fields. -/
theorem CoherentFs.allocBlock_cacheKept (fs : CoherentFs) (now : Nat) (image : Image) :
    Ends (fs.allocBlock now) image (fun _ => fs.CacheKept image) fun _ => fs.CacheKept image := by
  have kept := CoherentFs.CacheKept.refl fs image
  have start := InodeFields.refl (image.readBlock (fs.partOff + 1))
  refine .bind (.of_ok (fs.readSb_apply image) (.ite (fun _ => .bind (.raise kept)) fun _ => ?_))
  refine .ite (fun _ => .bind (.raise kept)) fun _ => .ite (fun _ => ?_) fun _ => ?_
  · refine .bind ((CoherentFs.writeSb_cacheKept (start.set16 (by decide))).mono ?_ fun _ _ => id)
    exact fun _ after same => .bind (.raise same)
  have popped := fun n => start.set16 (p := sbNfree) (v := n) (by decide)
  -- The end of the call, on a superblock that may have been refilled.
  have ends : ∀ {sb : Buffer} (b isize fsize : Nat),
      InodeFields (image.readBlock (fs.partOff + 1)) sb →
      Ends (do
        if b < isize ∨ fsize ≤ b then throw (.allocatedOutside b isize fsize)
        let tfree := sb.get32 sbTfree
        let sb := if 0 < tfree then sb.set32 sbTfree (tfree - 1) else sb
        fs.writeSb (touchSb sb now)
        return b) image (fun _ => fs.CacheKept image) fun _ => fs.CacheKept image := by
    intro sb b isize fsize fields
    refine .ite (fun _ => .bind (.raise kept)) fun _ => ?_
    have counted : InodeFields (image.readBlock (fs.partOff + 1))
        (if 0 < sb.get32 sbTfree then sb.set32 sbTfree (sb.get32 sbTfree - 1) else sb) := by
      split
      · exact fields.set32 (Or.inr (by decide))
      · exact fields
    refine .bind ((CoherentFs.writeSb_cacheKept (counted.touchSb now)).mono ?_ fun _ _ => id)
    exact fun _ after same => .value same
  refine .ite (fun _ => ?_) fun _ => ?_
  · refine .ite (fun _ => .bind (.raise kept)) fun _ => .bind (.of_ok (readBlock_apply _ image) ?_)
    refine .ite (fun _ => .bind (.raise kept)) fun _ => .bind (.value ?_)
    exact ends _ _ _ (((popped _).blit (by decide)).set16 (by decide))
  · exact .bind (.value (ends _ _ _ (popped _)))

/-- `free_block` keeps the inode fields. -/
theorem CoherentFs.freeBlock_cacheKept (fs : CoherentFs) (now : Nat) (image : Image) {b : Nat}
    (apart : b ≠ 1) :
    Ends (fs.freeBlock now b) image (fun _ => fs.CacheKept image) fun _ => fs.CacheKept image := by
  have kept := CoherentFs.CacheKept.refl fs image
  refine .ite (fun _ => .bind (.raise kept)) fun _ => .bind (.of_ok (fs.readSb_apply image) ?_)
  refine .ite (fun _ => .bind (.raise kept)) fun _ => ?_
  refine .ite (fun _ => .bind (.raise kept)) fun range => ?_
  -- The push onto a cache of `n` entries.
  have ends : ∀ {other : Image} {n : Nat}, n < nicFree → fs.CacheKept image other →
      InodeFields (other.readBlock (fs.partOff + 1)) (image.readBlock (fs.partOff + 1)) →
      Ends (do
        let sb := ((image.readBlock (fs.partOff + 1)).set32 (sbFree + n * 4) b).set16 sbNfree (n + 1)
        let sb := sb.set32 sbTfree (sb.get32 sbTfree + 1)
        fs.writeSb (touchSb sb now)) other (fun _ => fs.CacheKept image)
        fun _ => fs.CacheKept image := by
    intro other n small same fields
    unfold nicFree at small
    have pushed := ((fields.set32 (p := sbFree + n * 4) (v := b)
      (Or.inl (by unfold sbFree sbNinode; omega))).set16 (p := sbNfree) (v := n + 1) (by decide))
    refine (CoherentFs.writeSb_cacheKept ((pushed.set32 (Or.inr (by decide))).touchSb now)).mono ?_ ?_
    · exact fun _ _ => same.trans
    · exact fun _ _ => same.trans
  refine .ite (fun full => ?_) fun room => ?_
  · by_cases inside : image.hasBlock (fs.partOff + b) = true
    · refine .bind (.of_ok (writeBlock_inside inside _) ?_)
      have agree := image.setBlock_agreeExcept (fs.partOff + b)
      have other : fs.partOff + 1 ≠ fs.partOff + b := fun eq => apart (Nat.add_left_cancel eq).symm
      refine ends (by decide) ((agree _).cacheKept other) ?_
      rw [(agree _).block _ other]
      exact .refl _
    · exact .bind (.of_error (writeBlock_outside (Bool.eq_false_iff.mpr inside) _) kept)
  · exact ends (by omega) kept (.refl _)

end Kept

end C900
