import C900.Mmu.Cache

/-!
# What a translation leaves alone

A translation marks its descriptor referenced or changed and may latch a
violation. Neither shows in a later translation: `SameMap` relates two units that
agree on all a translation looks at, every translation stays inside it, and it
determines the physical address and the fault flag.
-/

namespace C900

/-- The descriptor without its history bits REF and CHG. -/
def MmuDesc.protection (d : MmuDesc) : MmuDesc := { d with attr := d.attr &&& ~~~(aRef ||| aChg) }

/-- Two units that translate alike: mode, cache, and the descriptors up to REF
and CHG. -/
structure Mmu.SameMap (u v : Mmu) : Prop where
  mode : u.mode = v.mode
  fastOk : u.fastOk = v.fastOk
  fastBase : u.fastBase = v.fastBase
  desc : ∀ s, (u.desc s).protection = (v.desc s).protection

namespace Mmu.SameMap

theorem refl (u : Mmu) : u.SameMap u := ⟨rfl, rfl, rfl, fun _ => rfl⟩

theorem symm {u v : Mmu} (same : u.SameMap v) : v.SameMap u :=
  ⟨same.mode.symm, same.fastOk.symm, same.fastBase.symm, fun s => (same.desc s).symm⟩

theorem trans {u v w : Mmu} (first : u.SameMap v) (second : v.SameMap w) : u.SameMap w :=
  ⟨first.mode.trans second.mode, first.fastOk.trans second.fastOk,
    first.fastBase.trans second.fastBase, fun s => (first.desc s).trans (second.desc s)⟩

end Mmu.SameMap

/-! ## Staying inside -/

@[simp] theorem MmuDesc.protection_touch (d : MmuDesc) (w : Bool) :
    (d.touch w).protection = d.protection := by
  have hidden : ∀ a : Byte, (a ||| aRef) &&& ~~~(aRef ||| aChg) = a &&& ~~~(aRef ||| aChg) ∧
      (a ||| aRef ||| aChg) &&& ~~~(aRef ||| aChg) = a &&& ~~~(aRef ||| aChg) := by decide
  cases w with
  | false => simp only [protection, touch, Bool.false_eq_true, if_false, (hidden d.attr).1]
  | true => simp only [protection, touch, if_true, (hidden d.attr).2]

/-- Marking a descriptor referenced or changed. -/
theorem Mmu.touch_sameMap (u : Mmu) (seg : BitVec 6) (w : Bool) :
    (u.setDesc seg ((u.desc seg).touch w)).SameMap u := by
  refine ⟨rfl, rfl, rfl, fun s => ?_⟩
  rw [Mmu.setDesc_desc, Function.update_apply]
  split_ifs with at_seg
  · rw [at_seg, MmuDesc.protection_touch]
  · rfl

theorem latchViol_mode (u : Mmu) (viol sn : Byte) (off : Word) (w n : Bool) (st : Byte)
    (suppress : Bool) : (latchViol u viol sn off w n st suppress).mode = u.mode := by
  unfold latchViol
  dsimp only
  split_ifs <;> rfl

theorem latchViol_sameMap (u : Mmu) (viol sn : Byte) (off : Word) (w n : Bool) (st : Byte)
    (suppress : Bool) : (latchViol u viol sn off w n st suppress).SameMap u :=
  ⟨latchViol_mode .., latchViol_fastOk .., latchViol_fastBase .., fun s => by rw [latchViol_desc]⟩

theorem protectionLadder_sameMap (u : Mmu) (sn : Byte) (off : Word) (w n f : Bool) :
    (protectionLadder u sn off w n f).2.2.SameMap u := by
  dsimp only [protectionLadder]
  cases ladderViol (u.desc (segIndex sn)) ((off >>> 8).setWidth 8) w n f with
  | some viol => exact latchViol_sameMap ..
  | none =>
    dsimp only
    split_ifs with warns
    · exact (latchViol_sameMap ..).trans (u.touch_sameMap _ w)
    · exact u.touch_sameMap _ w

/-- A translation changes nothing that a translation looks at. -/
theorem mmuTranslate_sameMap (u : Mmu) (sn : Byte) (off : Word) (w n f : Bool) :
    (mmuTranslate u sn off w n f).2.2.SameMap u := by
  unfold mmuTranslate
  dsimp only
  split_ifs
  · exact Mmu.SameMap.refl u
  · exact u.touch_sameMap _ w
  · exact protectionLadder_sameMap u sn off w n f

/-! ## Determining the result -/

/-- A test of a protection bit does not see the history bits. -/
theorem MmuDesc.protection_test (d : MmuDesc) (bit : Byte)
    (seen : ~~~(aRef ||| aChg) &&& bit = bit) : d.protection.attr &&& bit = d.attr &&& bit := by
  rw [protection, BitVec.and_assoc, seen]

theorem ladderViol_protection (d : MmuDesc) (page : Byte) (w n f : Bool) :
    ladderViol d.protection page w n f = ladderViol d page w n f := by
  simp only [ladderViol, d.protection_test aCpu (by decide), d.protection_test aDirw (by decide),
    d.protection_test aRd (by decide), d.protection_test aSys (by decide),
    d.protection_test aExc (by decide)]
  rfl

/-- The physical address and the fault flag of the ladder. -/
theorem protectionLadder_result (u : Mmu) (sn : Byte) (off : Word) (w n f : Bool) :
    ((protectionLadder u sn off w n f).1, (protectionLadder u sn off w n f).2.1) =
      match ladderViol (u.desc (segIndex sn)).protection ((off >>> 8).setWidth 8) w n f with
      | some _ => (identityAddr sn off, true)
      | none => ((u.desc (segIndex sn)).protection.phys off, false) := by
  rw [ladderViol_protection]
  dsimp only [protectionLadder]
  cases ladderViol (u.desc (segIndex sn)) ((off >>> 8).setWidth 8) w n f <;> rfl

/-- Units with the same map give every access the same address and fault flag. -/
theorem Mmu.SameMap.translate {u v : Mmu} (same : u.SameMap v) (sn : Byte) (off : Word)
    (w n f : Bool) :
    (mmuTranslate u sn off w n f).1 = (mmuTranslate v sn off w n f).1 ∧
      (mmuTranslate u sn off w n f).2.1 = (mmuTranslate v sn off w n f).2.1 := by
  have ladder : ((protectionLadder u sn off w n f).1, (protectionLadder u sn off w n f).2.1) =
      ((protectionLadder v sn off w n f).1, (protectionLadder v sn off w n f).2.1) := by
    rw [protectionLadder_result, protectionLadder_result, same.desc]
  have acts : u.translates sn = v.translates sn := by rw [translates, translates, same.mode]
  unfold mmuTranslate
  dsimp only
  rw [acts, same.fastOk, same.fastBase]
  split_ifs
  · exact ⟨rfl, rfl⟩
  · exact ⟨rfl, rfl⟩
  · exact Prod.ext_iff.mp ladder

end C900
