import C900.Mmu.Translate
import Mathlib.Data.List.Induction

/-!
# The descriptor cache is transparent

`CacheCoherent` says that every cache entry is the one its descriptor
determines. Reset establishes it, every MMU command and every translation keeps
it, and under it `mmuTranslate` is `translateUncached`. The command case rests
on one observation: a command changes one descriptor and refreshes that one,
whatever it does to SAR and DSC in between.
-/

namespace C900

/-- The cache entry of one descriptor is up to date. -/
def Mmu.CoherentAt (u : Mmu) (s : BitVec 6) : Prop :=
  u.fastOk s = (u.desc s).simple ∧ u.fastBase s = (u.desc s).frame

/-- Every cache entry is up to date: `fast_ok` holds exactly for the simple
descriptors, and `fast_base` is `base << 8`. -/
def Mmu.CacheCoherent (u : Mmu) : Prop := ∀ s, u.CoherentAt s

/-! ## What the operations leave alone -/

@[simp] theorem Mmu.setDesc_fastOk (u : Mmu) (s : BitVec 6) (d : MmuDesc) :
    (u.setDesc s d).fastOk = u.fastOk := rfl

@[simp] theorem Mmu.setDesc_fastBase (u : Mmu) (s : BitVec 6) (d : MmuDesc) :
    (u.setDesc s d).fastBase = u.fastBase := rfl

@[simp] theorem Mmu.setDesc_desc (u : Mmu) (s : BitVec 6) (d : MmuDesc) :
    (u.setDesc s d).desc = Function.update u.desc s d := rfl

@[simp] theorem mmuRefreshFast_desc (u : Mmu) (seg : Byte) :
    (mmuRefreshFast u seg).desc = u.desc := rfl

/-- Latching a violation touches neither descriptors nor cache. -/
@[simp] theorem latchViol_desc (u : Mmu) (viol sn : Byte) (off : Word) (w n : Bool) (st : Byte)
    (suppress : Bool) : (latchViol u viol sn off w n st suppress).desc = u.desc := by
  unfold latchViol
  dsimp only
  split_ifs <;> rfl

@[simp] theorem latchViol_fastOk (u : Mmu) (viol sn : Byte) (off : Word) (w n : Bool) (st : Byte)
    (suppress : Bool) : (latchViol u viol sn off w n st suppress).fastOk = u.fastOk := by
  unfold latchViol
  dsimp only
  split_ifs <;> rfl

@[simp] theorem latchViol_fastBase (u : Mmu) (viol sn : Byte) (off : Word) (w n : Bool) (st : Byte)
    (suppress : Bool) : (latchViol u viol sn off w n st suppress).fastBase = u.fastBase := by
  unfold latchViol
  dsimp only
  split_ifs <;> rfl

@[simp] theorem Mmu.stepSar_desc (u : Mmu) (inc : Bool) : (u.stepSar inc).desc = u.desc := by
  cases inc <;> rfl

@[simp] theorem Mmu.stepSar_fastOk (u : Mmu) (inc : Bool) :
    (u.stepSar inc).fastOk = u.fastOk := by
  cases inc <;> rfl

@[simp] theorem Mmu.stepSar_fastBase (u : Mmu) (inc : Bool) :
    (u.stepSar inc).fastBase = u.fastBase := by
  cases inc <;> rfl

/-- The DSC and SAR movement of a Base field access touches no descriptor and
no cache entry. -/
theorem Mmu.stepBase_keeps (u : Mmu) (inc : Bool) :
    (u.stepBase inc).desc = u.desc ∧ (u.stepBase inc).fastOk = u.fastOk ∧
      (u.stepBase inc).fastBase = u.fastBase := by
  unfold Mmu.stepBase
  split <;> simp

/-- The same for a full descriptor access. -/
theorem Mmu.stepFull_keeps (u : Mmu) (inc : Bool) :
    (u.stepFull inc).desc = u.desc ∧ (u.stepFull inc).fastOk = u.fastOk ∧
      (u.stepFull inc).fastBase = u.fastBase := by
  simp [Mmu.stepFull]

/-- REF and CHG are not among the bits that decide a descriptor's cache entry. -/
@[simp] theorem MmuDesc.simple_touch (d : MmuDesc) (w : Bool) : (d.touch w).simple = d.simple := by
  have attr : ∀ a : Byte, (a ||| aRef) &&& aRestrict = a &&& aRestrict ∧
      (a ||| aRef ||| aChg) &&& aRestrict = a &&& aRestrict := by decide
  cases w <;> simp [MmuDesc.touch, MmuDesc.simple, attr]

@[simp] theorem MmuDesc.frame_touch (d : MmuDesc) (w : Bool) : (d.touch w).frame = d.frame := rfl

/-- The mask `0x3F` is what the descriptor index type already applies. -/
@[simp] theorem segIndex_and (x : Byte) : segIndex (x &&& 0x3F) = segIndex x := by
  revert x
  decide

/-! ## Coherence of single entries -/

/-- Coherence depends on the descriptors and the cache only. -/
theorem Mmu.CacheCoherent.congr {u v : Mmu} (coherent : u.CacheCoherent)
    (desc : v.desc = u.desc) (fastOk : v.fastOk = u.fastOk) (fastBase : v.fastBase = u.fastBase) :
    v.CacheCoherent := by
  intro s
  rw [Mmu.CoherentAt, desc, fastOk, fastBase]
  exact coherent s

/-- Refreshing an entry makes it coherent and leaves the others as they were. -/
theorem mmuRefreshFast_coherentAt (u : Mmu) (seg : Byte) (s : BitVec 6)
    (other : s ≠ segIndex seg → u.CoherentAt s) : (mmuRefreshFast u seg).CoherentAt s := by
  by_cases same : s = segIndex seg
  · subst same
    simp [Mmu.CoherentAt, mmuRefreshFast]
  · have kept := other same
    simp only [Mmu.CoherentAt, mmuRefreshFast, Function.update_of_ne same]
    exact kept

/-- Changing one descriptor leaves the other entries coherent. -/
theorem Mmu.CacheCoherent.setDesc_other {u : Mmu} (coherent : u.CacheCoherent)
    (seg s : BitVec 6) (d : MmuDesc) (ne : s ≠ seg) : (u.setDesc seg d).CoherentAt s := by
  simp only [Mmu.CoherentAt, Mmu.setDesc_desc, Function.update_of_ne ne]
  exact coherent s

/-- Write one descriptor, move SAR and DSC in any way, refresh the descriptor
that was written: the cache stays coherent. -/
theorem Mmu.CacheCoherent.write_refresh {u v : Mmu} (coherent : u.CacheCoherent) (tgt : Byte)
    (d : MmuDesc) (desc : v.desc = (u.setDesc (segIndex tgt) d).desc)
    (fastOk : v.fastOk = u.fastOk) (fastBase : v.fastBase = u.fastBase) :
    (mmuRefreshFast v tgt).CacheCoherent := by
  intro s
  apply mmuRefreshFast_coherentAt
  intro ne
  have kept := coherent.setDesc_other (segIndex tgt) s d ne
  rw [Mmu.CoherentAt, desc, fastOk, fastBase]
  exact kept

/-! ## Every operation keeps coherence -/

theorem forSegs_coherent {body : Mmu → Byte → Mmu}
    (step : ∀ u i, u.CacheCoherent → (body u i).CacheCoherent) {u : Mmu}
    (coherent : u.CacheCoherent) : (forSegs body u).CacheCoherent := by
  unfold forSegs
  exact List.foldlRecOn (motive := Mmu.CacheCoherent) _ _ coherent
    fun v hv i _ => step v _ hv

/-- Refreshing every entry of any MMU makes its cache coherent. -/
theorem forSegs_refresh_coherent (u : Mmu) : (forSegs mmuRefreshFast u).CacheCoherent := by
  intro s
  -- The entries refreshed so far are coherent; the loop visits all 64.
  have visited : ∀ (l : List Nat) (v : Mmu), (v.CoherentAt s ∨ ∃ i ∈ l, s = BitVec.ofNat 6 i) →
      (l.foldl (fun u i => mmuRefreshFast u (BitVec.ofNat 8 i)) v).CoherentAt s := by
    intro l
    induction l with
    | nil =>
      rintro v (done | ⟨i, mem, _⟩)
      · exact done
      · simp at mem
    | cons i l inductionHypothesis =>
      intro v holds
      apply inductionHypothesis
      rcases holds with done | ⟨j, mem, index⟩
      · exact Or.inl (mmuRefreshFast_coherentAt v _ s fun _ => done)
      · rcases List.mem_cons.mp mem with rfl | later
        · refine Or.inl (mmuRefreshFast_coherentAt v _ s fun ne => absurd ?_ ne)
          rw [index, segIndex, BitVec.setWidth_ofNat_of_le (by decide)]
        · exact Or.inr ⟨j, later, index⟩
  refine visited _ u (Or.inr ⟨s.toNat, ?_, ?_⟩)
  · exact List.mem_range.mpr s.isLt
  · simp

theorem mmuReset_coherent (u : Mmu) : (mmuReset u).CacheCoherent :=
  forSegs_refresh_coherent _

theorem orAttr_coherent (bit : Byte) (u : Mmu) (i : Byte) (coherent : u.CacheCoherent) :
    (orAttr bit u i).CacheCoherent :=
  coherent.write_refresh i _ rfl rfl rfl

/-- A descriptor command: write one byte of the descriptor SAR selects, move SAR
and DSC, refresh the descriptor SAR selected before it moved. -/
theorem descCommand_coherent {u : Mmu} (coherent : u.CacheCoherent) (which v : Byte)
    (move : Mmu → Mmu)
    (keeps : ∀ w, (move w).desc = w.desc ∧ (move w).fastOk = w.fastOk ∧
      (move w).fastBase = w.fastBase) :
    (mmuRefreshFast (move (writeDescByte u which v)) (u.sar &&& 0x3F)).CacheCoherent := by
  obtain ⟨desc, fastOk, fastBase⟩ := keeps (writeDescByte u which v)
  obtain ⟨d, written⟩ : ∃ d, writeDescByte u which v = u.setDesc (segIndex u.sar) d := ⟨_, rfl⟩
  refine coherent.write_refresh _ d ?_ ?_ ?_
  · rw [desc, written, segIndex_and]
  · rw [fastOk, written, Mmu.setDesc_fastOk]
  · rw [fastBase, written, Mmu.setDesc_fastBase]

/-- Every command keeps the cache coherent. -/
theorem mmuCmdWrite_coherent (u : Mmu) (cmd data : Byte) (coherent : u.CacheCoherent) :
    (mmuCmdWrite u cmd data).CacheCoherent := by
  have stepSar : ∀ inc (w : Mmu), (w.stepSar inc).desc = w.desc ∧
      (w.stepSar inc).fastOk = w.fastOk ∧ (w.stepSar inc).fastBase = w.fastBase := by simp
  unfold mmuCmdWrite
  split
  -- The commands 0x00, 0x01 and 0x20 load MODE, SAR and DSC.
  case h_1 | h_2 | h_3 => exact coherent
  case h_4 | h_5 =>
    exact descCommand_coherent coherent _ _ (·.stepBase _) fun w => w.stepBase_keeps _
  case h_6 | h_7 | h_8 | h_9 =>
    exact descCommand_coherent coherent _ _ (·.stepSar _) (stepSar _)
  case h_10 | h_11 =>
    exact descCommand_coherent coherent _ _ (·.stepFull _) fun w => w.stepFull_keeps _
  -- 0x11, 0x13 and 0x14 reset violation state.
  case h_12 | h_13 | h_14 => exact coherent
  case h_15 => exact forSegs_coherent (orAttr_coherent aCpu) coherent
  case h_16 => exact forSegs_coherent (orAttr_coherent aDmai) coherent
  case h_17 => exact coherent

/-- A command read moves SAR and DSC at most. -/
theorem mmuCmdRead_coherent (u : Mmu) (cmd : Byte) (coherent : u.CacheCoherent) :
    (mmuCmdRead u cmd).2.CacheCoherent := by
  unfold mmuCmdRead
  split
  case h_4 | h_5 =>
    obtain ⟨desc, fastOk, fastBase⟩ := u.stepBase_keeps (cmd == 0x0C)
    exact coherent.congr desc fastOk fastBase
  case h_6 | h_7 | h_8 | h_9 => exact coherent.congr (by simp) (by simp) (by simp)
  case h_10 | h_11 =>
    obtain ⟨desc, fastOk, fastBase⟩ := u.stepFull_keeps (cmd == 0x0F)
    exact coherent.congr desc fastOk fastBase
  all_goals exact coherent

/-- Setting REF and CHG keeps the cache coherent without a refresh. -/
theorem touch_coherent (u : Mmu) (seg : BitVec 6) (w : Bool) (coherent : u.CacheCoherent) :
    (u.setDesc seg ((u.desc seg).touch w)).CacheCoherent := by
  intro s
  by_cases same : s = seg
  · subst same
    simpa [Mmu.CoherentAt] using coherent s
  · exact coherent.setDesc_other seg s _ same

theorem protectionLadder_coherent (u : Mmu) (sn : Byte) (off : Word) (w n f : Bool)
    (coherent : u.CacheCoherent) : (protectionLadder u sn off w n f).2.2.CacheCoherent := by
  dsimp only [protectionLadder]
  cases ladderViol (u.desc (segIndex sn)) ((off >>> 8).setWidth 8) w n f with
  | some viol => exact coherent.congr (by simp) (by simp) (by simp)
  | none =>
    dsimp only
    split
    · exact (touch_coherent u (segIndex sn) w coherent).congr (by simp) (by simp) (by simp)
    · exact touch_coherent u (segIndex sn) w coherent

/-! ## The cached path is the ladder -/

/-- No test of the ladder fails on a simple descriptor. -/
theorem ladderViol_simple {d : MmuDesc} (simple : d.simple) (page : Byte) (w n f : Bool) :
    ladderViol d page w n f = none := by
  have bits : ∀ a : Byte, a &&& aRestrict = 0 →
      a &&& aCpu = 0 ∧ a &&& aDirw = 0 ∧ a &&& aRd = 0 ∧ a &&& aSys = 0 ∧ a &&& aExc = 0 := by
    decide
  simp only [MmuDesc.simple, Bool.and_eq_true, beq_iff_eq] at simple
  obtain ⟨limit, restrict⟩ := simple
  obtain ⟨cpu, dirw, rd, sys, exc⟩ := bits _ restrict
  have inRange : ¬ d.limit < page := by
    rw [limit]
    bv_omega
  simp [ladderViol, cpu, dirw, rd, sys, exc, inRange]

/-- A simple descriptor is not a descending segment. -/
theorem MmuDesc.simple_not_dirw {d : MmuDesc} (simple : d.simple) : d.attr &&& aDirw = 0 := by
  have bits : ∀ a : Byte, a &&& aRestrict = 0 → a &&& aDirw = 0 := by decide
  simp only [MmuDesc.simple, Bool.and_eq_true, beq_iff_eq] at simple
  exact bits _ simple.2

/-- On a simple descriptor the ladder permits the access, records REF/CHG and
raises nothing. -/
theorem protectionLadder_simple (u : Mmu) (sn : Byte) (off : Word) (w n f : Bool)
    (simple : (u.desc (segIndex sn)).simple) :
    protectionLadder u sn off w n f =
      ((u.desc (segIndex sn)).phys off, false,
        u.setDesc (segIndex sn) ((u.desc (segIndex sn)).touch w)) := by
  simp [protectionLadder, ladderViol_simple simple, MmuDesc.simple_not_dirw simple]

/-- With a coherent cache, translation is the protection ladder. -/
theorem Mmu.CacheCoherent.translate_eq {u : Mmu} (coherent : u.CacheCoherent) (sn : Byte)
    (off : Word) (w n f : Bool) :
    mmuTranslate u sn off w n f = translateUncached u sn off w n f := by
  unfold mmuTranslate translateUncached
  split
  · rfl
  · obtain ⟨fastOk, fastBase⟩ := coherent (segIndex sn)
    dsimp only
    split
    case isTrue cached =>
      rw [fastOk] at cached
      rw [protectionLadder_simple u sn off w n f cached, fastBase]
      rfl
    case isFalse => rfl

theorem mmuTranslate_coherent (u : Mmu) (sn : Byte) (off : Word) (w n f : Bool)
    (coherent : u.CacheCoherent) : (mmuTranslate u sn off w n f).2.2.CacheCoherent := by
  rw [coherent.translate_eq]
  unfold translateUncached
  split
  · exact coherent
  · exact protectionLadder_coherent u sn off w n f coherent

/-! ## Runs -/

/-- One call into the MMU. -/
inductive MmuOp where
  | cmdWrite (cmd data : Byte)
  | cmdRead (cmd : Byte)
  | translate (sn : Byte) (off : Word) (isWrite isNormal isFetch : Bool)

/-- The MMU after a call. -/
def MmuOp.apply (u : Mmu) : MmuOp → Mmu
  | .cmdWrite cmd data => mmuCmdWrite u cmd data
  | .cmdRead cmd => (mmuCmdRead u cmd).2
  | .translate sn off w n f => (mmuTranslate u sn off w n f).2.2

/-- The MMU after a sequence of calls from reset. -/
def mmuRun (u : Mmu) (ops : List MmuOp) : Mmu := ops.foldl MmuOp.apply (mmuReset u)

theorem MmuOp.apply_coherent (u : Mmu) (op : MmuOp) (coherent : u.CacheCoherent) :
    (op.apply u).CacheCoherent := by
  cases op with
  | cmdWrite cmd data => exact mmuCmdWrite_coherent u cmd data coherent
  | cmdRead cmd => exact mmuCmdRead_coherent u cmd coherent
  | translate sn off w n f => exact mmuTranslate_coherent u sn off w n f coherent

/-- The cache is coherent after any sequence of calls. -/
theorem mmuRun_coherent (u : Mmu) (ops : List MmuOp) : (mmuRun u ops).CacheCoherent :=
  List.foldlRecOn (motive := Mmu.CacheCoherent) _ _ (mmuReset_coherent u)
    fun v coherent op _ => op.apply_coherent v coherent

/-- After any interleaving of commands and translations from reset, the cache
holds what the descriptors determine, and every access is translated as the
protection ladder on `desc[sn & 0x3F]` translates it: same address, same fault
flag, same MMU afterwards. -/
theorem mmuRun_translate_uncached (u : Mmu) (ops : List MmuOp) :
    (∀ s, (mmuRun u ops).fastOk s = ((mmuRun u ops).desc s).simple ∧
      (mmuRun u ops).fastBase s = ((mmuRun u ops).desc s).frame) ∧
    ∀ (sn : Byte) (off : Word) (isWrite isNormal isFetch : Bool),
      mmuTranslate (mmuRun u ops) sn off isWrite isNormal isFetch =
        translateUncached (mmuRun u ops) sn off isWrite isNormal isFetch :=
  ⟨mmuRun_coherent u ops, (mmuRun_coherent u ops).translate_eq⟩

end C900
