import C900.Mmu.Violation

/-!
# The flags that inhibit trap requests

With FATL or SWW set the unit requests no further trap: an access raises no write warning. The
flags are set on a captured violation only, and they stay until a command clears them.
-/

namespace C900

/-- The flags of the violation type register that inhibit trap requests. -/
inductive InhibitFlag where
  | fatal
  | secondWarning

namespace InhibitFlag

/-- The bit number of the flag. -/
def index : InhibitFlag → Nat
  | .fatal => 7
  | .secondWarning => 6

/-- The command that clears the flag. -/
def command : InhibitFlag → Byte
  | .fatal => 0x14
  | .secondWarning => 0x13

/-- A command clears the flag: its own one, and the reset of the VTR. -/
def clearedBy (f : InhibitFlag) (cmd : Byte) : Bool := cmd == 0x11 || cmd == f.command

end InhibitFlag

namespace Mmu

/-- The flag is set. -/
def inhibited (u : Mmu) (f : InhibitFlag) : Bool := u.violType.getLsbD f.index

/-- FATL and SWW are set on captured violations. -/
def FlagsCaptured (u : Mmu) : Prop := ∀ f, u.inhibited f = true → u.violCaptured = true

/-- The flag is set on a captured violation. -/
structure Holds (u : Mmu) (f : InhibitFlag) : Prop where
  set : u.inhibited f = true
  captured : u.violCaptured = true

/-- A unit with a flag tests positive at the end of `latch_viol`. -/
theorem inhibited_mask {u : Mmu} {f : InhibitFlag} (set : u.inhibited f = true) :
    (u.violType &&& (vtFatl ||| vtSww) == 0) = false := by
  rw [beq_eq_false_iff_ne]
  intro clear
  have bit : (u.violType &&& (vtFatl ||| vtSww)).getLsbD f.index = false := by
    rw [clear]
    exact BitVec.getLsbD_zero
  have mask : (vtFatl ||| vtSww).getLsbD f.index = true := by cases f <;> decide
  rw [BitVec.getLsbD_and, mask, Bool.and_true] at bit
  exact Bool.false_ne_true (bit.symm.trans set)

end Mmu

section Latch

variable {u : Mmu} {f : InhibitFlag} (holds : u.Holds f) (viol sn : Byte) (off : Word)
  (isWrite isNormal : Bool) (st : Byte) (suppress : Bool)

include holds

/-- A further violation keeps the flag. -/
theorem latchViol_holds : (latchViol u viol sn off isWrite isNormal st suppress).Holds f := by
  have kept := Violation.Kept.latchViol holds.captured viol sn off isWrite isNormal st suppress
  exact ⟨kept.violType f.index holds.set (BitVec.getLsbD_zero), kept.captured⟩

/-- It raises no warning. -/
theorem latchViol_warnPending :
    (latchViol u viol sn off isWrite isNormal st suppress).warnPending = u.warnPending := by
  have shape : ∃ v : Mmu, v.warnPending = u.warnPending ∧
      latchViol u viol sn off isWrite isNormal st suppress =
        if v.violType &&& (vtFatl ||| vtSww) == 0 then
          { v with segt := true, warnPending := v.warnPending || !suppress } else v := by
    refine ⟨_, ?_, rfl⟩
    split_ifs <;> rfl
  obtain ⟨v, same, ends⟩ := shape
  have still := (latchViol_holds holds viol sn off isWrite isNormal st suppress).set
  have record := v.requestTrap_violation suppress
  rw [← ends] at record
  have set : v.inhibited f = true :=
    (congrArg (·.violType.getLsbD f.index) record).symm.trans still
  rw [ends, if_neg (Bool.not_eq_true _ ▸ v.inhibited_mask set)]
  exact same

end Latch

/-- Two units agree in the violation registers and in the outstanding warning. -/
def Mmu.SameWarning (u v : Mmu) : Prop := v.violation = u.violation ∧ v.warnPending = u.warnPending

/-- An access latches at most itself. -/
theorem mmuTranslate_latch (u : Mmu) (sn : Byte) (off : Word) (w n f : Bool) :
    ∃ v, u.SameWarning v ∧ ((mmuTranslate u sn off w n f).2.2 = v ∨
      ∃ viol suppress, (mmuTranslate u sn off w n f).2.2 =
        latchViol v viol sn off w n (busStatus w f) suppress) := by
  unfold mmuTranslate protectionLadder
  dsimp only
  split
  · exact ⟨u, ⟨rfl, rfl⟩, .inl rfl⟩
  · split
    · exact ⟨u.setDesc (segIndex sn) ((u.desc (segIndex sn)).touch w), ⟨rfl, rfl⟩, .inl rfl⟩
    · cases ladderViol (u.desc (segIndex sn)) ((off >>> 8).setWidth 8) w n f with
      | some viol => exact ⟨u, ⟨rfl, rfl⟩, .inr ⟨viol, true, rfl⟩⟩
      | none =>
        refine ⟨u.setDesc (segIndex sn) ((u.desc (segIndex sn)).touch w), ⟨rfl, rfl⟩, ?_⟩
        dsimp only
        split
        · exact .inr ⟨vtPww, false, rfl⟩
        · exact .inl rfl

namespace Mmu.Holds

variable {u v : Mmu} {f : InhibitFlag}

theorem of_same (holds : u.Holds f) (same : v.violation = u.violation) : v.Holds f :=
  ⟨(congrArg (·.violType.getLsbD f.index) same).trans holds.set,
    (congrArg Violation.captured same).trans holds.captured⟩

/-- An access keeps the flag and raises no warning. -/
theorem translate (holds : u.Holds f) (sn : Byte) (off : Word) (isWrite n isFetch : Bool) :
    (mmuTranslate u sn off isWrite n isFetch).2.2.Holds f ∧
      (mmuTranslate u sn off isWrite n isFetch).2.2.warnPending = u.warnPending := by
  obtain ⟨v, ⟨violation, warning⟩, plain | ⟨viol, suppress, latches⟩⟩ :=
    mmuTranslate_latch u sn off isWrite n isFetch
  · rw [plain]
    exact ⟨holds.of_same violation, warning⟩
  · rw [latches]
    have before := holds.of_same violation
    exact ⟨latchViol_holds before .., (latchViol_warnPending before ..).trans warning⟩

end Mmu.Holds

theorem Mmu.forSegs_warnPending {body : Mmu → Byte → Mmu} (u : Mmu)
    (keeps : ∀ v i, (body v i).warnPending = v.warnPending) :
    (forSegs body u).warnPending = u.warnPending := by
  unfold forSegs
  induction List.range 64 generalizing u with
  | nil => rfl
  | cons i rest inductionHypothesis => exact (inductionHypothesis _).trans (keeps u _)

theorem Mmu.stepSar_warnPending (u : Mmu) (inc : Bool) :
    (u.stepSar inc).warnPending = u.warnPending := by
  unfold stepSar
  split <;> rfl

theorem Mmu.stepBase_warnPending (u : Mmu) (inc : Bool) :
    (u.stepBase inc).warnPending = u.warnPending := by
  unfold stepBase
  split
  · exact stepSar_warnPending _ inc
  · rfl

theorem mmuCmdRead_warnPending (u : Mmu) (cmd : Byte) :
    (mmuCmdRead u cmd).2.warnPending = u.warnPending := by
  unfold mmuCmdRead
  split <;> first | rfl | exact u.stepBase_warnPending _ | exact u.stepSar_warnPending _

theorem mmuCmdWrite_warnPending (u : Mmu) (cmd data : Byte) :
    (mmuCmdWrite u cmd data).warnPending = u.warnPending := by
  unfold mmuCmdWrite
  split
  case h_15 | h_16 => exact u.forSegs_warnPending fun _ _ => rfl
  all_goals first | rfl | exact Mmu.stepBase_warnPending _ _ | exact Mmu.stepSar_warnPending _ _

/-- A command that does not clear the flag keeps it. -/
theorem Mmu.Holds.cmdWrite {u : Mmu} {f : InhibitFlag} (holds : u.Holds f) (cmd data : Byte)
    (other : f.clearedBy cmd = false) : (mmuCmdWrite u cmd data).Holds f := by
  rw [InhibitFlag.clearedBy, Bool.or_eq_false_iff, beq_eq_false_iff_ne, beq_eq_false_iff_ne] at other
  obtain ⟨notReset, notOwn⟩ := other
  have kept := mmuCmdWrite_kept holds.captured cmd data notReset
  refine ⟨kept.violType f.index holds.set ?_, kept.captured⟩
  show (if cmd = 0x13 then vtSww else if cmd = 0x14 then vtFatl else 0).getLsbD f.index = false
  cases f with
  | fatal =>
    rw [if_neg (show ¬cmd = 0x14 from notOwn)]
    split_ifs <;> decide
  | secondWarning =>
    rw [if_neg (show ¬cmd = 0x13 from notOwn)]
    split_ifs <;> decide

/-! ## The flags of a unit in use -/

theorem Mmu.FlagsCaptured.of_same {u v : Mmu} (sound : u.FlagsCaptured)
    (same : v.violation = u.violation) : v.FlagsCaptured := fun f set =>
  (congrArg Violation.captured same).trans
    (sound f ((congrArg (·.violType.getLsbD f.index) same).symm.trans set))

theorem mmuCmdWrite_flagsCaptured {u : Mmu} (sound : u.FlagsCaptured) (cmd data : Byte) :
    (mmuCmdWrite u cmd data).FlagsCaptured := by
  -- the commands 0x13 and 0x14 take bits away
  have less (bits : Byte) : ({ u with violType := u.violType &&& bits } : Mmu).FlagsCaptured := by
    intro f set
    have both : (u.violType &&& bits).getLsbD f.index = true := set
    rw [BitVec.getLsbD_and, Bool.and_eq_true] at both
    exact sound f both.1
  unfold mmuCmdWrite
  split
  case h_12 => exact fun f set => absurd (BitVec.getLsbD_zero.symm.trans set) Bool.false_ne_true
  case h_13 | h_14 => exact less _
  case h_15 | h_16 => exact sound.of_same (u.forSegs_violation fun v i => by simp [orAttr])
  case h_1 | h_2 | h_3 | h_17 => exact sound.of_same rfl
  all_goals exact sound.of_same (by simp)

/-- A call keeps the flags on captured violations. -/
theorem MmuOp.apply_flagsCaptured {u : Mmu} (sound : u.FlagsCaptured) (op : MmuOp) :
    (op.apply u).FlagsCaptured := by
  cases op with
  | cmdWrite cmd data => exact mmuCmdWrite_flagsCaptured sound cmd data
  | cmdRead cmd => exact sound.of_same (mmuCmdRead_violation u cmd)
  | translate sn off w n f =>
    obtain ⟨v, ⟨violation, -⟩, plain | ⟨viol, suppress, latches⟩⟩ :=
      mmuTranslate_latch u sn off w n f
    · rw [apply, plain]
      exact sound.of_same violation
    · rw [apply, latches]
      intro g _
      cases captured : v.violCaptured with
      | true => exact (Violation.Kept.latchViol captured ..).captured
      | false =>
        obtain ⟨bits, record⟩ := latchViol_first v viol sn off w n (busStatus w f) suppress captured
        exact congrArg Violation.captured record

/-- Every unit that comes from a reset has its flags on captured violations. -/
theorem mmuRun_flagsCaptured (u : Mmu) (ops : List MmuOp) : (mmuRun u ops).FlagsCaptured := by
  unfold mmuRun
  have reset : (mmuReset u).FlagsCaptured := by
    refine Mmu.FlagsCaptured.of_same (fun f set => ?_)
      (Mmu.forSegs_violation _ fun v i => v.mmuRefreshFast_violation i)
    exact absurd (BitVec.getLsbD_zero.symm.trans set) Bool.false_ne_true
  induction ops using List.reverseRecOn with
  | nil => exact reset
  | append_singleton ops op inductionHypothesis =>
    rw [List.foldl_append]
    exact MmuOp.apply_flagsCaptured inductionHypothesis op

end C900
