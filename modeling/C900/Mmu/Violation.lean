import C900.Mmu.Cache

/-!
# The violation registers along a run

The first access that traps or warns is recorded in the violation registers. Until
the VTR is reset the record of that access stays: segment number, offset and bus
cycle status are pinned, the type register only gains bits, except that two commands
clear one bit each. An access that is refused touches no descriptor.
-/

namespace C900

/-! ## The registers -/

/-- The violation registers. -/
structure Violation where
  violType : Byte
  violSn : Byte
  violOff : Word
  bcsr : Byte
  captured : Bool
deriving DecidableEq

namespace Mmu

/-- The violation registers of a unit. -/
def violation (u : Mmu) : Violation := ⟨u.violType, u.violSn, u.violOff, u.bcsr, u.violCaptured⟩

section

variable (u : Mmu)

@[simp] theorem setDesc_violation (s : BitVec 6) (d : MmuDesc) :
    (u.setDesc s d).violation = u.violation := rfl

@[simp] theorem mmuRefreshFast_violation (seg : Byte) :
    (mmuRefreshFast u seg).violation = u.violation := rfl

@[simp] theorem writeDescByte_violation (which v : Byte) :
    (writeDescByte u which v).violation = u.violation := rfl

@[simp] theorem stepSar_violation (inc : Bool) : (u.stepSar inc).violation = u.violation := by
  unfold stepSar
  split <;> rfl

@[simp] theorem stepBase_violation (inc : Bool) : (u.stepBase inc).violation = u.violation := by
  unfold stepBase
  split
  · exact stepSar_violation _ inc
  · rfl

@[simp] theorem stepFull_violation (inc : Bool) : (u.stepFull inc).violation = u.violation :=
  stepSar_violation u _

theorem forSegs_violation {body : Mmu → Byte → Mmu}
    (keeps : ∀ v i, (body v i).violation = v.violation) :
    (forSegs body u).violation = u.violation := by
  unfold forSegs
  induction List.range 64 generalizing u with
  | nil => rfl
  | cons i rest inductionHypothesis => exact (inductionHypothesis _).trans (keeps u _)

end

end Mmu

/-! ## The record of an access -/

/-- The bus cycle status register of an access. -/
def cycleStatus (isWrite isNormal isFetch : Bool) : Byte :=
  (busStatus isWrite isFetch &&& 0x0F) ||| (if isWrite then 0x10 else 0) |||
    (if isNormal then 0x20 else 0)

/-- A captured violation is kept: the record is the same, and a type bit outside
`cleared` that was set is still set. -/
structure Violation.Kept (x y : Violation) (cleared : Byte) : Prop where
  captured : y.captured = true
  violSn : y.violSn = x.violSn
  violOff : y.violOff = x.violOff
  bcsr : y.bcsr = x.bcsr
  violType : ∀ i, x.violType.getLsbD i = true → cleared.getLsbD i = false →
    y.violType.getLsbD i = true

namespace Violation.Kept

variable {x y z : Violation} {p q : Byte}

theorem refl (captured : x.captured = true) : x.Kept x 0 :=
  ⟨captured, rfl, rfl, rfl, fun _ set _ => set⟩

theorem trans (first : x.Kept y p) (second : y.Kept z q) : x.Kept z (p ||| q) := by
  refine ⟨second.captured, second.violSn.trans first.violSn, second.violOff.trans first.violOff,
    second.bcsr.trans first.bcsr, fun i set spared => ?_⟩
  rw [BitVec.getLsbD_or, Bool.or_eq_false_iff] at spared
  exact second.violType i (first.violType i set spared.1) spared.2

/-- The type register gains bits. -/
theorem gain (captured : x.captured = true) (bits : Byte) :
    x.Kept { x with violType := x.violType ||| bits } 0 := by
  refine ⟨captured, rfl, rfl, rfl, fun i set _ => ?_⟩
  rw [BitVec.getLsbD_or, set, Bool.true_or]

/-- The type register loses bits. -/
theorem clear (captured : x.captured = true) (bits : Byte) :
    x.Kept { x with violType := x.violType &&& ~~~bits } bits := by
  refine ⟨captured, rfl, rfl, rfl, fun i set spared => ?_⟩
  have bound : i < 8 := BitVec.lt_of_getLsbD set
  rw [BitVec.getLsbD_and, set, BitVec.getLsbD_not, spared]
  simp [bound]

end Violation.Kept

section Latch

variable (u : Mmu) (viol sn : Byte) (off : Word) (isWrite isNormal : Bool) (st : Byte)
  (suppress : Bool)

/-- The bits that a further violation adds to the type register. -/
def Mmu.furtherBits (u : Mmu) (viol : Byte) (isNormal suppress : Bool) : Byte :=
  let fatal := suppress || isNormal
  viol ||| (if fatal then vtFatl else 0) |||
    (if !fatal && (u.violType &&& vtPww != 0) then vtSww else 0)

/-- The trap request at the end of `latch_viol` leaves the record alone. -/
theorem Mmu.requestTrap_violation (v : Mmu) :
    (if v.violType &&& (vtFatl ||| vtSww) == 0 then
      { v with segt := true, warnPending := v.warnPending || !suppress } else v).violation =
      v.violation := by
  split <;> rfl

/-- A further violation adds bits to the type register only. -/
theorem latchViol_further (captured : u.violCaptured = true) :
    (latchViol u viol sn off isWrite isNormal st suppress).violation =
      { u.violation with violType := u.violType ||| u.furtherBits viol isNormal suppress } := by
  unfold latchViol Mmu.furtherBits
  rw [Mmu.requestTrap_violation]
  cases suppress <;> cases isNormal <;> cases (u.violType &&& vtPww != 0) <;>
    simp [captured, Mmu.violation, BitVec.or_assoc]

/-- The first violation is recorded. -/
theorem latchViol_first (armed : u.violCaptured = false) :
    ∃ bits, (latchViol u viol sn off isWrite isNormal st suppress).violation =
      { violType := bits, violSn := sn, violOff := off
        bcsr := (st &&& 0x0F) ||| (if isWrite then 0x10 else 0) ||| (if isNormal then 0x20 else 0)
        captured := true } := by
  unfold latchViol
  rw [Mmu.requestTrap_violation]
  simp only [armed, Bool.not_false, Bool.false_and, if_true, Bool.false_eq_true, if_false,
    Bool.and_true]
  split
  · exact ⟨_, rfl⟩
  · exact ⟨_, rfl⟩

end Latch

/-- One call into the MMU keeps a captured violation. -/
theorem Violation.Kept.latchViol {u : Mmu} (captured : u.violCaptured = true) (viol sn : Byte)
    (off : Word) (isWrite isNormal : Bool) (st : Byte) (suppress : Bool) :
    u.violation.Kept (latchViol u viol sn off isWrite isNormal st suppress).violation 0 := by
  rw [latchViol_further u viol sn off isWrite isNormal st suppress captured]
  exact gain captured _

/-! ## Translations -/

/-- A refused access touches no descriptor. -/
theorem mmuTranslate_refused {u : Mmu} {sn : Byte} {off : Word} {w n f : Bool}
    (refused : (mmuTranslate u sn off w n f).2.1 = true) :
    (mmuTranslate u sn off w n f).2.2.desc = u.desc := by
  unfold mmuTranslate protectionLadder at *
  dsimp only at *
  split at refused
  · exact absurd refused Bool.false_ne_true
  next translated =>
    rw [if_neg translated]
    split at refused
    · exact absurd refused Bool.false_ne_true
    next slow =>
      rw [if_neg slow]
      cases test : ladderViol (u.desc (segIndex sn)) ((off >>> 8).setWidth 8) w n f with
      | some viol => simp
      | none =>
        rw [test] at refused
        exact absurd refused Bool.false_ne_true

/-- An access leaves the violation registers alone, or latches itself. -/
theorem mmuTranslate_violation (u : Mmu) (sn : Byte) (off : Word) (w n f : Bool) :
    (mmuTranslate u sn off w n f).2.2.violation = u.violation ∨
      ∃ v viol suppress, v.violation = u.violation ∧ (mmuTranslate u sn off w n f).2.2 =
        latchViol v viol sn off w n (busStatus w f) suppress := by
  unfold mmuTranslate protectionLadder
  dsimp only
  split
  · exact Or.inl rfl
  · split
    · exact Or.inl rfl
    · cases ladderViol (u.desc (segIndex sn)) ((off >>> 8).setWidth 8) w n f with
      | some viol => exact Or.inr ⟨u, viol, true, rfl, rfl⟩
      | none =>
        dsimp only
        split
        · exact Or.inr ⟨u.setDesc (segIndex sn) ((u.desc (segIndex sn)).touch w), vtPww, false,
            rfl, rfl⟩
        · exact Or.inl rfl

/-! ## Calls -/

namespace MmuOp

/-- The reset of the violation type register. -/
def resetsVtr : MmuOp → Bool
  | .cmdWrite cmd _ => cmd == 0x11
  | _ => false

/-- The type bit that a command clears. -/
def clears : MmuOp → Byte
  | .cmdWrite cmd _ => if cmd = 0x13 then vtSww else if cmd = 0x14 then vtFatl else 0
  | _ => 0

end MmuOp

/-- A command keeps a captured violation but for the bit it clears. -/
theorem mmuCmdWrite_kept {u : Mmu} (captured : u.violCaptured = true) (cmd data : Byte)
    (other : cmd ≠ 0x11) :
    u.violation.Kept (mmuCmdWrite u cmd data).violation (MmuOp.cmdWrite cmd data).clears := by
  have spare : ∀ {v : Mmu}, v.violation = u.violation → u.violation.Kept v.violation
      (MmuOp.cmdWrite cmd data).clears := by
    intro v same
    rw [same]
    refine ⟨captured, rfl, rfl, rfl, fun i set _ => set⟩
  unfold mmuCmdWrite
  split
  case h_13 is =>
    obtain rfl : cmd = 0x13 := BitVec.eq_of_toNat_eq is
    exact .clear captured vtSww
  case h_14 is =>
    obtain rfl : cmd = 0x14 := BitVec.eq_of_toNat_eq is
    exact .clear captured vtFatl
  case h_12 is => exact absurd (BitVec.eq_of_toNat_eq is) other
  case h_15 | h_16 => exact spare (u.forSegs_violation fun v i => by simp [orAttr])
  case h_1 | h_2 | h_3 | h_17 => exact spare rfl
  all_goals exact spare (by simp)

/-- A command leaves an armed unit armed. -/
theorem mmuCmdWrite_armed {u : Mmu} (armed : u.violCaptured = false) (cmd data : Byte) :
    (mmuCmdWrite u cmd data).violCaptured = false := by
  have same : ∀ {v : Mmu}, v.violation = u.violation → v.violCaptured = false :=
    fun violation => (congrArg Violation.captured violation).trans armed
  unfold mmuCmdWrite
  split
  case h_12 => rfl
  case h_15 | h_16 => exact same (u.forSegs_violation fun v i => by simp [orAttr])
  case h_1 | h_2 | h_3 | h_13 | h_14 | h_17 => exact armed
  all_goals exact same (by simp)

theorem mmuCmdRead_violation (u : Mmu) (cmd : Byte) :
    (mmuCmdRead u cmd).2.violation = u.violation := by
  unfold mmuCmdRead
  split <;> simp

/-- A call that does not reset the VTR. -/
theorem MmuOp.apply_kept {u : Mmu} (captured : u.violCaptured = true) (op : MmuOp)
    (goesOn : op.resetsVtr = false) : u.violation.Kept (op.apply u).violation op.clears := by
  cases op with
  | cmdWrite cmd data => exact mmuCmdWrite_kept captured cmd data (by simpa [resetsVtr] using goesOn)
  | cmdRead cmd =>
    have same := mmuCmdRead_violation u cmd
    rw [apply, same]
    exact .refl captured
  | translate sn off w n f =>
    rw [apply]
    rcases mmuTranslate_violation u sn off w n f with same | ⟨v, viol, suppress, before, latches⟩
    · rw [same]
      exact .refl captured
    · rw [latches, ← before]
      exact .latchViol ((congrArg Violation.captured before).trans captured) _ _ _ _ _ _ _

/-- A call that captures is an access, and the record is its own. -/
theorem MmuOp.apply_captures {u : Mmu} (armed : u.violCaptured = false) (op : MmuOp)
    (captures : (op.apply u).violCaptured = true) :
    ∃ sn off w n f, op = .translate sn off w n f ∧ (op.apply u).violSn = sn ∧
      (op.apply u).violOff = off ∧ (op.apply u).bcsr = cycleStatus w n f := by
  cases op with
  | cmdWrite cmd data =>
    rw [apply, mmuCmdWrite_armed armed] at captures
    exact absurd captures Bool.false_ne_true
  | cmdRead cmd =>
    have same := congrArg Violation.captured (mmuCmdRead_violation u cmd)
    exact absurd (armed.symm.trans (same.symm.trans captures)) Bool.false_ne_true
  | translate sn off w n f =>
    rcases mmuTranslate_violation u sn off w n f with same | ⟨v, viol, suppress, before, latches⟩
    · have still := congrArg Violation.captured same
      exact absurd (armed.symm.trans (still.symm.trans captures)) Bool.false_ne_true
    · obtain ⟨bits, record⟩ := latchViol_first v viol sn off w n (busStatus w f) suppress
        ((congrArg Violation.captured before).trans armed)
      rw [apply, latches]
      exact ⟨sn, off, w, n, f, rfl, congrArg Violation.violSn record,
        congrArg Violation.violOff record, congrArg Violation.bcsr record⟩

/-! ## Runs -/

/-- The unit after a sequence of calls. -/
def mmuCalls (u : Mmu) (ops : List MmuOp) : Mmu := ops.foldl MmuOp.apply u

/-- The type bits that a sequence of calls clears. -/
def clearedBy (ops : List MmuOp) : Byte := ops.foldr (fun op bits => op.clears ||| bits) 0

theorem mmuCalls_append (u : Mmu) (ops more : List MmuOp) :
    mmuCalls u (ops ++ more) = mmuCalls (mmuCalls u ops) more := List.foldl_append

/-- A captured violation is kept along a run without a reset. -/
theorem mmuCalls_kept {u : Mmu} (captured : u.violCaptured = true) (ops : List MmuOp)
    (goesOn : ∀ op ∈ ops, op.resetsVtr = false) :
    u.violation.Kept (mmuCalls u ops).violation (clearedBy ops) := by
  induction ops generalizing u with
  | nil => exact .refl captured
  | cons op rest inductionHypothesis =>
    obtain ⟨first, others⟩ := List.forall_mem_cons.mp goesOn
    have step := op.apply_kept captured first
    exact step.trans (inductionHypothesis step.captured others)

/-- The record that the call at the end of `before` captures stays to the end of the
run. -/
structure RecordsFirst (u : Mmu) (before : List MmuOp) (op : MmuOp) (after : List MmuOp) :
    Prop where
  captured : (mmuCalls u (before ++ op :: after)).violCaptured = true
  record : ∃ sn off isWrite isNormal isFetch, op = .translate sn off isWrite isNormal isFetch ∧
    (mmuCalls u (before ++ op :: after)).violSn = sn ∧
    (mmuCalls u (before ++ op :: after)).violOff = off ∧
    (mmuCalls u (before ++ op :: after)).bcsr = cycleStatus isWrite isNormal isFetch

/-- Along a run of calls without a VTR reset, from any unit: the record of the first
violation stays that of the access which captured it, the type register keeps every bit
but those the commands 0x13 and 0x14 clear, the capture is never lost, and a refused
access leaves every descriptor as it was. -/
theorem mmuCalls_violation (u : Mmu) (ops : List MmuOp)
    (goesOn : ∀ op ∈ ops, op.resetsVtr = false) :
    (∀ before op after, ops = before ++ op :: after →
      (mmuCalls u before).violCaptured = false →
      (mmuCalls u (before ++ [op])).violCaptured = true → RecordsFirst u before op after) ∧
    (∀ before after, ops = before ++ after → (mmuCalls u before).violCaptured = true →
      (mmuCalls u before).violation.Kept (mmuCalls u ops).violation (clearedBy after)) ∧
    (∀ before sn off isWrite isNormal isFetch after,
      ops = before ++ .translate sn off isWrite isNormal isFetch :: after →
      (mmuTranslate (mmuCalls u before) sn off isWrite isNormal isFetch).2.1 = true →
      (mmuCalls u (before ++ [.translate sn off isWrite isNormal isFetch])).desc =
        (mmuCalls u before).desc) := by
  refine ⟨?_, ?_, ?_⟩
  · rintro before op after rfl armed captures
    have last : mmuCalls u (before ++ [op]) = op.apply (mmuCalls u before) := mmuCalls_append _ _ _
    rw [last] at captures
    obtain ⟨sn, off, w, n, f, access, violSn, violOff, bcsr⟩ := op.apply_captures armed captures
    have rest : ∀ x ∈ after, x.resetsVtr = false := fun x inside =>
      goesOn x (List.mem_append_right _ (List.mem_cons_of_mem _ inside))
    have kept := mmuCalls_kept captures after rest
    have whole : mmuCalls u (before ++ op :: after) =
        mmuCalls (op.apply (mmuCalls u before)) after := mmuCalls_append _ _ _
    rw [← whole] at kept
    exact ⟨kept.captured, sn, off, w, n, f, access, kept.violSn.trans violSn,
      kept.violOff.trans violOff, kept.bcsr.trans bcsr⟩
  · rintro before after rfl captured
    rw [mmuCalls_append]
    exact mmuCalls_kept captured after fun x inside => goesOn x (List.mem_append_right _ inside)
  · rintro before sn off w n f after rfl refused
    rw [mmuCalls_append]
    exact mmuTranslate_refused refused

/-- A translating unit whose segments are all read-only. -/
def readOnlyUnit : Mmu :=
  { (default : Mmu) with
    mode := modeMsen ||| modeTrns, desc := fun _ => { base := 0, limit := 0xFF, attr := aRd } }

/-- A user write to segment 3, a fetch, a system write to segment 4, and the reset of
the fatal flag. -/
def refusedWrites : List MmuOp :=
  [.translate 3 0x1234 true true false, .translate 3 0 false true true,
    .translate 4 0x0010 true false false, .cmdWrite 0x14 0]

theorem mmuCalls_violation_readOnly :
    RecordsFirst readOnlyUnit [] (.translate 3 0x1234 true true false) refusedWrites.tail :=
  (mmuCalls_violation readOnlyUnit refusedWrites (by decide)).1 [] _ _ rfl rfl (by decide)

end C900
