import C900.Cpu.Entry
import C900.Cpu.Privilege
import C900.Cpu.Repeat

/-!
# The stack pointers of the two modes

The processor keeps one pair of stack pointer registers in R14 and R15 and the
other in NSPSEG and NSPOFF. `Banked` says what that is for: a normal and a system
copy of each register, and the current mode, which picks the copies in view. A
change of mode touches no copy. `change_fcw` keeps to that on every change but
one, from normal mode straight to non-segmented system mode, and no run of the
machine makes that one.
-/

namespace C900

/-! ## Banked registers -/

/-- The normal and the system copies of R14 and R15, and the mode. -/
structure Banked where
  n14 : Word
  s14 : Word
  n15 : Word
  s15 : Word
  system : Bool
  seg : Bool
deriving DecidableEq

namespace Banked

variable (b : Banked)

/-- R14 in the current mode: the system copy in segmented system mode only. -/
def segment : Word := if b.system && b.seg then b.s14 else b.n14

/-- R15 in the current mode. -/
def offset : Word := if b.system then b.s15 else b.n15

/-- The copy of R14 that is out of view. -/
def savedSegment : Word := if b.system && b.seg then b.n14 else b.s14

/-- The copy of R15 that is out of view. -/
def savedOffset : Word := if b.system then b.n15 else b.s15

/-- The mode of a flag and control word. -/
def mode (nf : Word) : Banked := { b with system := nf &&& fcwSn != 0, seg := nf &&& fcwSeg != 0 }

/-- Write R14. -/
def putSegment (v : Word) : Banked :=
  if b.system && b.seg then { b with s14 := v } else { b with n14 := v }

/-- Write R15. -/
def putOffset (v : Word) : Banked := if b.system then { b with s15 := v } else { b with n15 := v }

/-- Write NSPSEG. -/
def saveSegment (v : Word) : Banked :=
  if b.system && b.seg then { b with n14 := v } else { b with s14 := v }

/-- Write NSPOFF. -/
def saveOffset (v : Word) : Banked := if b.system then { b with n15 := v } else { b with s15 := v }

/-- The processor shows the copies that the mode assigns to its registers. -/
structure Shows (c : Cpu) : Prop where
  system : c.sysmode = b.system
  seg : c.seg = b.seg
  r14 : c.rw 14 = b.segment
  r15 : c.rw 15 = b.offset
  nspseg : c.nspseg = b.savedSegment
  nspoff : c.nspoff = b.savedOffset

end Banked

/-- The copies that a processor holds. -/
def Cpu.banked (c : Cpu) : Banked where
  n14 := if c.sysmode && c.seg then c.nspseg else c.rw 14
  s14 := if c.sysmode && c.seg then c.rw 14 else c.nspseg
  n15 := if c.sysmode then c.nspoff else c.rw 15
  s15 := if c.sysmode then c.rw 15 else c.nspoff
  system := c.sysmode
  seg := c.seg

theorem Cpu.banked_shows (c : Cpu) : c.banked.Shows c := by
  refine ⟨rfl, rfl, ?_, ?_, ?_, ?_⟩
  all_goals
    cases system : c.sysmode <;> cases seg : c.seg <;>
      simp [Cpu.banked, Banked.segment, Banked.offset, Banked.savedSegment, Banked.savedOffset,
        system, seg]

/-! ## `change_fcw` -/

/-- A test of a single bit. -/
theorem bit_test (x bit : Word) (i : Nat) (single : bit = BitVec.twoPow 16 i) (bound : i < 16) :
    (x &&& bit != 0) = x.getLsbD i := by
  rw [single, BitVec.and_twoPow]
  cases x.getLsbD i with
  | true =>
    have some : BitVec.twoPow 16 i ≠ 0 := by
      intro none
      have bitAt := congrArg (·.getLsbD i) none
      simp [bound] at bitAt
    simpa using some
  | false => simp

/-- The tests of `change_fcw` compare single bits. -/
theorem bit_xor (x y bit : Word) (i : Nat) (single : bit = BitVec.twoPow 16 i) (bound : i < 16) :
    ((x ^^^ y) &&& bit != 0) = ((x &&& bit != 0) != (y &&& bit != 0)) := by
  have test := fun z => bit_test z bit i single bound
  rw [test, test, test, BitVec.getLsbD_xor]

/-- `change_fcw` in terms of the old and the new mode. -/
theorem Cpu.changeFcw_eq (c : Cpu) (nf : Word) :
    c.changeFcw nf =
      let system := nf &&& fcwSn != 0
      let seg := nf &&& fcwSeg != 0
      let moved := if system != c.sysmode then c.swapOffset else c
      { (if system && (!c.sysmode || seg != c.seg) then moved.swapSegment
          else if !system && c.sysmode && c.seg then moved.swapSegment else moved) with fcw := nf } := by
  have sn := bit_xor nf c.fcw fcwSn 14 (by decide) (by decide)
  have sg := bit_xor nf c.fcw fcwSeg 15 (by decide) (by decide)
  have isZero : ∀ x : Word, (x == 0) = !(x != 0) := by
    intro x
    rw [bne, Bool.not_not]
  dsimp only [Cpu.changeFcw, Cpu.sysmode, Cpu.seg]
  rw [sn, sg, isZero, isZero]
  rfl

/-- What the swaps do to the four registers. -/
theorem Cpu.swap_stack (c : Cpu) (offset segment : Bool) :
    let d := if offset then c.swapOffset else c
    let e := if segment then d.swapSegment else d
    e.rw 14 = (if segment then c.nspseg else c.rw 14) ∧
      e.nspseg = (if segment then c.rw 14 else c.nspseg) ∧
      e.rw 15 = (if offset then c.nspoff else c.rw 15) ∧
      e.nspoff = (if offset then c.rw 15 else c.nspoff) := by
  cases offset <;> cases segment <;> exact ⟨rfl, rfl, rfl, rfl⟩

/-- The swap of R14: `normal` is the normal copy, `own` the system copy. -/
theorem segment_swap {toSystem toSeg system seg : Bool}
    (direct : system = true ∨ toSystem = false ∨ toSeg = true) (normal own : Word) :
    (if toSystem && (!system || toSeg != seg) || !toSystem && system && seg then
        if system && seg then normal else own
      else if system && seg then own else normal) = if toSystem && toSeg then own else normal := by
  cases toSystem <;> cases toSeg <;> cases system <;> cases seg <;> simp at direct ⊢

/-- The swap of R15. -/
theorem offset_swap (toSystem system : Bool) (normal own : Word) :
    (if toSystem != system then if system then normal else own
      else if system then own else normal) = if toSystem then own else normal := by
  cases toSystem <;> cases system <;> rfl

/-- The new word takes its mode and leaves the copies, unless it goes from normal
mode straight to non-segmented system mode. -/
theorem Banked.Shows.changeFcw {b : Banked} {c : Cpu} (shows : b.Shows c) (nf : Word)
    (direct : c.sysmode = true ∨ (nf &&& fcwSn != 0) = false ∨ (nf &&& fcwSeg != 0) = true) :
    (b.mode nf).Shows (c.changeFcw nf) := by
  obtain ⟨system, seg, r14, r15, nspseg, nspoff⟩ := shows
  have merged : ∀ (p q : Bool) (x y : Cpu), (if p then x else if q then x else y) =
      if p || q then x else y := by
    intro p q x y
    cases p <;> cases q <;> rfl
  rw [c.changeFcw_eq nf]
  dsimp only
  rw [merged]
  obtain ⟨four, saved, five, savedFive⟩ := c.swap_stack ((nf &&& fcwSn != 0) != c.sysmode)
    ((nf &&& fcwSn != 0) && (!c.sysmode || (nf &&& fcwSeg != 0) != c.seg) ||
      !(nf &&& fcwSn != 0) && c.sysmode && c.seg)
  rw [r14, nspseg, system, seg] at four saved
  rw [r15, nspoff, system, seg] at five savedFive
  rw [system] at direct
  rw [system, seg]
  exact ⟨rfl, rfl, four.trans (segment_swap direct b.n14 b.s14),
    five.trans (offset_swap _ _ b.n15 b.s15), saved.trans (segment_swap direct b.s14 b.n14),
    savedFive.trans (offset_swap _ _ b.s15 b.n15)⟩

/-- The excluded change would put each copy of R14 in the other's place. -/
theorem Banked.Shows.changeFcw_exchanges {b : Banked} {c : Cpu} (shows : b.Shows c) (nf : Word)
    (user : c.sysmode = false) (toSystem : (nf &&& fcwSn != 0) = true)
    (nonseg : (nf &&& fcwSeg != 0) = false) :
    (c.changeFcw nf).rw 14 = b.s14 ∧ (c.changeFcw nf).nspseg = b.n14 := by
  obtain ⟨system, seg, r14, r15, nspseg, nspoff⟩ := shows
  have inUser : (b.system && b.seg) = false := by rw [← system, user, Bool.false_and]
  rw [Banked.segment, inUser, if_neg Bool.false_ne_true] at r14
  rw [Banked.savedSegment, inUser, if_neg Bool.false_ne_true] at nspseg
  rw [c.changeFcw_eq nf, toSystem, nonseg, user]
  exact ⟨nspseg, r14⟩

/-! ## Stack accesses -/

namespace Banked

variable (b : Banked)

/-- Move the system stack pointer by a word access; the segmented forms leave only
the segment bits in R14. -/
def moveSystem (n : Word) : Banked :=
  { b with s14 := if b.seg then b.s14 &&& segmentBits else b.s14, s15 := b.s15 + n }

theorem moveSystem_moveSystem (m n : Word) :
    (b.moveSystem m).moveSystem n = b.moveSystem (m + n) := by
  cases seg : b.seg <;>
    simp [moveSystem, seg, BitVec.and_assoc, BitVec.add_assoc]

end Banked

theorem Banked.Shows.moveSp {b : Banked} {c : Cpu} (shows : b.Shows c) (system : b.system = true)
    (n : Word) : (b.moveSystem n).Shows (c.moveSp n) := by
  obtain ⟨mode, seg, r14, r15, nspseg, nspoff⟩ := shows
  unfold Cpu.moveSp
  cases form : b.seg with
  | true =>
    rw [form] at seg
    rw [if_pos seg]
    refine ⟨mode, seg.trans form.symm, ?_, ?_, ?_, ?_⟩
    · show c.rw 14 &&& segmentBits = _
      rw [r14]
      simp [Banked.segment, Banked.moveSystem, system, form]
    · show c.rw 15 + n = _
      rw [r15]
      simp [Banked.offset, Banked.moveSystem, system]
    · exact nspseg.trans (by simp [Banked.savedSegment, Banked.moveSystem, system, form])
    · exact nspoff.trans (by simp [Banked.savedOffset, Banked.moveSystem, system])
  | false =>
    rw [form] at seg
    rw [if_neg (Bool.not_eq_true _ ▸ seg)]
    refine ⟨mode, seg.trans form.symm, ?_, ?_, ?_, ?_⟩
    · exact r14.trans (by simp [Banked.segment, Banked.moveSystem, form])
    · show c.rw 15 + n = _
      rw [r15]
      simp [Banked.offset, Banked.moveSystem, system]
    · exact nspseg.trans (by simp [Banked.savedSegment, Banked.moveSystem, form])
    · exact nspoff.trans (by simp [Banked.savedOffset, Banked.moveSystem, system])

theorem Banked.Shows.ofFault {b : Banked} {c d : Cpu} (shows : b.Shows c)
    (same : c.SameButFault d) : b.Shows d := by
  obtain ⟨fault, rfl⟩ := same
  exact ⟨shows.system, shows.seg, shows.r14, shows.r15, shows.nspseg, shows.nspoff⟩

/-! ## The changes of a run -/

/-- What a step does, as far as the copies and the mode go. -/
inductive StackOp where
  /-- A trap entry; `nf` is the word of the handler. -/
  | trap (nf : Word)
  /-- A new flag and control word, by LDCTL or LDPS. -/
  | load (nf : Word)
  /-- A return; `nf` is the popped word. -/
  | iret (nf : Word)
  /-- Any other instruction; the arguments are the new values of R14 and R15. -/
  | registers (r14 r15 : Word)
  /-- LDCTL to NSPSEG. -/
  | nspseg (v : Word)
  /-- LDCTL to NSPOFF. -/
  | nspoff (v : Word)

/-- The step on the banked registers. -/
def Banked.apply (b : Banked) : StackOp → Banked
  | .trap nf => ((b.mode (fcwSn ||| fcwSeg)).moveSystem (-8)).mode nf
  | .load nf => b.mode nf
  | .iret nf => (b.moveSystem (if b.seg then 8 else 6)).mode nf
  | .registers r14 r15 => (b.putSegment r14).putOffset r15
  | .nspseg v => b.saveSegment v
  | .nspoff v => b.saveOffset v

/-- The step that an instruction is. -/
def CtrlWord.stackOp (w : CtrlWord) (m : Machine) : StackOp :=
  let after := (execute w m).2.cpu
  let other := StackOp.registers (after.rw 14) (after.rw 15)
  if m.cpu.sysmode then
    match w.exec with
    | .iret => .iret after.fcw
    | .ldps => .load after.fcw
    | .ldctl =>
      let value := m.cpu.rw (nib2 (m.cpu.opcode 0))
      if m.cpu.opcode 0 &&& 0x08 == 0 then other
      else
        match (m.cpu.opcode 0 &&& 0x07).toNat with
        | 2 => .load value
        | 6 => .nspseg value
        | 7 => .nspoff value
        | _ => other
    | _ => other
  else other

/-- The runs: trap entries, instructions, and changes of the machine that leave
the registers, the modes and the saved pointers alone. -/
inductive StackRun (m : Machine) : List StackOp → Machine → Prop where
  | start : StackRun m [] m
  | trap {ops : List StackOp} {d : Machine} (run : StackRun m ops d) (source : TrapSource) :
      StackRun m (ops ++ [.trap (enterTrap source d).2.cpu.fcw]) (enterTrap source d).2
  | execute {ops : List StackOp} {d : Machine} (run : StackRun m ops d) (w : CtrlWord)
      (decoded : w ∈ pool) : StackRun m (ops ++ [w.stackOp d]) (execute w d).2
  | still {ops : List StackOp} {d e : Machine} (run : StackRun m ops d) (registers : e.cpu.R = d.cpu.R)
      (fcw : e.cpu.fcw = d.cpu.fcw) (nspseg : e.cpu.nspseg = d.cpu.nspseg)
      (nspoff : e.cpu.nspoff = d.cpu.nspoff) : StackRun m ops e

/-! ## Steps -/

/-- The mode that a trap entry pushes in. -/
theorem Banked.mode_entry (b : Banked) (fcw : Word) :
    b.mode (fcw ||| fcwSn ||| fcwSeg) = b.mode (fcwSn ||| fcwSeg) := by
  have system := bit_test (fcw ||| fcwSn ||| fcwSeg) fcwSn 14 (by decide) (by decide)
  have seg := bit_test (fcw ||| fcwSn ||| fcwSeg) fcwSeg 15 (by decide) (by decide)
  have sn : fcwSn.getLsbD 14 = true := by decide
  have sg : fcwSeg.getLsbD 15 = true := by decide
  unfold Banked.mode
  rw [system, seg]
  simp only [BitVec.getLsbD_or, sn, sg, Bool.or_true, Bool.true_or]
  rfl

theorem Banked.Shows.of_fields {b : Banked} {c d : Cpu} (shows : b.Shows c) (registers : d.R = c.R)
    (fcw : d.fcw = c.fcw) (nspseg : d.nspseg = c.nspseg) (nspoff : d.nspoff = c.nspoff) :
    b.Shows d := by
  refine ⟨?_, ?_, ?_, ?_, ?_, ?_⟩
  · rw [Cpu.sysmode, fcw, ← shows.system, Cpu.sysmode]
  · rw [Cpu.seg, fcw, ← shows.seg, Cpu.seg]
  · rw [Cpu.rw, registers, ← shows.r14, Cpu.rw]
  · rw [Cpu.rw, registers, ← shows.r15, Cpu.rw]
  · rw [nspseg, shows.nspseg]
  · rw [nspoff, shows.nspoff]

/-- A jump with a new status, in system mode. -/
theorem Banked.Shows.jump {b : Banked} {c : Cpu} (shows : b.Shows c) (system : b.system = true)
    (pc : Long) (nf : Word) : (b.mode nf).Shows ({ c with pc := pc }.changeFcw nf) := by
  have moved : b.Shows { c with pc := pc } := shows.of_fields rfl rfl rfl rfl
  exact moved.changeFcw nf (.inl (shows.system.trans system))

/-- Entering pushes nothing yet: the copies stay and the mode changes. -/
theorem enter_shows {b : Banked} {c : Cpu} (shows : b.Shows c) (source : TrapSource) :
    (b.mode (fcwSn ||| fcwSeg)).Shows (c.enter source) := by
  have toSeg : ((c.fcw ||| fcwSn ||| fcwSeg) &&& fcwSeg != 0) = true :=
    congrArg Banked.seg (b.mode_entry c.fcw)
  have entered := shows.changeFcw (c.fcw ||| fcwSn ||| fcwSeg) (.inr (.inr toSeg))
  rw [b.mode_entry] at entered
  exact entered.of_fields rfl rfl rfl rfl

theorem pushFrame_shows {b : Banked} {m : Machine} (shows : b.Shows m.cpu)
    (system : b.system = true) (seg : b.seg = true) (oldfcw tag : Word) :
    (b.moveSystem (-8)).Shows (pushFrame oldfcw tag m).2.cpu := by
  have form : m.cpu.seg = true := shows.seg.trans seg
  let frame := addrSub (m.cpu.addrFromReg m.cpu.spReg) 4
  let reserved : Machine := { m with cpu := m.cpu.addrToReg m.cpu.spReg frame }
  have first : (b.moveSystem (-4)).Shows reserved.cpu := by
    show (b.moveSystem (-4)).Shows (m.cpu.addrToReg _ _)
    rw [m.cpu.reserveFrame form]
    exact shows.moveSp system _
  let segpc := makeSeg m.cpu.pc
  let stored := (memW16 (addrAdd frame 2) (segpc.setWidth 16)
    (memW16 frame ((segpc >>> 16).setWidth 16) reserved).2).2
  have second : (b.moveSystem (-4)).Shows stored.cpu :=
    (first.ofFault (memW16_cpu _ reserved _)).ofFault (memW16_cpu _ _ _)
  have third := (second.moveSp system (-2)).ofFault (pushWord_cpu oldfcw stored)
  have fourth := (third.moveSp system (-2)).ofFault (pushWord_cpu tag (pushWord oldfcw stored).2)
  rw [Banked.moveSystem_moveSystem, Banked.moveSystem_moveSystem,
    show (-4 + (-2 + -2) : Word) = -8 by decide] at fourth
  exact fourth

/-- Loading the handler's status changes the mode only. -/
theorem loadHandler_shows {b : Banked} {m : Machine} (shows : b.Shows m.cpu)
    (system : b.system = true) (source : TrapSource) (c : Cpu) :
    (b.mode (loadHandler source c m).2.cpu.fcw).Shows (loadHandler source c m).2.cpu := by
  let first := memR16 (c.slotFcw source) m
  let second := memR16 (c.slotSegment source) first.2
  let third := memR16 (c.slotOffset source) second.2
  have before : b.Shows third.2.cpu :=
    ((shows.ofFault (memR16_cpu _ m)).ofFault (memR16_cpu _ first.2)).ofFault
      (memR16_cpu _ second.2)
  exact (before.jump system (pcFromWords second.1 third.1) first.1).of_fields rfl rfl rfl rfl

/-- A trap entry. -/
theorem enterTrap_shows {b : Banked} {m : Machine} (source : TrapSource)
    (shows : b.Shows m.cpu) :
    (b.apply (.trap (enterTrap source m).2.cpu.fcw)).Shows (enterTrap source m).2.cpu := by
  rw [enterTrap_apply]
  have entered := enter_shows shows source
  have pushed := pushFrame_shows (m := { m with cpu := m.cpu.enter source }) entered rfl rfl
    m.cpu.fcw source.tag
  exact loadHandler_shows pushed rfl source m.cpu

/-- A pop. -/
theorem popWord_shows {b : Banked} {m : Machine} (shows : b.Shows m.cpu)
    (system : b.system = true) : (b.moveSystem 2).Shows (popWord m).2.cpu :=
  (shows.moveSp system 2).ofFault (popWord_cpu m)

/-- A return. -/
theorem execIret_shows {b : Banked} {m : Machine} (shows : b.Shows m.cpu)
    (system : b.system = true) :
    (b.apply (.iret (execIret m).2.cpu.fcw)).Shows (execIret m).2.cpu := by
  have popped : (b.moveSystem 4).Shows (popWord (popWord m).2).2.cpu := by
    have twice := popWord_shows (popWord_shows shows system) system
    rwa [Banked.moveSystem_moveSystem, show (2 + 2 : Word) = 4 by decide] at twice
  cases form : b.seg with
  | true =>
    have all := popWord_shows (popWord_shows popped system) system
    rw [Banked.moveSystem_moveSystem, Banked.moveSystem_moveSystem,
      show (4 + (2 + 2) : Word) = 8 by decide] at all
    rw [execIret_seg m (shows.system.trans system) (popped.seg.trans form)]
    simp only [Banked.apply, form, if_true]
    exact all.jump system _ _
  | false =>
    have all := popWord_shows popped system
    rw [Banked.moveSystem_moveSystem, show (4 + 2 : Word) = 6 by decide] at all
    rw [execIret_nonseg m (shows.system.trans system) (popped.seg.trans form)]
    simp only [Banked.apply, form, Bool.false_eq_true, if_false]
    exact all.jump system _ _

/-- LDPS. -/
theorem execLdps_shows {b : Banked} {m : Machine} (shows : b.Shows m.cpu)
    (system : b.system = true) (w : CtrlWord) :
    (b.mode (execLdps w m).2.cpu.fcw).Shows (execLdps w m).2.cpu := by
  obtain ⟨fault, pc, nf, jumped⟩ := execLdps_jump m (shows.system.trans system) w
  rw [jumped]
  exact (shows.ofFault ⟨fault, rfl⟩).jump system pc nf

/-! ## Instructions that change no mode -/

/-- The modes and the saved pointers are what they were. -/
structure Cpu.SavesStack (c d : Cpu) : Prop where
  sysmode : d.sysmode = c.sysmode
  seg : d.seg = c.seg
  nspseg : d.nspseg = c.nspseg
  nspoff : d.nspoff = c.nspoff

theorem Cpu.SavesStack.ofControl {c d : Cpu} (same : d.control true = c.control true) :
    c.SavesStack d :=
  ⟨Cpu.sysmode_of_control same, Cpu.seg_of_control same, congrArg ControlState.nspseg same,
    congrArg ControlState.nspoff same⟩

/-- A flag and control word with the same mode bits. -/
theorem Cpu.SavesStack.ofFcw (c : Cpu) {fcw : Word} (bit14 : fcw.getLsbD 14 = c.fcw.getLsbD 14)
    (bit15 : fcw.getLsbD 15 = c.fcw.getLsbD 15) : c.SavesStack { c with fcw := fcw } := by
  have sn := fun x => bit_test x fcwSn 14 (by decide) (by decide)
  have sg := fun x => bit_test x fcwSeg 15 (by decide) (by decide)
  refine ⟨?_, ?_, rfl, rfl⟩
  · rw [Cpu.sysmode, Cpu.sysmode, sn, sn, bit14]
  · rw [Cpu.seg, Cpu.seg, sg, sg, bit15]

theorem Cpu.SavesStack.trans {c d e : Cpu} (first : c.SavesStack d) (second : d.SavesStack e) :
    c.SavesStack e :=
  ⟨second.sysmode.trans first.sysmode, second.seg.trans first.seg,
    second.nspseg.trans first.nspseg, second.nspoff.trans first.nspoff⟩

/-- A program that leaves the modes and the saved pointers alone. -/
def SavingStack {α : Type} (x : Exec α) : Prop := ∀ m : Machine, m.cpu.SavesStack (x m).2.cpu

namespace SavingStack

theorem get : SavingStack getCpu := fun _ => ⟨rfl, rfl, rfl, rfl⟩

theorem bind {α β : Type} {x : Exec α} {f : α → Exec β} (first : SavingStack x)
    (rest : ∀ a, SavingStack (f a)) : SavingStack (x >>= f) :=
  fun m => (first m).trans (rest _ _)

theorem ite {α : Type} {p : Prop} [Decidable p] {x y : Exec α} (yes : SavingStack x)
    (no : SavingStack y) : SavingStack (if p then x else y) := by
  split
  · exact yes
  · exact no

theorem modify (f : Cpu → Cpu) (keeps : ∀ c : Cpu, c.SavesStack (f c)) :
    SavingStack (modifyCpu f) := fun m => keeps m.cpu

theorem plain {rept : Bool} {α : Type} {x : Exec α} (program : PlainProgram rept x) :
    SavingStack x := by
  refine fun m => .ofControl ?_
  refine program.preserves (fun s t => t.cpu.control true = s.cpu.control true) (fun _ => rfl)
    (fun _ _ _ first second => second.trans first) ?_ m
  intro β y operation s
  cases operation with
  | modify f keeps => exact Cpu.control_hidden (keeps s.cpu)
  | _ => rfl

theorem ioWrite (port data : Word) (isByte special : Bool) :
    SavingStack (ioWriteCycle port data isByte special) := fun m => by
  rw [ioWriteCycle_cpu]
  exact ⟨rfl, rfl, rfl, rfl⟩

theorem ioRead (port : Word) (isByte special : Bool) :
    SavingStack (ioReadCycle port isByte special) := fun m => by
  rw [ioReadCycle_cpu]
  exact ⟨rfl, rfl, rfl, rfl⟩

/-- In normal mode a guarded block only requests a trap. -/
theorem guarded {body : Exec Unit} (inSystem : SavingStack body) : SavingStack (privileged body) := by
  refine bind get fun c => ite inSystem ?_
  exact modify _ fun d => .ofControl (d.request_control _)

end SavingStack

/-- The flag operations of the decoder spare the mode bits. -/
theorem pool_fcwMask : ∀ w ∈ pool, w.exec = .fcwOp →
    w.fcwMask.getLsbD 14 = false ∧ w.fcwMask.getLsbD 15 = false := by
  decide +kernel

/-- A privileged flag operation leaves the modes alone. -/
theorem Cpu.fcwOperation_savesStack (c : Cpu) {w : CtrlWord} (guard : w.fcwPriv = true)
    (spares : w.fcwMask.getLsbD 14 = false ∧ w.fcwMask.getLsbD 15 = false) :
    c.SavesStack (c.fcwOperation w) := by
  have kind : w.fcwOp = .set ∨ w.fcwOp = .clear := by
    unfold CtrlWord.fcwPriv at guard
    simp only [Bool.and_eq_true, Bool.or_eq_true, beq_iff_eq] at guard
    exact guard.1
  obtain ⟨bit14, bit15⟩ := spares
  unfold Cpu.fcwOperation
  rcases kind with set | clear
  · rw [set]
    refine .ofFcw c ?_ ?_
    · rw [BitVec.getLsbD_or, bit14, Bool.or_false]
    · rw [BitVec.getLsbD_or, bit15, Bool.or_false]
  · rw [clear]
    refine .ofFcw c ?_ ?_
    · rw [BitVec.getLsbD_and, BitVec.getLsbD_not, bit14, Bool.not_false]
      simp
    · rw [BitVec.getLsbD_and, BitVec.getLsbD_not, bit15, Bool.not_false]
      simp

theorem Cpu.multiProc_savesStack (c : Cpu) (w : CtrlWord) : c.SavesStack (c.multiProc w) := by
  unfold Cpu.multiProc
  split
  · refine .ofFcw c ?_ ?_
    · rw [BitVec.getLsbD_or, show fS.getLsbD 14 = false by decide, Bool.or_false]
    · rw [BitVec.getLsbD_or, show fS.getLsbD 15 = false by decide, Bool.or_false]
  · refine .ofFcw c ?_ ?_
    · simp [fS, fZ]
    · simp [fS, fZ]
  · exact ⟨rfl, rfl, rfl, rfl⟩

theorem Cpu.wb_savesStack (c : Cpu) (r : Reg) (v : Byte) : c.SavesStack (c.wb r v) :=
  .ofControl (c.wb_control r v)

/-- Input and output instructions reach the registers through the data only. -/
theorem execIo_savesStack (w : CtrlWord) : SavingStack (execIo w) := by
  refine .guarded (.bind .get fun c => .ite (.ioWrite _ _ _ _) (.bind (.ioRead _ _ _) fun v => ?_))
  refine .modify _ fun d => ?_
  split
  · exact d.wb_savesStack _ _
  · exact ⟨rfl, rfl, rfl, rfl⟩

theorem execBlockIo_savesStack (w : CtrlWord) : SavingStack (execBlockIo w) := by
  have finish : SavingStack (modifyCpu fun c =>
      (c.addToAddrReg (c.ioAddrReg w) w.delta).endTransfer w) := by
    refine .modify _ fun d => ?_
    have kept : ((d.addToAddrReg (d.ioAddrReg w) w.delta).endTransfer w).control w.blockRept =
        d.control w.blockRept := by
      rw [Cpu.endTransfer_control, Cpu.addToAddrReg_control]
    exact .ofControl (Cpu.control_hidden kept)
  refine .guarded (.bind .get fun c => .ite ?_ ?_)
  · exact .bind (.plain (memReadElement_built w _ : PlainProgram false _)) fun _ =>
      .bind (.ioWrite _ _ _ _) fun _ => finish
  · exact .bind (.ioRead _ _ _) fun _ =>
      .bind (.plain (memWriteElement_built w _ _ : PlainProgram false _)) fun _ => finish

/-- All instructions but those that load a status or a control register. -/
theorem execute_savesStack {w : CtrlWord} (decoded : w ∈ pool) (notIret : w.exec ≠ .iret)
    (notLdps : w.exec ≠ .ldps) (notLdctl : w.exec ≠ .ldctl) : SavingStack (execute w) := by
  cases guard : w.isPrivileged with
  | false => exact .plain (execute_plain decoded guard)
  | true =>
    unfold CtrlWord.isPrivileged at guard
    unfold execute
    cases kind : w.exec with
    | io => exact execIo_savesStack w
    | blockIo => exact execBlockIo_savesStack w
    | fcwOp =>
      simp only [kind] at guard
      simp only [execFcwOp, guard, if_true]
      exact .guarded (.modify _ fun c =>
        c.fcwOperation_savesStack guard (pool_fcwMask w decoded kind))
    | multiProc =>
      exact .guarded (.modify _ fun c => c.multiProc_savesStack w)
    | halt => exact .guarded (.modify _ fun c => ⟨rfl, rfl, rfl, rfl⟩)
    | iret => exact absurd kind notIret
    | ldps => exact absurd kind notLdps
    | ldctl => exact absurd kind notLdctl
    | _ => simp [kind] at guard

/-! ## Runs -/

/-- An instruction that changes no mode. -/
theorem Banked.Shows.registers {b : Banked} {c d : Cpu} (shows : b.Shows c)
    (saves : c.SavesStack d) : (b.apply (.registers (d.rw 14) (d.rw 15))).Shows d := by
  obtain ⟨system, seg, _, _, nspseg, nspoff⟩ := shows
  obtain ⟨mode, form, savedSegment, savedOffset⟩ := saves
  have system := mode.trans system
  have seg := form.trans seg
  have nspseg := savedSegment.trans nspseg
  have nspoff := savedOffset.trans nspoff
  have kept : ((b.putSegment (d.rw 14)).putOffset (d.rw 15)).system = b.system ∧
      ((b.putSegment (d.rw 14)).putOffset (d.rw 15)).seg = b.seg := by
    unfold Banked.putOffset Banked.putSegment
    cases b.system <;> cases b.seg <;> exact ⟨rfl, rfl⟩
  refine ⟨system.trans kept.1.symm, seg.trans kept.2.symm, ?_, ?_, ?_, ?_⟩
  all_goals
    cases inSystem : b.system <;> cases inSeg : b.seg <;>
      simp [Banked.apply, Banked.putSegment, Banked.putOffset, Banked.segment, Banked.offset,
        Banked.savedSegment, Banked.savedOffset, nspseg, nspoff, inSystem, inSeg]

/-- LDCTL to NSPSEG. -/
theorem Banked.Shows.saveSegment {b : Banked} {c : Cpu} (shows : b.Shows c) (v : Word) :
    (b.saveSegment v).Shows { c with nspseg := v } := by
  obtain ⟨system, seg, r14, r15, nspseg, nspoff⟩ := shows
  have kept : (b.saveSegment v).system = b.system ∧ (b.saveSegment v).seg = b.seg := by
    unfold Banked.saveSegment
    split <;> exact ⟨rfl, rfl⟩
  refine ⟨system.trans kept.1.symm, seg.trans kept.2.symm, r14.trans ?_, r15.trans ?_, ?_,
    nspoff.trans ?_⟩
  all_goals
    cases inSystem : b.system <;> cases inSeg : b.seg <;>
      simp [Banked.saveSegment, Banked.segment, Banked.offset, Banked.savedSegment,
        Banked.savedOffset, inSystem, inSeg]

/-- LDCTL to NSPOFF. -/
theorem Banked.Shows.saveOffset {b : Banked} {c : Cpu} (shows : b.Shows c) (v : Word) :
    (b.saveOffset v).Shows { c with nspoff := v } := by
  obtain ⟨system, seg, r14, r15, nspseg, nspoff⟩ := shows
  have kept : (b.saveOffset v).system = b.system ∧ (b.saveOffset v).seg = b.seg := by
    unfold Banked.saveOffset
    split <;> exact ⟨rfl, rfl⟩
  refine ⟨system.trans kept.1.symm, seg.trans kept.2.symm, r14.trans ?_, r15.trans ?_,
    nspseg.trans ?_, ?_⟩
  all_goals
    cases inSystem : b.system <;> cases inSeg : b.seg <;>
      simp [Banked.saveOffset, Banked.segment, Banked.offset, Banked.savedSegment,
        Banked.savedOffset, inSystem, inSeg]

/-- LDCTL to a control register without a stack pointer. -/
theorem Cpu.ldctlWrite_savesStack (c : Cpu) (notFcw : (c.opcode 0 &&& 0x07).toNat ≠ 2)
    (notSegment : (c.opcode 0 &&& 0x07).toNat ≠ 6) (notOffset : (c.opcode 0 &&& 0x07).toNat ≠ 7) :
    c.SavesStack c.ldctlWrite := by
  unfold Cpu.ldctlWrite
  dsimp only
  split
  case h_1 fcw => exact absurd fcw notFcw
  case h_5 segment => exact absurd segment notSegment
  case h_6 offset => exact absurd offset notOffset
  all_goals exact ⟨rfl, rfl, rfl, rfl⟩

/-- LDCTL, by its control register. -/
theorem execLdctl_shows {b : Banked} {m : Machine} (shows : b.Shows m.cpu)
    (system : m.cpu.sysmode = true) {w : CtrlWord} (kind : w.exec = .ldctl) :
    (b.apply (w.stackOp m)).Shows (execute w m).2.cpu := by
  have run : execute w m = execLdctl m := by rw [execute, kind]
  have body : (execLdctl m).2.cpu =
      if m.cpu.opcode 0 &&& 0x08 == 0 then m.cpu.ldctlRead else m.cpu.ldctlWrite := by
    rw [execLdctl, privileged_system _ m system]
    rfl
  unfold CtrlWord.stackOp
  simp only [system, if_true, kind, run, body]
  split
  · exact shows.registers ⟨rfl, rfl, rfl, rfl⟩
  · by_cases fcw : (m.cpu.opcode 0 &&& 0x07).toNat = 2
    · simp only [Cpu.ldctlWrite, fcw]
      exact shows.changeFcw _ (.inl system)
    by_cases segment : (m.cpu.opcode 0 &&& 0x07).toNat = 6
    · simp only [Cpu.ldctlWrite, segment]
      exact shows.saveSegment _
    by_cases offset : (m.cpu.opcode 0 &&& 0x07).toNat = 7
    · simp only [Cpu.ldctlWrite, offset]
      exact shows.saveOffset _
    have saves := m.cpu.ldctlWrite_savesStack fcw segment offset
    split
    case h_1 here => exact absurd here fcw
    case h_2 here => exact absurd here segment
    case h_3 here => exact absurd here offset
    case h_4 => exact shows.registers saves

/-- Any instruction. -/
theorem execute_shows {b : Banked} {m : Machine} (shows : b.Shows m.cpu) {w : CtrlWord}
    (decoded : w ∈ pool) : (b.apply (w.stackOp m)).Shows (execute w m).2.cpu := by
  cases system : m.cpu.sysmode with
  | false =>
    have saves : m.cpu.SavesStack (execute w m).2.cpu :=
      .ofControl ((execute_built decoded).confined m system).control
    simp only [CtrlWord.stackOp, system, Bool.false_eq_true, if_false]
    exact shows.registers saves
  | true =>
    cases kind : w.exec with
    | iret =>
      have run : execute w m = execIret m := by rw [execute, kind]
      simp only [CtrlWord.stackOp, system, if_true, kind, run]
      exact execIret_shows shows (shows.system.symm.trans system)
    | ldps =>
      have run : execute w m = execLdps w m := by rw [execute, kind]
      simp only [CtrlWord.stackOp, system, if_true, kind, run]
      exact execLdps_shows shows (shows.system.symm.trans system) w
    | ldctl => exact execLdctl_shows shows system kind
    | _ =>
      simp only [CtrlWord.stackOp, system, if_true, kind]
      exact shows.registers (execute_savesStack decoded (by simp [kind]) (by simp [kind])
        (by simp [kind]) m)

/-- Along every run the live R14 and R15 and the saved NSPSEG and NSPOFF are the
copies that the banked registers assign to the current mode: trap entries move the
system copy by the frame, returns move it back, and a change of mode moves
nothing. -/
theorem stackRun_shows {m d : Machine} {ops : List StackOp} (run : StackRun m ops d) :
    (ops.foldl Banked.apply m.cpu.banked).Shows d.cpu := by
  induction run with
  | start => exact m.cpu.banked_shows
  | trap run source inductionHypothesis =>
    rw [List.foldl_append]
    exact enterTrap_shows source inductionHypothesis
  | execute run w decoded inductionHypothesis =>
    rw [List.foldl_append]
    exact execute_shows inductionHypothesis decoded
  | still run registers fcw nspseg nspoff inductionHypothesis =>
    exact inductionHypothesis.of_fields registers fcw nspseg nspoff

/-- A non-maskable interrupt on a machine that has just been made. -/
theorem stackRun_shows_nmi :
    ([StackOp.trap (enterTrap ⟨irqNmi, 0x14, 0⟩ default).2.cpu.fcw].foldl Banked.apply
      (default : Machine).cpu.banked).Shows (enterTrap ⟨irqNmi, 0x14, 0⟩ default).2.cpu :=
  stackRun_shows (StackRun.start.trap ⟨irqNmi, 0x14, 0⟩)

/-! ## Processor steps are runs -/

/-- The registers, the modes and the saved pointers are what they were. -/
structure Cpu.SameStack (c d : Cpu) : Prop where
  registers : d.R = c.R
  fcw : d.fcw = c.fcw
  nspseg : d.nspseg = c.nspseg
  nspoff : d.nspoff = c.nspoff

theorem Cpu.SameStack.trans {c d e : Cpu} (first : c.SameStack d) (second : d.SameStack e) :
    c.SameStack e :=
  ⟨second.registers.trans first.registers, second.fcw.trans first.fcw,
    second.nspseg.trans first.nspseg, second.nspoff.trans first.nspoff⟩

theorem StackRun.still_of {m d e : Machine} {ops : List StackOp} (run : StackRun m ops d)
    (same : d.cpu.SameStack e.cpu) : StackRun m ops e :=
  run.still same.registers same.fcw same.nspseg same.nspoff

theorem Cpu.requestIf_sameStack (c : Cpu) (p : Bool) (bits : Byte) :
    c.SameStack (if p then c.request bits else c) := by
  split
  · exact ⟨rfl, rfl, rfl, rfl⟩
  · exact ⟨rfl, rfl, rfl, rfl⟩

/-- Sampling the lines only adds requests. -/
theorem Cpu.sampleLines_sameStack (c : Cpu) : c.SameStack c.sampleLines := by
  unfold Cpu.sampleLines
  refine .trans ?_ (Cpu.requestIf_sameStack _ _ _)
  refine .trans ?_ (Cpu.requestIf_sameStack _ _ _)
  exact .trans (c.requestIf_sameStack _ _) (Cpu.requestIf_sameStack _ _ _)

theorem fetchOperands_sameStack (slots : List (Fin 6)) (p : Long) (m : Machine) :
    m.cpu.SameStack (fetchOperands slots p m).2.cpu := by
  induction slots generalizing p m with
  | nil => exact ⟨rfl, rfl, rfl, rfl⟩
  | cons i rest inductionHypothesis =>
    let fetched := ifetch16 (addrAdd p 2) m
    let noted : Machine := { fetched.2 with cpu := fetched.2.cpu.setOpcode i fetched.1 }
    have first : m.cpu.SameStack noted.cpu := ⟨rfl, rfl, rfl, rfl⟩
    exact first.trans (inductionHypothesis (addrAdd p 2) noted)

theorem fetchDecode_sameStack (m : Machine) : m.cpu.SameStack (fetchDecode m).2.cpu := by
  let first : Machine := { m with cpu := m.cpu.beginFetch }
  let fetched := ifetch16 first.cpu.pc first
  let noted : Machine := { fetched.2 with cpu := { fetched.2.cpu.setOpcode 0 fetched.1 with
    segW1 := decodeSegAddrW1 fetched.1 first.cpu.seg
    segW2 := decodeSegAddrW2 fetched.1 first.cpu.seg } }
  have before : m.cpu.SameStack noted.cpu := ⟨rfl, rfl, rfl, rfl⟩
  have operands := fetchOperands_sameStack
    ([1, 2, 3, 4, 5].take (decodeLength fetched.1 first.cpu.seg - 1)) first.cpu.pc noted
  exact (before.trans operands).trans ⟨rfl, rfl, rfl, rfl⟩

/-- One element with its bookkeeping. -/
theorem StackRun.nextElement {m d : Machine} {ops : List StackOp} (run : StackRun m ops d)
    {w : CtrlWord} (decoded : w ∈ pool) : ∃ more, StackRun m more (d.nextElement w) := by
  have cleared : StackRun m ops d.clearRepeat := run.still_of ⟨rfl, rfl, rfl, rfl⟩
  obtain ⟨irqReq, counted⟩ := executeElement_cpu w d.clearRepeat
  have same : (C900.execute w d.clearRepeat).2.cpu.SameStack (d.nextElement w).cpu := by
    unfold Machine.nextElement
    rw [counted]
    exact ⟨rfl, rfl, rfl, rfl⟩
  exact ⟨_, (cleared.execute w decoded).still_of same⟩

/-- A block instruction, element by element. -/
theorem StackRun.elements {m d : Machine} {ops : List StackOp} (run : StackRun m ops d)
    {w : CtrlWord} (decoded : w ∈ pool) (k : Nat) : ∃ more, StackRun m more (elementRun w d k) := by
  induction k with
  | zero => exact ⟨ops, run⟩
  | succ k inductionHypothesis =>
    obtain ⟨some, before⟩ := inductionHypothesis
    rw [elementRun_succ]
    exact before.nextElement decoded

/-- The end of an instruction changes the program counter and the flags of the step. -/
theorem Machine.leave_sameStack (m : Machine) (pc : Long) : m.cpu.SameStack (m.leave pc).cpu := by
  unfold Machine.leave
  split_ifs <;> exact ⟨rfl, rfl, rfl, rfl⟩

/-- Every step of the processor is a run, on a machine without a system call hook. -/
theorem cpuStep_stackRun {m d : Machine} (fuel : Nat) (returns : cpuStep none fuel m = some d) :
    ∃ ops, StackRun m ops d := by
  have begun : StackRun m [] m.beginStep := StackRun.start.still_of ⟨rfl, rfl, rfl, rfl⟩
  have atBoundary : StackRun m [] m.beginStep.sampled :=
    begun.still_of m.beginStep.cpu.sampleLines_sameStack
  unfold cpuStep at returns
  cases taken : m.beginStep.sampled.cpu.trapSource with
  | some source =>
    rw [handleInterrupts_trap taken (.inl rfl)] at returns
    obtain rfl := Option.some.inj returns
    exact ⟨_, atBoundary.trap source⟩
  | none =>
    rw [handleInterrupts_idle none taken] at returns
    dsimp only at returns
    split at returns
    · obtain rfl := Option.some.inj returns
      exact ⟨_, atBoundary⟩
    have fetched := atBoundary.still_of (fetchDecode_sameStack m.beginStep.sampled)
    unfold stepInstruction at returns
    rcases result : fetchDecode m.beginStep.sampled with ⟨decoded, after⟩
    rw [result] at returns fetched
    cases decoded with
    | none =>
      obtain rfl := Option.some.inj returns
      exact ⟨_, fetched.still_of ⟨rfl, rfl, rfl, rfl⟩⟩
    | some w =>
      have fresh : after.cpu.repeatPending = false := by
        have here := fetchDecode_fresh m.beginStep.sampled
        rwa [result] at here
      obtain ⟨k, -, -, left⟩ := (runInstruction_eq_some_iff w fuel after d fresh).mp returns
      have started : StackRun m [] after.started := fetched.still_of ⟨rfl, rfl, rfl, rfl⟩
      obtain ⟨ops, run⟩ := started.elements (fetchDecode_pool result) (k + 1)
      rw [left]
      exact ⟨ops, run.still_of (Machine.leave_sameStack _ _)⟩

end C900
