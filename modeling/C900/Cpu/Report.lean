import C900.Cpu.Fetch
import C900.Cpu.Latch
import C900.Cpu.Return

/-!
# Which violations are reported

A memory access that the unit refuses sets the fault flag, and `cpu_step` turns the
flag into a segment trap request behind every instruction it executes. Two ways out
of the step pass that test by: the entry of a trap, and an encoding that does not
decode. On these ways a violation leaves no request.
-/

namespace C900

/-! ## The ways of a step -/

/-- The machine that a step works on: the lines are sampled, and a system call has
had its service from outside. -/
def Machine.atBoundary (hook : SysHook) (m : Machine) : Machine :=
  match m.beginStep.sampled.cpu.trapSource with
  | some source => m.atTrap hook source
  | none => m.beginStep.sampled

section

variable {hook : SysHook} {m : Machine}

theorem atBoundary_trap {source : TrapSource}
    (taken : m.beginStep.sampled.cpu.trapSource = some source) :
    m.atBoundary hook = m.atTrap hook source := by
  rw [Machine.atBoundary, taken]

theorem atBoundary_idle (idle : m.beginStep.sampled.cpu.trapSource = none) :
    m.atBoundary hook = m.beginStep.sampled := by
  rw [Machine.atBoundary, idle]

/-- A step of a halted processor. -/
theorem cpuStep_halted (idle : m.beginStep.sampled.cpu.trapSource = none)
    (halted : m.beginStep.sampled.cpu.halted = true) (fuel : Nat) :
    cpuStep hook fuel m = some m.beginStep.sampled := by
  unfold cpuStep
  rw [handleInterrupts_idle hook idle]
  exact if_pos halted

/-- A step that fetches. -/
theorem cpuStep_fetch (idle : m.beginStep.sampled.cpu.trapSource = none)
    (awake : m.beginStep.sampled.cpu.halted = false) (fuel : Nat) :
    cpuStep hook fuel m = stepInstruction fuel m.beginStep.sampled := by
  unfold cpuStep
  rw [handleInterrupts_idle hook idle]
  exact if_neg (by rw [awake]; exact Bool.false_ne_true)

/-- A step that meets an unrecognised encoding. -/
theorem stepInstruction_illegal {x : Machine} (unknown : x.decoded = none) (fuel : Nat) :
    stepInstruction fuel x = some (fetchDecode x).2.illegal := by
  have none := (fetchDecode_spec x).1.trans unknown
  unfold stepInstruction
  rcases fetched : fetchDecode x with ⟨decoded, after⟩
  rw [fetched] at none
  obtain rfl : decoded = _ := none
  rfl

/-- A step that executes an instruction. -/
theorem stepInstruction_run {x : Machine} {w : CtrlWord} (known : x.decoded = some w)
    (fuel : Nat) : stepInstruction fuel x = runInstruction fuel w (fetchDecode x).2 := by
  have some := (fetchDecode_spec x).1.trans known
  unfold stepInstruction
  rcases fetched : fetchDecode x with ⟨decoded, after⟩
  rw [fetched] at some
  obtain rfl : decoded = _ := some
  rfl

end

/-! ## Refused cycles -/

/-- `x` comes from `m` by cycles of the bus; the flag tells whether one was refused. -/
def Machine.Adds (m x : Machine) (refused : Bool) : Prop :=
  ∃ events, x.trace = events ++ m.trace ∧ events.any Event.refused = refused

namespace Machine.Adds

variable {m x y : Machine} {p q : Bool}

theorem trans (first : m.Adds x p) (second : x.Adds y q) : m.Adds y (p || q) := by
  obtain ⟨earlier, trace, refused⟩ := first
  obtain ⟨later, moreTrace, moreRefused⟩ := second
  refine ⟨later ++ earlier, by rw [moreTrace, trace, List.append_assoc], ?_⟩
  rw [List.any_append, refused, moreRefused, Bool.or_comm]

/-- The cycles of a step determine the flag. -/
theorem unique (adds : m.Adds x p) {events : List Event} (trace : x.trace = events ++ m.trace) :
    events.any Event.refused = p := by
  obtain ⟨others, same, refused⟩ := adds
  rw [trace] at same
  rw [List.append_cancel_right same, refused]

theorem of_trace (adds : m.Adds x p) (same : y.trace = x.trace) : m.Adds y p := by
  obtain ⟨events, trace, refused⟩ := adds
  exact ⟨events, same.trans trace, refused⟩

theorem ofCycle (m : Machine) (kind : Access) (wide : Bool) (a : Long) (b : Bus) :
    m.Adds { m.cycle kind wide a with bus := b } (m.violates kind a) := by
  refine ⟨[m.memEvent kind wide a], rfl, ?_⟩
  simp [memEvent, Event.refused]

end Machine.Adds

/-! ## The entry of a trap -/

/-- An access of the entry is refused: a word of the frame, or a word of the program
status area. -/
def Machine.entryRefused (m : Machine) (source : TrapSource) : Bool :=
  frameSlots.any (fun n => (m.mmu.system .write (m.cpu.banked.slot n)).2) ||
    [m.cpu.slotFcw source, m.cpu.slotSegment source, m.cpu.slotOffset source].any
      fun a => (m.mmu.system .read a).2

section Entry

variable {m x : Machine} {b : Banked}

theorem Framed.memW16_adds (framed : Framed m b x) (a : Long) (v : Word) :
    x.Adds (C900.memW16 a v x).2 (m.mmu.system .write a).2 :=
  (framed.access .write a).2 ▸ Machine.Adds.ofCycle x .write true a _

theorem Framed.memR16_adds (framed : Framed m b x) (a : Long) :
    x.Adds (C900.memR16 a x).2 (m.mmu.system .read a).2 :=
  (framed.access .read a).2 ▸ Machine.Adds.ofCycle x .read true a x.bus

/-- A push, permitted or not. -/
theorem Framed.push_adds (framed : Framed m b x) (v : Word) :
    Framed m (b.moveSystem (-2)) (C900.pushWord v x).2 ∧
      x.Adds (C900.pushWord v x).2 (m.mmu.system .write (b.slot (-2))).2 := by
  rw [framed.pushWord_eq v]
  exact ⟨(framed.moveSp (-2)).memW16 _ v, (framed.moveSp (-2)).memW16_adds _ v⟩

/-- The pushes of a trap entry. -/
theorem Framed.pushFrame_adds (framed : Framed m b x) (oldfcw tag : Word) :
    Framed m (b.moveSystem (-8)) (C900.pushFrame oldfcw tag x).2 ∧
      x.Adds (C900.pushFrame oldfcw tag x).2
        (frameSlots.any fun n => (m.mmu.system .write (b.slot n)).2) := by
  have first := framed.moveSp (-4)
  have second := first.memW16 (b.slot (-4)) (((makeSeg x.cpu.pc) >>> 16).setWidth 16)
  have third := second.memW16 (b.slot (-2)) ((makeSeg x.cpu.pc).setWidth 16)
  have high := first.memW16_adds (b.slot (-4)) (((makeSeg x.cpu.pc) >>> 16).setWidth 16)
  have low := second.memW16_adds (b.slot (-2)) ((makeSeg x.cpu.pc).setWidth 16)
  obtain ⟨fourth, status⟩ := third.push_adds oldfcw
  rw [Banked.moveSystem_moveSystem, show (-4 + -2 : Word) = -6 by decide] at fourth
  obtain ⟨fifth, last⟩ := fourth.push_adds tag
  rw [Banked.moveSystem_moveSystem, show (-6 + -2 : Word) = -8 by decide] at fifth
  rw [b.slot_moveSystem, show (-4 + -2 : Word) = -6 by decide] at status
  rw [b.slot_moveSystem, show (-6 + -2 : Word) = -8 by decide] at last
  rw [framed.pushFrame_eq]
  refine ⟨fifth, ?_⟩
  have all := ((high.trans low).trans status).trans last
  have flags : (frameSlots.any fun n => (m.mmu.system .write (b.slot n)).2) =
      ((((m.mmu.system .write (b.slot (-4))).2 || (m.mmu.system .write (b.slot (-2))).2) ||
        (m.mmu.system .write (b.slot (-6))).2) || (m.mmu.system .write (b.slot (-8))).2) := by
    simp only [frameSlots, List.any_cons, List.any_nil, Bool.or_false, Bool.or_assoc]
  rw [flags]
  exact all

/-- The reads of the handler's status. -/
theorem Framed.loadHandler_adds (framed : Framed m b x) (source : TrapSource) (c : Cpu) :
    x.Adds (C900.loadHandler source c x).2
      ([c.slotFcw source, c.slotSegment source, c.slotOffset source].any
        fun a => (m.mmu.system .read a).2) := by
  obtain ⟨first, -, -⟩ := framed.memR16 (c.slotFcw source)
  obtain ⟨second, -, -⟩ := first.memR16 (c.slotSegment source)
  have all := ((framed.memR16_adds (c.slotFcw source)).trans
    (first.memR16_adds (c.slotSegment source))).trans (second.memR16_adds (c.slotOffset source))
  simp only [List.any_cons, List.any_nil, Bool.or_false, ← Bool.or_assoc]
  exact all.of_trace rfl

end Entry

/-- The cycles of a trap entry. -/
theorem enterTrap_adds (m : Machine) (source : TrapSource) :
    m.Adds (enterTrap source m).2 (m.entryRefused source) := by
  have entered : Framed m m.cpu.entering { m with cpu := m.cpu.enter source } :=
    ⟨rfl, rfl, enter_shows m.cpu.banked_shows source, Mmu.SameMap.refl _,
      fun r not14 not15 => m.cpu.changeFcw_R _ not14 not15⟩
  obtain ⟨pushed, frame⟩ := entered.pushFrame_adds m.cpu.fcw source.tag
  have status := pushed.loadHandler_adds source m.cpu
  rw [enterTrap_apply]
  exact frame.trans status

/-! ## The elements of an instruction -/

/-- `x` comes from `m` by cycles of the bus, and its fault flag tells whether one was
refused. -/
def Machine.Flags (m x : Machine) : Prop :=
  ∃ refused, m.Adds x refused ∧ x.cpu.fault = (m.cpu.fault || refused)

theorem Machine.Flags.trans {m x y : Machine} (first : m.Flags x) (second : x.Flags y) :
    m.Flags y := by
  obtain ⟨p, adds, fault⟩ := first
  obtain ⟨q, more, moreFault⟩ := second
  exact ⟨p || q, adds.trans more, by rw [moreFault, fault, Bool.or_assoc]⟩

theorem Machine.Flags.of_same {m x : Machine} (trace : x.trace = m.trace)
    (fault : x.cpu.fault = m.cpu.fault) : m.Flags x :=
  ⟨false, ⟨[], trace, rfl⟩, by rw [fault, Bool.or_false]⟩

theorem Latched.flags {m x : Machine} (latched : Latched m x) : m.Flags x := by
  obtain ⟨events, trace, state⟩ := latched
  exact ⟨_, ⟨events, trace, rfl⟩, congrArg StepState.fault state⟩

theorem Machine.takeWarning_trace (m : Machine) : m.takeWarning.trace = m.trace := by
  unfold takeWarning
  split <;> rfl

/-- One element. -/
theorem nextElement_flags (w : CtrlWord) (m : Machine) : m.Flags (m.nextElement w) := by
  have executed := (execute_latching w m.clearRepeat).flags
  obtain ⟨irqReq, counted⟩ := executeElement_cpu w m.clearRepeat
  have trace : (m.nextElement w).trace = (execute w m.clearRepeat).2.trace :=
    Machine.takeWarning_trace _
  have fault : (m.nextElement w).cpu.fault = (execute w m.clearRepeat).2.cpu.fault := by
    rw [Machine.nextElement, counted]
  have cleared : m.Flags m.clearRepeat := .of_same rfl rfl
  exact cleared.trans (executed.trans (.of_same trace fault))

theorem elementRun_flags (w : CtrlWord) (m : Machine) (k : Nat) :
    m.Flags (elementRun w m k) := by
  induction k with
  | zero => exact .of_same rfl rfl
  | succ k inductionHypothesis =>
    rw [elementRun_succ]
    exact inductionHypothesis.trans (nextElement_flags w _)

theorem Machine.leave_trace (m : Machine) (pc : Long) : (m.leave pc).trace = m.trace := by
  unfold leave
  split_ifs <;> rfl

/-- A fault at the end of the instruction requests a segment trap. -/
theorem Machine.leave_segtrap {m : Machine} (fault : m.cpu.fault = true) (pc : Long) :
    (m.leave pc).cpu.irqReq &&& irqSegtrap ≠ 0 := by
  have left : (m.leave pc).cpu.irqReq = m.cpu.irqReq ||| irqSegtrap := by
    rw [leave, if_pos fault]
    rfl
  have bit : (m.cpu.irqReq ||| irqSegtrap) &&& irqSegtrap = irqSegtrap := by
    ext i
    simp only [BitVec.getElem_and, BitVec.getElem_or]
    cases m.cpu.irqReq[i] <;> cases irqSegtrap[i] <;> rfl
  rw [left, bit]
  decide

/-- The fetch is a run of cycles. -/
theorem fetchDecode_flags (m : Machine) :
    m.Adds (fetchDecode m).2 ((List.range m.fetchedWords).any m.refusesCode) ∧
      (fetchDecode m).2.cpu.fault = (List.range m.fetchedWords).any m.refusesCode := by
  obtain ⟨-, spec⟩ := fetchDecode_spec m
  refine ⟨⟨_, spec.fetched.trace, ?_⟩, spec.fetched.fault.trans (Bool.false_or _)⟩
  rw [List.any_reverse, List.any_map]
  rfl

/-- The fault flag behind the last element tells whether a cycle of the instruction, its fetch
included, was refused. -/
theorem runInstruction_fault {x r : Machine} {w : CtrlWord} {fuel : Nat}
    (returns : runInstruction fuel w (fetchDecode x).2 = some r) {events : List Event}
    (trace : r.trace = events ++ x.trace) :
    ∃ k, r = (elementRun w (fetchDecode x).2.started (k + 1)).leave ((fetchDecode x).2.faultPc w k) ∧
      (elementRun w (fetchDecode x).2.started (k + 1)).cpu.fault = events.any Event.refused := by
  obtain ⟨k, -, -, left⟩ :=
    (runInstruction_eq_some_iff w fuel _ r (fetchDecode_fresh x)).mp returns
  obtain ⟨adds, fault⟩ := fetchDecode_flags x
  have started : (fetchDecode x).2.Flags (fetchDecode x).2.started := .of_same rfl rfl
  obtain ⟨p, more, moreFault⟩ := started.trans (elementRun_flags w (fetchDecode x).2.started (k + 1))
  have all := (adds.trans more).of_trace (Machine.leave_trace _
    ((fetchDecode x).2.faultPc w k))
  rw [← left] at all
  exact ⟨k, left, by rw [moreFault, fault, ← all.unique trace]⟩

/-- A violation in a decoded instruction, its fetch included, is reported. -/
theorem runInstruction_reports {x r : Machine} {w : CtrlWord} {fuel : Nat}
    (returns : runInstruction fuel w (fetchDecode x).2 = some r) {events : List Event}
    (trace : r.trace = events ++ x.trace) (refused : events.any Event.refused = true) :
    r.cpu.irqReq &&& irqSegtrap ≠ 0 := by
  obtain ⟨k, left, fault⟩ := runInstruction_fault returns trace
  rw [left]
  exact Machine.leave_segtrap (fault.trans refused) _

/-! ## Steps -/

theorem Cpu.trapSource_segtrap {c : Cpu} (idle : c.trapSource = none) :
    c.irqReq &&& irqSegtrap = 0 := by
  by_contra pending
  have set : (c.irqReq &&& irqSegtrap != 0) = true := bne_iff_ne.mpr pending
  unfold trapSource at idle
  simp only [set, if_true] at idle
  split_ifs at idle

/-- An unrecognised encoding requests its own trap and no segment trap. -/
theorem illegal_segtrap (x : Machine) (idle : x.cpu.trapSource = none) :
    (fetchDecode x).2.illegal.cpu.irqReq &&& irqSegtrap = 0 := by
  have requests : (fetchDecode x).2.illegal.cpu.irqReq = x.cpu.irqReq ||| irqEpu := by
    rw [← (fetchDecode_spec x).2.irqReq]
    rfl
  have apart : irqEpu &&& irqSegtrap = 0 := by decide
  rw [requests, BitVec.and_or_distrib_right, Cpu.trapSource_segtrap idle, apart]
  rfl

/-- A step reports its violations: when the unit refuses one of its accesses, a
segment trap is pending behind it. -/
def Machine.ReportsFaults (hook : SysHook) (m : Machine) : Prop :=
  ∀ fuel r events, cpuStep hook fuel m = some r →
    r.trace = events ++ (m.atBoundary hook).trace → events.any Event.refused = true →
    r.cpu.irqReq &&& irqSegtrap ≠ 0

/-- The step enters a trap, an access of the entry is refused, and no segment trap
stays pending behind it. -/
def Machine.EntryLoses (m : Machine) (source : TrapSource) : Prop :=
  m.entryRefused source = true ∧
    (m.cpu.irqReq &&& ~~~source.bit) &&& irqSegtrap = 0

/-- The step fetches an encoding that does not decode, and one of the fetches is
refused. -/
def Machine.FetchLoses (m : Machine) : Prop :=
  m.cpu.halted = false ∧ m.decoded = none ∧ (List.range m.fetchedWords).any m.refusesCode = true

/-- A violation of the step goes unreported. -/
def Machine.LosesFault (hook : SysHook) (m : Machine) : Prop :=
  match m.beginStep.sampled.cpu.trapSource with
  | some source => (m.atTrap hook source).EntryLoses source
  | none => m.beginStep.sampled.FetchLoses

/-- A step reports its violations except on the two ways past the test. -/
theorem reportsFaults_iff (hook : SysHook) (m : Machine) :
    m.ReportsFaults hook ↔ ¬m.LosesFault hook := by
  cases taken : m.beginStep.sampled.cpu.trapSource with
  | some source =>
    have step (fuel : Nat) :
        cpuStep hook fuel m = some (enterTrap source (m.atTrap hook source)).2 :=
      cpuStep_trap taken fuel
    have adds := enterTrap_adds (m.atTrap hook source) source
    have requests := (enterTrap_requests source (m.atTrap hook source)).irqReq
    have loses : m.LosesFault hook ↔ (m.atTrap hook source).EntryLoses source := by
      rw [Machine.LosesFault, taken]
    rw [loses]
    constructor
    · rintro reports ⟨refused, quiet⟩
      obtain ⟨events, trace, flag⟩ := adds
      refine reports 0 _ events (step 0) ?_ (flag.trans refused) ?_
      · rw [atBoundary_trap taken, trace]
      · rw [requests]
        exact quiet
    · intro keeps fuel r events returns trace refused
      rw [step fuel] at returns
      obtain rfl := Option.some.inj returns
      rw [atBoundary_trap taken] at trace
      rw [requests]
      exact fun lost => keeps ⟨(adds.unique trace).symm.trans refused, lost⟩
  | none =>
    have loses : m.LosesFault hook ↔ m.beginStep.sampled.FetchLoses := by
      rw [Machine.LosesFault, taken]
    rw [loses]
    constructor
    · rintro reports ⟨awake, unknown, refused⟩
      have step : cpuStep hook 0 m = some (fetchDecode m.beginStep.sampled).2.illegal :=
        (cpuStep_fetch taken awake 0).trans (stepInstruction_illegal unknown 0)
      obtain ⟨events, trace, flag⟩ := (fetchDecode_flags m.beginStep.sampled).1
      refine reports 0 _ events step ?_ (flag.trans refused) ?_
      · rw [atBoundary_idle taken]
        exact trace
      · exact illegal_segtrap _ taken
    · intro keeps fuel r events returns trace refused
      rw [atBoundary_idle taken] at trace
      cases halted : m.beginStep.sampled.cpu.halted with
      | true =>
        rw [cpuStep_halted taken halted] at returns
        obtain rfl := Option.some.inj returns
        have nothing := (Machine.Adds.unique (p := false) ⟨[], rfl, rfl⟩ trace).symm.trans refused
        exact absurd nothing Bool.false_ne_true
      | false =>
        rw [cpuStep_fetch taken halted] at returns
        cases decodes : m.beginStep.sampled.decoded with
        | none =>
          rw [stepInstruction_illegal decodes] at returns
          obtain rfl := Option.some.inj returns
          have flag := (fetchDecode_flags m.beginStep.sampled).1.unique trace
          exact absurd ⟨halted, decodes, flag.symm.trans refused⟩ keeps
        | some w =>
          rw [stepInstruction_run decodes] at returns
          exact runInstruction_reports returns trace refused

/-- A normal-mode program with an NMI pending, while the system stack pointer stands
at the lower limit of the stack segment. -/
def stackAtLimit : Machine :=
  { (default : Machine) with
    cpu := { (default : Cpu) with
      pc := 0x040010, psap := 0x010000, nspseg := 0x0300, nspoff := 0x1000, irqReq := irqNmi }
    mmu := { (default : Mmu) with
      mode := modeMsen ||| modeTrns
      desc := fun s =>
        if s = 3 then { base := 0x0300, limit := 0x10, attr := aDirw }
        else { base := s.setWidth 16 <<< 8, limit := 0xFF, attr := 0 } } }

/-- The pushes of the NMI are refused, and nothing reports it. -/
theorem stackAtLimit_loses :
    stackAtLimit.mmu.violType = 0 ∧ ¬stackAtLimit.ReportsFaults none := by
  refine ⟨rfl, fun reports => ?_⟩
  have taken : stackAtLimit.beginStep.sampled.cpu.trapSource = some nmiSource := rfl
  have same : stackAtLimit.atTrap none nmiSource = stackAtLimit := rfl
  have slot : stackAtLimit.cpu.banked.slot (-4) = 0x030FFC := by decide
  have refusedSlot : (stackAtLimit.mmu.system .write (stackAtLimit.cpu.banked.slot (-4))).2 =
      true := by
    rw [slot]
    decide
  have refused : stackAtLimit.entryRefused nmiSource = true := by
    rw [Machine.entryRefused, Bool.or_eq_true]
    exact .inl (List.any_eq_true.mpr ⟨-4, by decide, refusedSlot⟩)
  obtain ⟨events, trace, flag⟩ := enterTrap_adds stackAtLimit nmiSource
  refine reports 0 (enterTrap nmiSource stackAtLimit).2 events ?_ ?_ (flag.trans refused) ?_
  · rw [cpuStep_trap taken 0, same]
  · rw [atBoundary_trap taken, same, trace]
  · rw [(enterTrap_requests nmiSource stackAtLimit).irqReq]
    rfl

end C900
