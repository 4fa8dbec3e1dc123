import C900.Cpu.Calls
import C900.Cpu.Halt
import C900.Mmu.Inhibit
import C900.Run.Vectored

/-!
# Segment traps while the unit inhibits them

With FATL or SWW set the unit raises no write warning, until the guest clears the flag. The
processor asks it for warnings only: a refused access requests a segment trap by the fault flag of
the step, whatever the flags of the unit say.
-/

namespace C900

/-! ## Programs over bus cycles -/

/-- The processor at will, memory cycles and I/O cycles. -/
inductive BusOp : Operations Machine where
  | get : BusOp getCpu
  | modify (f : Cpu → Cpu) : BusOp (modifyCpu f)
  | fetch (a : Long) : BusOp (ifetch16 a)
  | readWord (a : Long) : BusOp (memR16 a)
  | readByte (a : Long) : BusOp (memR8 a)
  | writeWord (a : Long) (v : Word) : BusOp (memW16 a v)
  | writeByte (a : Long) (v : Byte) : BusOp (memW8 a v)
  | ioRead (port : Word) (isByte special : Bool) : BusOp (ioReadCycle port isByte special)
  | ioWrite (port data : Word) (isByte special : Bool) :
      BusOp (ioWriteCycle port data isByte special)

/-- A program of these operations. -/
abbrev BusProgram {α : Type} (x : Exec α) : Prop := Built BusOp x

theorem AwakeProgram.bus {α : Type} {x : Exec α} (program : AwakeProgram x) : BusProgram x := by
  refine program.mono fun β y operation => ?_
  cases operation with
  | modify f keeps => exact .modify f
  | get => exact .get
  | fetch a => exact .fetch a
  | readWord a => exact .readWord a
  | readByte a => exact .readByte a
  | writeWord a v => exact .writeWord a v
  | writeByte a v => exact .writeByte a v
  | ioRead port isByte special => exact .ioRead port isByte special
  | ioWrite port data isByte special => exact .ioWrite port data isByte special

namespace BusProgram

theorem read : BusProgram getCpu := .op .get

theorem update (f : Cpu → Cpu) : BusProgram (modifyCpu f) := .op (.modify f)

end BusProgram

open BusProgram

/-- Every instruction is one. -/
theorem execute_bus {w : CtrlWord} (decoded : w ∈ pool) : BusProgram (execute w) := by
  by_cases kind : w.exec = .halt
  · unfold execute
    rw [kind]
    exact read.bind fun _ => (update _).ite (update _)
  · exact (execute_awake decoded kind).bus

theorem fetchDecode_bus : BusProgram fetchDecode :=
  (update _).bind fun _ => (@fetchWords_built true).awake.bus

/-- So is the entry of a trap. -/
theorem enterTrap_bus (source : TrapSource) : BusProgram (enterTrap source) := by
  have store (a : Long) (v : Word) : BusProgram (memW16 a v) := .op (.writeWord a v)
  have load (a : Long) : BusProgram (memR16 a) := .op (.readWord a)
  have push (v : Word) : BusProgram (pushWord v) := (@pushWord_built true v).awake.bus
  exact read.bind fun c => (update _).bind fun _ => read.bind fun d => (update _).bind fun _ =>
    (store _ _).bind fun _ => (store _ _).bind fun _ => (push _).bind fun _ => (push _).bind fun _ =>
      (load _).bind fun nf => (load _).bind fun pcseg => (load _).bind fun pcoff => update _

/-! ## The flag along a program -/

/-- An I/O cycle writes a command that clears the flag. -/
def Event.clears (f : InhibitFlag) : Event → Bool
  | .ioWrite port _ _ true => isMmuPort port && f.clearedBy (hiByte port)
  | _ => false

/-- `x` comes from `m` by cycles of the bus; where none of them clears the flag, it stays set and
the outstanding warning is what it was. -/
def Machine.Inhibits (f : InhibitFlag) (m x : Machine) : Prop :=
  ∃ events, x.trace = events ++ m.trace ∧ (events.any (Event.clears f) = false →
    m.mmu.Holds f → x.mmu.Holds f ∧ x.mmu.warnPending = m.mmu.warnPending)

namespace Machine.Inhibits

variable {f : InhibitFlag} {m x y : Machine}

theorem of_same (trace : x.trace = m.trace) (mmu : x.mmu = m.mmu) : m.Inhibits f x := by
  refine ⟨[], trace, fun _ holds => ?_⟩
  rw [mmu]
  exact ⟨holds, rfl⟩

theorem trans (first : m.Inhibits f x) (second : x.Inhibits f y) : m.Inhibits f y := by
  obtain ⟨earlier, trace, keeps⟩ := first
  obtain ⟨later, moreTrace, moreKeeps⟩ := second
  refine ⟨later ++ earlier, by rw [moreTrace, trace, List.append_assoc], fun none holds => ?_⟩
  rw [List.any_append, Bool.or_eq_false_iff] at none
  obtain ⟨middle, warning⟩ := keeps none.2 holds
  obtain ⟨last, moreWarning⟩ := moreKeeps none.1 middle
  exact ⟨last, moreWarning.trans warning⟩

theorem ofCycle (m : Machine) (kind : Access) (wide : Bool) (a : Long) (b : Bus) :
    m.Inhibits f { m.cycle kind wide a with bus := b } :=
  ⟨[m.memEvent kind wide a], rfl, fun _ holds => holds.translate ..⟩

theorem ioRead (m : Machine) (port : Word) (isByte special : Bool) :
    m.Inhibits f (ioReadCycle port isByte special m).2 := by
  refine ⟨[.ioRead port isByte special _], congrArg _ (ioRead_trace m port special),
    fun _ holds => ?_⟩
  show (C900.ioRead m port special).2.mmu.Holds f ∧ (C900.ioRead m port special).2.mmu.warnPending = _
  unfold C900.ioRead
  split_ifs
  · exact ⟨holds.of_same (mmuCmdRead_violation _ _), mmuCmdRead_warnPending _ _⟩
  · exact ⟨holds, rfl⟩
  · exact ⟨holds, rfl⟩

theorem ioWrite (m : Machine) (port data : Word) (isByte special : Bool) :
    m.Inhibits f (ioWriteCycle port data isByte special m).2 := by
  refine ⟨[.ioWrite port data isByte special], congrArg _ (ioWrite_trace m port data special),
    fun none holds => ?_⟩
  show (C900.ioWrite m port data special).mmu.Holds f ∧ (C900.ioWrite m port data special).mmu.warnPending = _
  unfold C900.ioWrite
  cases special with
  | false => exact ⟨holds, rfl⟩
  | true =>
    rw [List.any_cons, List.any_nil, Bool.or_false] at none
    cases command : isMmuPort port with
    | false => exact ⟨holds, rfl⟩
    | true =>
      have other : f.clearedBy (hiByte port) = false := by
        rw [Event.clears, command] at none
        exact none
      exact ⟨holds.cmdWrite _ _ other, mmuCmdWrite_warnPending _ _ _⟩

end Machine.Inhibits

/-- A program keeps the flag until one of its cycles clears it. -/
theorem BusProgram.inhibits {α : Type} {x : Exec α} (program : BusProgram x) (f : InhibitFlag)
    (m : Machine) : m.Inhibits f (x m).2 := by
  refine program.preserves (Machine.Inhibits f) (fun _ => .of_same rfl rfl)
    (fun _ _ _ first second => first.trans second) ?_ m
  intro β y operation s
  cases operation with
  | get => exact .of_same rfl rfl
  | modify g => exact .of_same rfl rfl
  | fetch a => exact .ofCycle s .fetch true a s.bus
  | readWord a => exact .ofCycle s .read true a s.bus
  | readByte a => exact .ofCycle s .read false a s.bus
  | writeWord a v => exact .ofCycle s .write true a _
  | writeByte a v => exact .ofCycle s .write false a _
  | ioRead port isByte special => exact .ioRead s port isByte special
  | ioWrite port data isByte special => exact .ioWrite s port data isByte special

/-! ## The elements of an instruction -/

/-- A segment trap is requested, or it will be behind the element. -/
def Machine.outstanding (m : Machine) : Bool := m.cpu.pending irqSegtrap || m.mmu.warnPending

/-- `x` comes from `m` by cycles of the bus; where none of them clears the flag, it stays set, and
no segment trap comes up or goes. -/
def Machine.Retains (f : InhibitFlag) (m x : Machine) : Prop :=
  ∃ events, x.trace = events ++ m.trace ∧ (events.any (Event.clears f) = false →
    m.mmu.Holds f → x.mmu.Holds f ∧ x.outstanding = m.outstanding)

namespace Machine.Retains

variable {f : InhibitFlag} {m x y : Machine}

theorem trans (first : m.Retains f x) (second : x.Retains f y) : m.Retains f y := by
  obtain ⟨earlier, trace, keeps⟩ := first
  obtain ⟨later, moreTrace, moreKeeps⟩ := second
  refine ⟨later ++ earlier, by rw [moreTrace, trace, List.append_assoc], fun none holds => ?_⟩
  rw [List.any_append, Bool.or_eq_false_iff] at none
  obtain ⟨middle, same⟩ := keeps none.2 holds
  obtain ⟨last, moreSame⟩ := moreKeeps none.1 middle
  exact ⟨last, moreSame.trans same⟩

/-- Cycles that leave the request alone. -/
theorem of_inhibits (inhibits : m.Inhibits f x)
    (pending : x.cpu.pending irqSegtrap = m.cpu.pending irqSegtrap) : m.Retains f x := by
  obtain ⟨events, trace, keeps⟩ := inhibits
  refine ⟨events, trace, fun none holds => ?_⟩
  obtain ⟨last, warning⟩ := keeps none holds
  exact ⟨last, by rw [outstanding, outstanding, pending, warning]⟩

/-- What the cycles of a step say. -/
theorem apply (retains : m.Retains f x) {events : List Event} (trace : x.trace = events ++ m.trace)
    (uncleared : events.any (Event.clears f) = false) (holds : m.mmu.Holds f) :
    x.mmu.Holds f ∧ x.outstanding = m.outstanding := by
  obtain ⟨others, same, keeps⟩ := retains
  rw [trace] at same
  exact keeps (List.append_cancel_right same ▸ uncleared) holds

end Machine.Retains

/-- An instruction itself requests no segment trap. -/
theorem Latched.segtrap {m x : Machine} (latched : Latched m x) :
    x.cpu.pending irqSegtrap = m.cpu.pending irqSegtrap := by
  obtain ⟨events, -, state⟩ := latched
  have requests : x.cpu.irqReq &&& ~~~(irqTrap ||| irqSyscall) =
      m.cpu.irqReq &&& ~~~(irqTrap ||| irqSyscall) := congrArg StepState.requests state
  have segtrap : ∀ bits : Byte,
      bits &&& irqSegtrap = bits &&& ~~~(irqTrap ||| irqSyscall) &&& irqSegtrap := by
    intro bits
    rw [BitVec.and_assoc]
    rfl
  rw [Cpu.pending, Cpu.pending, segtrap, requests, ← segtrap]

theorem Machine.takeWarning_retains (f : InhibitFlag) (m : Machine) : m.Retains f m.takeWarning := by
  refine ⟨[], m.takeWarning_trace, fun _ holds => ?_⟩
  unfold takeWarning outstanding
  cases warning : m.mmu.warnPending with
  | false =>
    rw [if_neg Bool.false_ne_true, warning]
    exact ⟨holds, rfl⟩
  | true =>
    refine ⟨holds.of_same rfl, ?_⟩
    rw [if_pos rfl, Cpu.request_pending, Bool.or_false]
    rfl

theorem Machine.takeWarning_warnPending (m : Machine) : m.takeWarning.mmu.warnPending = false := by
  unfold takeWarning
  cases warning : m.mmu.warnPending with
  | false => exact warning
  | true => rfl

section Elements

variable {w : CtrlWord} (decoded : w ∈ pool) (f : InhibitFlag) (m : Machine)

include decoded

theorem nextElement_retains : m.Retains f (m.nextElement w) := by
  have executed : m.clearRepeat.Retains f (execute w m.clearRepeat).2 :=
    .of_inhibits ((execute_bus decoded).inhibits f _) (execute_latching w m.clearRepeat).segtrap
  let after := (execute w m.clearRepeat).2
  let counted : Machine := { after with cpu := { after.cpu with insns := after.cpu.insns + 1 } }
  have cleared : m.Retains f m.clearRepeat := .of_inhibits (.of_same rfl rfl) rfl
  have same : after.Retains f counted := .of_inhibits (.of_same rfl rfl) rfl
  exact cleared.trans (executed.trans (same.trans (counted.takeWarning_retains f)))

theorem elementRun_retains (k : Nat) : m.Retains f (elementRun w m k) := by
  induction k with
  | zero => exact .of_inhibits (.of_same rfl rfl) rfl
  | succ k inductionHypothesis =>
    rw [elementRun_succ]
    exact inductionHypothesis.trans (nextElement_retains decoded f _)

end Elements

theorem elementRun_warnPending (w : CtrlWord) (m : Machine) (k : Nat) :
    (elementRun w m (k + 1)).mmu.warnPending = false := by
  rw [elementRun_succ]
  exact Machine.takeWarning_warnPending _

theorem fetchDecode_retains (f : InhibitFlag) (m : Machine) : m.Retains f (fetchDecode m).2 :=
  .of_inhibits (fetchDecode_bus.inhibits f m)
    (by rw [Cpu.pending, (fetchDecode_spec m).2.irqReq, Cpu.pending])

/-- Behind the last element the fault flag alone adds a request. -/
theorem Machine.leave_pending (m : Machine) (pc : Long) :
    (m.leave pc).cpu.pending irqSegtrap = (m.cpu.pending irqSegtrap || m.cpu.fault) ∧
      (m.leave pc).mmu = m.mmu := by
  unfold leave
  cases fault : m.cpu.fault with
  | true =>
    rw [if_pos rfl]
    exact ⟨m.cpu.request_pending irqSegtrap irqSegtrap, rfl⟩
  | false =>
    rw [if_neg Bool.false_ne_true, Bool.or_false]
    split_ifs <;> exact ⟨rfl, rfl⟩

/-- An instruction that leaves the flag alone: a segment trap is requested behind it when one was
requested before, when a warning was outstanding, and when a cycle was refused. -/
theorem runInstruction_segtrap {x r : Machine} {w : CtrlWord} {fuel : Nat} (known : x.decoded = some w)
    (returns : runInstruction fuel w (fetchDecode x).2 = some r) {events : List Event}
    (trace : r.trace = events ++ x.trace) {f : InhibitFlag}
    (uncleared : events.any (Event.clears f) = false) (holds : x.mmu.Holds f) :
    r.mmu.Holds f ∧
      r.cpu.pending irqSegtrap = (x.outstanding || events.any Event.refused) := by
  obtain ⟨k, rfl, fault⟩ := runInstruction_fault returns trace
  let last := elementRun w (fetchDecode x).2.started (k + 1)
  obtain ⟨pending, mmu⟩ := last.leave_pending ((fetchDecode x).2.faultPc w k)
  have started : (fetchDecode x).2.Retains f (fetchDecode x).2.started :=
    .of_inhibits (.of_same rfl rfl) rfl
  have retains : x.Retains f last := (fetchDecode_retains f x).trans
    (started.trans (elementRun_retains (decodeLookup_mem known) f _ (k + 1)))
  rw [Machine.leave_trace] at trace
  obtain ⟨stays, same⟩ := retains.apply trace uncleared holds
  have settled : last.mmu.warnPending = false := elementRun_warnPending w _ k
  rw [Machine.outstanding, settled, Bool.or_false] at same
  exact ⟨mmu.symm ▸ stays, by rw [pending, same, fault]⟩

/-! ## Steps -/

/-- A service of system calls that leaves the unit and the requests of the processor alone. -/
def SysHook.SparesUnit (hook : SysHook) : Prop :=
  ∀ service, hook = some service → ∀ m number pc,
    (service m number pc).mmu = m.mmu ∧ (service m number pc).cpu.irqReq = m.cpu.irqReq

/-- A step makes a segment trap pending where none was: when it samples the lines, or behind it. -/
def Machine.RaisesSegtrap (m r : Machine) : Prop :=
  m.cpu.pending irqSegtrap = false ∧
    (m.beginStep.sampled.cpu.pending irqSegtrap = true ∨ r.cpu.pending irqSegtrap = true)

/-- The cycles of the step from `m` to `r`. -/
def Machine.StepCycles (hook : SysHook) (m r : Machine) (events : List Event) : Prop :=
  r.trace = events ++ (m.atBoundary hook).trace

/-- What asks for a segment trap without a look at the flags of the unit: the SEGT line, and in an
instruction an older write warning and a refused cycle. -/
def Machine.AsksAnyway (hook : SysHook) (m r : Machine) : Prop :=
  m.cpu.segtLine = true ∨ (m.instruction hook).isSome = true ∧
    (m.mmu.warnPending = true ∨
      ∃ events, m.StepCycles hook r events ∧ events.any Event.refused = true)

section Steps

variable {hook : SysHook} {m r : Machine} {fuel : Nat} {f : InhibitFlag}

theorem atTrap_spared (spares : hook.SparesUnit) (source : TrapSource) :
    (m.atTrap hook source).mmu = m.mmu ∧
      (m.atTrap hook source).cpu.irqReq = m.beginStep.sampled.cpu.irqReq := by
  unfold Machine.atTrap
  dsimp only
  split
  · cases hook with
    | none => exact ⟨rfl, rfl⟩
    | some service => exact spares service rfl m.beginStep.sampled _ _
  · exact ⟨rfl, rfl⟩

/-- A halted processor executes no instruction. -/
theorem instruction_halted (idle : m.beginStep.sampled.cpu.trapSource = none)
    (halted : m.beginStep.sampled.cpu.halted = true) : m.instruction hook = none := by
  unfold Machine.instruction
  rw [handleInterrupts_idle hook idle]
  exact if_pos halted

theorem sampled_segtrap (m : Machine) : m.beginStep.sampled.cpu.pending irqSegtrap =
    (m.cpu.pending irqSegtrap || m.cpu.segtLine) := by
  have sampled := m.beginStep.cpu.sampleLines_pending irqSegtrap
  have others : (irqNmi &&& irqSegtrap != 0) = false ∧ (irqSegtrap &&& irqSegtrap != 0) = true ∧
      (irqNvi &&& irqSegtrap != 0) = false ∧ (irqVi &&& irqSegtrap != 0) = false := by decide
  obtain ⟨nmi, segtrap, nvi, vi⟩ := others
  rw [nmi, segtrap, nvi, vi, Bool.and_false, Bool.and_false, Bool.and_false, Bool.and_true,
    Bool.or_false, Bool.or_false, Bool.or_false] at sampled
  exact sampled

/-- The cycles of a step are determined. -/
theorem Machine.StepCycles.unique {events others : List Event} (cycles : m.StepCycles hook r events)
    (also : m.StepCycles hook r others) : events = others :=
  List.append_cancel_right (cycles.symm.trans also)

/-- The entry of a trap asks for no segment trap. -/
theorem trapStep_inhibited (spares : hook.SparesUnit) (holds : m.mmu.Holds f) {source : TrapSource}
    (taken : m.beginStep.sampled.cpu.trapSource = some source) {events : List Event}
    (cycles : m.StepCycles hook (enterTrap source (m.atTrap hook source)).2 events)
    (uncleared : events.any (Event.clears f) = false) :
    (enterTrap source (m.atTrap hook source)).2.mmu.Holds f ∧
      (m.RaisesSegtrap (enterTrap source (m.atTrap hook source)).2 ↔
        m.cpu.pending irqSegtrap = false ∧
          m.AsksAnyway hook (enterTrap source (m.atTrap hook source)).2) := by
  have sampled := sampled_segtrap m
  obtain ⟨unit, requests⟩ := atTrap_spared (m := m) spares source
  have boundary : m.atBoundary hook = m.atTrap hook source := atBoundary_trap taken
  obtain ⟨others, trace, keeps⟩ := (enterTrap_bus source).inhibits f (m.atTrap hook source)
  obtain rfl := cycles.unique (by rw [Machine.StepCycles, boundary, trace])
  have left : m.beginStep.sampled.cpu.pending irqSegtrap = false →
      (enterTrap source (m.atTrap hook source)).2.cpu.pending irqSegtrap = false := by
    intro idle
    have after := (enterTrap_requests source (m.atTrap hook source)).irqReq
    have none : m.beginStep.sampled.cpu.irqReq &&& irqSegtrap = 0 := bne_eq_false_iff_eq.mp idle
    rw [Cpu.pending, after, requests, BitVec.and_assoc, BitVec.and_comm (~~~source.bit),
      ← BitVec.and_assoc, none]
    exact bne_eq_false_iff_eq.mpr BitVec.zero_and
  refine ⟨(keeps uncleared (unit ▸ holds)).1, and_congr_right fun quiet => ?_⟩
  rw [quiet, Bool.false_or] at sampled
  constructor
  · intro raised
    refine .inl (sampled.symm.trans ?_)
    by_contra idle
    rw [Bool.not_eq_true] at idle
    rcases raised with now | behind
    · exact Bool.false_ne_true (idle.symm.trans now)
    · exact Bool.false_ne_true ((left idle).symm.trans behind)
  · rintro (line | ⟨executes, -⟩)
    · exact .inl (sampled.trans line)
    · rw [instruction_trap taken] at executes
      exact absurd executes Bool.false_ne_true

/-- A step that takes no trap. -/
theorem idleStep_inhibited (holds : m.mmu.Holds f)
    (taken : m.beginStep.sampled.cpu.trapSource = none) (returns : cpuStep hook fuel m = some r)
    {events : List Event} (cycles : m.StepCycles hook r events)
    (uncleared : events.any (Event.clears f) = false) :
    r.mmu.Holds f ∧
      (m.RaisesSegtrap r ↔ m.cpu.pending irqSegtrap = false ∧ m.AsksAnyway hook r) := by
  have sampled := sampled_segtrap m
  have boundary : m.atBoundary hook = m.beginStep.sampled := atBoundary_idle taken
  have idle : m.beginStep.sampled.cpu.pending irqSegtrap = false := by
    rw [Cpu.pending, Cpu.trapSource_segtrap taken]
    rfl
  have quiet := Bool.or_eq_false_iff.mp (sampled.symm.trans idle)
  have noLine : ¬m.cpu.segtLine = true := Bool.not_eq_true _ ▸ quiet.2
  have asks : m.AsksAnyway hook r ↔ (m.instruction hook).isSome = true ∧
      (m.mmu.warnPending = true ∨ events.any Event.refused = true) := by
    unfold Machine.AsksAnyway
    rw [or_iff_right noLine]
    refine and_congr_right fun _ => or_congr_right ⟨?_, fun refused => ⟨events, cycles, refused⟩⟩
    rintro ⟨others, also, refused⟩
    exact cycles.unique also ▸ refused
  have raises : m.RaisesSegtrap r ↔ m.cpu.pending irqSegtrap = false ∧
      r.cpu.pending irqSegtrap = true := by
    unfold Machine.RaisesSegtrap
    rw [idle, or_iff_right Bool.false_ne_true]
  rw [raises, asks]
  cases halted : m.beginStep.sampled.cpu.halted with
  | true =>
    rw [cpuStep_halted taken halted] at returns
    obtain rfl := Option.some.inj returns
    rw [instruction_halted taken halted, idle]
    exact ⟨holds, and_congr_right fun _ => iff_of_false Bool.false_ne_true fun asked => Bool.false_ne_true asked.1⟩
  | false =>
    rw [cpuStep_fetch taken halted] at returns
    rw [instruction_fetch taken halted]
    cases known : m.beginStep.sampled.decoded with
    | none =>
      rw [stepInstruction_illegal known] at returns
      obtain rfl := Option.some.inj returns
      have pending : (fetchDecode m.beginStep.sampled).2.illegal.cpu.pending irqSegtrap = false := by
        rw [Cpu.pending, illegal_segtrap _ taken]
        rfl
      rw [Machine.StepCycles, boundary] at cycles
      rw [pending]
      exact ⟨((fetchDecode_retains f _).apply cycles uncleared holds).1,
        and_congr_right fun _ => iff_of_false Bool.false_ne_true fun asked => Bool.false_ne_true asked.1⟩
    | some w =>
      rw [stepInstruction_run known] at returns
      rw [Machine.StepCycles, boundary] at cycles
      obtain ⟨stays, pending⟩ := runInstruction_segtrap known returns cycles uncleared holds
      rw [pending, Machine.outstanding, idle, Bool.false_or, Bool.or_eq_true]
      exact ⟨stays, and_congr_right fun _ => ⟨fun asked => ⟨rfl, asked⟩, fun asked => asked.2⟩⟩

/-- A step that does not clear the flag keeps it, and makes a segment trap pending exactly when
something asks for it without a look at the flag. -/
theorem cpuStep_inhibited (spares : hook.SparesUnit) (holds : m.mmu.Holds f)
    (returns : cpuStep hook fuel m = some r) {events : List Event}
    (cycles : m.StepCycles hook r events) (uncleared : events.any (Event.clears f) = false) :
    r.mmu.Holds f ∧
      (m.RaisesSegtrap r ↔ m.cpu.pending irqSegtrap = false ∧ m.AsksAnyway hook r) := by
  cases taken : m.beginStep.sampled.cpu.trapSource with
  | some source =>
    rw [cpuStep_trap taken] at returns
    obtain rfl := Option.some.inj returns
    exact trapStep_inhibited spares holds taken cycles uncleared
  | none => exact idleStep_inhibited holds taken returns cycles uncleared

end Steps

/-! ## Runs -/

/-- A run of steps none of which clears the flag. Between the steps the devices move and the unit
stays. The list holds the machines before and behind each step. -/
inductive InhibitedRun (hook : SysHook) (f : InhibitFlag) (m : Machine) :
    List (Machine × Machine) → Machine → Prop where
  | start : InhibitedRun hook f m [] m
  | step {steps : List (Machine × Machine)} {x y z : Machine} {fuel : Nat} {events : List Event}
      (run : InhibitedRun hook f m steps x) (aside : y.mmu = x.mmu)
      (returns : cpuStep hook fuel y = some z) (cycles : y.StepCycles hook z events)
      (uncleared : events.any (Event.clears f) = false) :
      InhibitedRun hook f m (steps ++ [(y, z)]) z

section Runs

variable {hook : SysHook} {f : InhibitFlag} {m z : Machine} {steps : List (Machine × Machine)}

/-- The flag stays along the run, and each step raises what `cpuStep_inhibited` says. -/
theorem InhibitedRun.holds (spares : hook.SparesUnit) (start : m.mmu.Holds f)
    (run : InhibitedRun hook f m steps z) : z.mmu.Holds f ∧ ∀ p ∈ steps,
      (p.1.mmu.Holds f ∧ p.2.mmu.Holds f) ∧ (p.1.RaisesSegtrap p.2 ↔
        p.1.cpu.pending irqSegtrap = false ∧ p.1.AsksAnyway hook p.2) := by
  induction run with
  | start => exact ⟨start, fun p member => absurd member List.not_mem_nil⟩
  | @step steps x y z fuel events run aside returns cycles uncleared inductionHypothesis =>
    obtain ⟨before, all⟩ := inductionHypothesis
    have here : y.mmu.Holds f := by
      rw [aside]
      exact before
    obtain ⟨behind, raises⟩ := cpuStep_inhibited spares here returns cycles uncleared
    refine ⟨behind, fun p member => ?_⟩
    rcases List.mem_append.mp member with earlier | last
    · exact all p earlier
    · obtain rfl := List.mem_singleton.mp last
      exact ⟨⟨here, behind⟩, raises⟩

/-- Along a run that does not clear FATL or SWW, from any state with that flag set: the flag stays
set; no step makes a segment trap pending exactly when no step that finds none pending meets the
SEGT line or executes an instruction with an older write warning outstanding or with a refused
cycle; and a refused store changes nothing. -/
theorem inhibitedRun_segtrap_iff (spares : hook.SparesUnit) (flag : m.mmu.inhibited f = true)
    (sound : m.mmu.FlagsCaptured) (run : InhibitedRun hook f m steps z) :
    (∀ p ∈ steps, p.1.mmu.inhibited f = true ∧ p.2.mmu.inhibited f = true) ∧
      ((∀ p ∈ steps, ¬p.1.RaisesSegtrap p.2) ↔
        ∀ p ∈ steps, p.1.cpu.pending irqSegtrap = true ∨ ¬p.1.AsksAnyway hook p.2) ∧
      ∀ x : Machine, x.mmu.inhibited f = true → ∀ a v b, x.violates .write a = true →
        (memW16 a v x).2.bus = x.bus ∧ (memW8 a b x).2.bus = x.bus := by
  obtain ⟨-, all⟩ := run.holds spares ⟨flag, sound f flag⟩
  refine ⟨fun p member => ⟨(all p member).1.1.set, (all p member).1.2.set⟩, ?_, ?_⟩
  · refine forall₂_congr fun p member => ?_
    rw [(all p member).2, not_and_or, Bool.not_eq_false]
  · intro x _ a v b refused
    exact ⟨if_pos refused, if_pos refused⟩

end Runs

/-- A fatal violation is latched, and the next instruction stores beyond its segment:
LD @R2,R3 of non-segmented system mode. -/
def fatalStore : Machine :=
  { (default : Machine) with
    cpu := { (default : Cpu) with
      pc := 0x0100, fcw := 0x4000, R := fun r => if r = 2 then 0x2000 else 0 }
    mmu := { (default : Mmu) with
      mode := modeMsen ||| modeTrns, violType := vtFatl ||| vtSlv, violCaptured := true
      desc := fun _ => { base := 0, limit := 0x0F, attr := 0 } }
    bus := { (default : Bus) with
      flatMem := true, flatMaxseg := 0xFF
      ram := fun a => if a = 0x100 then 0x2F else if a = 0x101 then 0x23 else 0 } }

/-- Its fetch and its refused store. -/
def fatalStoreCycles : List Event :=
  [.mem .write true 0x2000 0x2000 true, .mem .fetch true 0x0100 0x0100 false]

theorem fatalStore_step : cpuStep none 0 fatalStore = some fatalStore.next ∧
    fatalStore.StepCycles none fatalStore.next fatalStoreCycles := by
  have returns : (cpuStep none 0 fatalStore).isSome = true := by decide
  have trace : fatalStore.next.trace = fatalStoreCycles := by decide
  obtain ⟨r, is⟩ := Option.isSome_iff_exists.mp returns
  have next : fatalStore.next = r := by rw [Machine.next, is, Option.getD_some]
  refine ⟨by rw [is, next], ?_⟩
  have boundary : (fatalStore.atBoundary none).trace = [] := by decide
  rw [Machine.StepCycles, trace, boundary, List.append_nil]

/-- The run of one step. -/
theorem inhibitedRun_segtrap_iff_store :
    (∀ p ∈ [(fatalStore, fatalStore.next)], ¬p.1.RaisesSegtrap p.2) ↔
      ∀ p ∈ [(fatalStore, fatalStore.next)],
        p.1.cpu.pending irqSegtrap = true ∨ ¬p.1.AsksAnyway none p.2 :=
  (inhibitedRun_segtrap_iff (m := fatalStore) (f := .fatal) (fun _ none => by cases none) (by decide)
    (fun _ _ => rfl)
    (.step .start rfl fatalStore_step.1 fatalStore_step.2 (by decide))).2.1

/-- The flag is set before and behind the step, the guest clears nothing, and the step makes a
segment trap pending. -/
theorem fatalStore_raises : fatalStore.mmu.inhibited .fatal = true ∧
    fatalStore.next.mmu.inhibited .fatal = true ∧
    InhibitedRun none .fatal fatalStore [(fatalStore, fatalStore.next)] fatalStore.next ∧
    fatalStore.RaisesSegtrap fatalStore.next := by
  have raised : fatalStore.next.cpu.pending irqSegtrap = true := by decide
  refine ⟨by decide, by decide, ?_, by decide, .inr raised⟩
  exact .step .start rfl fatalStore_step.1 fatalStore_step.2 (by decide)

end C900
