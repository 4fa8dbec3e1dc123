import C900.Cpu.Report
import C900.Logic.Sampled
import C900.Run.Loop

/-!
# Vectored interrupts along a run

The line of the vectored interrupts is sampled into the sticky request `IRQ_VI` when
they are enabled, and the request stays when the boundary takes something of higher
priority. A vectored interrupt is then taken at a later boundary whether or not a
source still requests. The theorem says at which boundaries that happens, and the
history lemma which earlier boundary is to blame.
-/

namespace C900

/-! ## Pending requests -/

namespace Cpu

/-- A request is pending. -/
def pending (c : Cpu) (bit : Byte) : Bool := c.irqReq &&& bit != 0

/-- Vectored interrupts are enabled. -/
def viEnabled (c : Cpu) : Bool := c.fcw &&& fcwVie != 0

/-- Non-vectored interrupts are enabled. -/
def nviEnabled (c : Cpu) : Bool := c.fcw &&& fcwNvie != 0

/-- Something of higher priority than a vectored interrupt is to be taken. -/
def outranksVi (c : Cpu) : Bool :=
  [irqEpu, irqTrap, irqSyscall, irqSegtrap, irqNmi].any c.pending || c.nmiLine || c.segtLine ||
    c.nviEnabled && (c.nviLine || c.pending irqNvi)

/-- What the boundary sees of the vectored interrupts. -/
def viBoundary (c : Cpu) : Boundary where
  line := c.viLine
  enabled := c.viEnabled
  outranked := c.outranksVi

end Cpu

/-- The test of a bit in a request that another one joins. -/
theorem join_pending (x y bit : Byte) :
    ((x ||| y) &&& bit != 0) = ((x &&& bit != 0) || (y &&& bit != 0)) := by
  have zero : (x ||| y) &&& bit = 0 ↔ x &&& bit = 0 ∧ y &&& bit = 0 := by
    rw [BitVec.and_or_distrib_right]
    exact BitVec.or_eq_zero_iff
  rw [Bool.eq_iff_iff, Bool.or_eq_true, bne_iff_ne, bne_iff_ne, bne_iff_ne, Ne, zero]
  exact not_and_or

theorem Cpu.request_pending (c : Cpu) (bits bit : Byte) :
    (c.request bits).pending bit = (c.pending bit || bits &&& bit != 0) :=
  join_pending c.irqReq bits bit

theorem Cpu.requestIf_pending (p : Bool) (c : Cpu) (bits bit : Byte) :
    (if p then c.request bits else c).pending bit =
      (c.pending bit || p && bits &&& bit != 0) := by
  cases p with
  | true => exact c.request_pending bits bit
  | false => simp

/-- What is pending once the lines are sampled. -/
theorem Cpu.sampleLines_pending (c : Cpu) (bit : Byte) :
    c.sampleLines.pending bit =
      ((((c.pending bit || c.nmiLine && irqNmi &&& bit != 0) ||
        c.segtLine && irqSegtrap &&& bit != 0) ||
        (c.nviLine && c.nviEnabled) && irqNvi &&& bit != 0) ||
        (c.viLine && c.viEnabled) && irqVi &&& bit != 0) := by
  let first := if c.nmiLine then c.request irqNmi else c
  let second := if first.segtLine then first.request irqSegtrap else first
  let third := if second.nviLine && second.nviEnabled then second.request irqNvi else second
  have lines : first.segtLine = c.segtLine ∧ second.nviLine = c.nviLine ∧ second.fcw = c.fcw ∧
      third.viLine = c.viLine ∧ third.fcw = c.fcw := by
    dsimp only [third, second, first]
    split_ifs <;> exact ⟨rfl, rfl, rfl, rfl, rfl⟩
  obtain ⟨segtLine, nviLine, nviFcw, viLine, viFcw⟩ := lines
  have whole : c.sampleLines =
      if third.viLine && third.viEnabled then third.request irqVi else third := rfl
  rw [whole, requestIf_pending, requestIf_pending, requestIf_pending, requestIf_pending, segtLine,
    nviLine, viLine, nviEnabled, viEnabled, nviFcw, viFcw]
  rfl

/-! ## What a boundary takes -/

/-- The vectored interrupt with the vector that the processor is shown. -/
def Cpu.viSource (c : Cpu) : TrapSource := ⟨irqVi, 0x1C, c.viVector⟩

/-- A boundary takes the vectored interrupt when it is pending and enabled and nothing
goes first. -/
theorem Cpu.trapSource_vi_iff (c : Cpu) :
    (∃ source, c.trapSource = some source ∧ source.bit = irqVi) ↔
      ([irqEpu, irqTrap, irqSyscall, irqSegtrap, irqNmi].any c.pending = false ∧
        (c.pending irqNvi && c.nviEnabled) = false) ∧ (c.pending irqVi && c.viEnabled) = true := by
  unfold trapSource
  simp only [List.any_cons, List.any_nil, Bool.or_false]
  change (∃ source, (if c.pending irqEpu then _ else if c.pending irqTrap then _
    else if c.pending irqSyscall then _ else if c.pending irqSegtrap then _
    else if c.pending irqNmi then _ else if c.pending irqNvi && c.nviEnabled then _
    else if c.pending irqVi && c.viEnabled then _ else _) = some source ∧ _) ↔ _
  cases c.pending irqEpu <;> cases c.pending irqTrap <;> cases c.pending irqSyscall <;>
    cases c.pending irqSegtrap <;> cases c.pending irqNmi <;>
    cases c.pending irqNvi && c.nviEnabled <;> cases c.pending irqVi && c.viEnabled <;>
    simp [irqEpu, irqTrap, irqSyscall, irqSegtrap, irqNmi, irqNvi, irqVi]

theorem Cpu.trapSource_vi {c : Cpu} {source : TrapSource} (taken : c.trapSource = some source)
    (vectored : source.bit = irqVi) : source = c.viSource := by
  unfold trapSource at taken
  dsimp only at taken
  split_ifs at taken
  all_goals
    obtain rfl := Option.some.inj taken
    dsimp only at vectored
    first | rfl | exact absurd vectored (by decide)

/-- What a boundary takes, from the lines and the requests before it samples them. -/
theorem Cpu.sampled_vi_iff (c : Cpu) :
    (∃ source, c.sampleLines.trapSource = some source ∧ source.bit = irqVi) ↔
      c.viBoundary.takes (c.pending irqVi) = true := by
  obtain ⟨irqReq, same⟩ := c.sampleLines_request
  have enabled : c.sampleLines.viEnabled = c.viEnabled := by rw [viEnabled, same]; rfl
  have others : c.sampleLines.nviEnabled = c.nviEnabled := by rw [nviEnabled, same]; rfl
  rw [trapSource_vi_iff, enabled, others]
  unfold Boundary.takes Boundary.sampled viBoundary outranksVi
  simp only [List.any_cons, List.any_nil, Bool.or_false, sampleLines_pending]
  simp [irqEpu, irqTrap, irqSyscall, irqSegtrap, irqNmi, irqNvi, irqVi]
  clear same enabled others
  grind

/-! ## What a step leaves of the request -/

/-- The vectored request and the record of the served one are what they were. -/
structure Cpu.SameService (c d : Cpu) : Prop where
  serviced : d.serviced = c.serviced
  vi : d.pending irqVi = c.pending irqVi

namespace Cpu.SameService

theorem refl (c : Cpu) : c.SameService c := ⟨rfl, rfl⟩

theorem trans {c d e : Cpu} (first : c.SameService d) (second : d.SameService e) :
    c.SameService e :=
  ⟨second.serviced.trans first.serviced, second.vi.trans first.vi⟩

/-- A request of another kind. -/
theorem request (c : Cpu) {bits : Byte} (other : (bits &&& irqVi != 0) = false) :
    c.SameService (c.request bits) :=
  ⟨rfl, by rw [request_pending, other, Bool.or_false]⟩

/-- An instruction. -/
theorem of_latched {m x : Machine} (latched : Latched m x) : m.cpu.SameService x.cpu := by
  obtain ⟨events, -, state⟩ := latched
  have requests : x.cpu.irqReq &&& ~~~(irqTrap ||| irqSyscall) =
      m.cpu.irqReq &&& ~~~(irqTrap ||| irqSyscall) := congrArg StepState.requests state
  have vectored : ∀ bits : Byte, bits &&& irqVi = bits &&& ~~~(irqTrap ||| irqSyscall) &&& irqVi := by
    intro bits
    rw [BitVec.and_assoc]
    rfl
  refine ⟨congrArg StepState.serviced state, ?_⟩
  rw [pending, pending, vectored, requests, ← vectored]

end Cpu.SameService

theorem fetchOperands_serviced (slots : List (Fin 6)) (p : Long) (m : Machine) :
    (fetchOperands slots p m).2.cpu.serviced = m.cpu.serviced := by
  induction slots generalizing p m with
  | nil => rfl
  | cons i rest inductionHypothesis =>
    exact inductionHypothesis (addrAdd p 2) (Fetched.more m i (addrAdd p 2))

theorem fetchDecode_sameService (m : Machine) : m.cpu.SameService (fetchDecode m).2.cpu := by
  have requests := (fetchDecode_spec m).2.irqReq
  refine ⟨?_, by rw [Cpu.pending, requests, Cpu.pending]⟩
  rw [congrArg Prod.snd (fetchDecode_run m _ rfl)]
  exact fetchOperands_serviced _ _ _

theorem Machine.takeWarning_sameService (m : Machine) : m.cpu.SameService m.takeWarning.cpu := by
  unfold takeWarning
  split
  · exact .request _ (by decide)
  · exact .refl _

theorem nextElement_sameService (w : CtrlWord) (m : Machine) :
    m.cpu.SameService (m.nextElement w).cpu := by
  have executed := Cpu.SameService.of_latched (execute_latching w m.clearRepeat)
  let after := (execute w m.clearRepeat).2
  let counted : Machine := { after with cpu := { after.cpu with insns := after.cpu.insns + 1 } }
  have cleared : m.cpu.SameService m.clearRepeat.cpu := ⟨rfl, rfl⟩
  have same : after.cpu.SameService counted.cpu := ⟨rfl, rfl⟩
  exact cleared.trans (executed.trans (same.trans counted.takeWarning_sameService))

theorem elementRun_sameService (w : CtrlWord) (m : Machine) (k : Nat) :
    m.cpu.SameService (elementRun w m k).cpu := by
  induction k with
  | zero => exact .refl _
  | succ k inductionHypothesis =>
    rw [elementRun_succ]
    exact inductionHypothesis.trans (nextElement_sameService w _)

theorem Machine.leave_sameService (m : Machine) (pc : Long) : m.cpu.SameService (m.leave pc).cpu := by
  unfold leave
  split_ifs
  · exact .trans (.request m.cpu (by decide)) ⟨rfl, rfl⟩
  · exact ⟨rfl, rfl⟩
  · exact .refl _

/-- A step that executes an instruction serves nothing and keeps the vectored
request. -/
theorem stepInstruction_sameService {x r : Machine} {fuel : Nat}
    (returns : stepInstruction fuel x = some r) : x.cpu.SameService r.cpu := by
  have fetched := fetchDecode_sameService x
  cases known : x.decoded with
  | none =>
    rw [stepInstruction_illegal known] at returns
    obtain rfl := Option.some.inj returns
    exact fetched.trans (.trans (.request _ (by decide)) ⟨rfl, rfl⟩)
  | some w =>
    rw [stepInstruction_run known] at returns
    obtain ⟨k, -, -, rfl⟩ :=
      (runInstruction_eq_some_iff w fuel _ r (fetchDecode_fresh x)).mp returns
    have started : (fetchDecode x).2.cpu.SameService (fetchDecode x).2.started.cpu := ⟨rfl, rfl⟩
    exact fetched.trans (started.trans ((elementRun_sameService w _ (k + 1)).trans
      (Machine.leave_sameService _ _)))

/-- A boundary without a trap serves nothing and keeps what it sampled. -/
theorem cpuStep_idle {hook : SysHook} {fuel : Nat} {m r : Machine}
    (idle : m.beginStep.sampled.cpu.trapSource = none) (returns : cpuStep hook fuel m = some r) :
    m.beginStep.sampled.cpu.SameService r.cpu := by
  cases halted : m.beginStep.sampled.cpu.halted with
  | true =>
    rw [cpuStep_halted idle halted] at returns
    obtain rfl := Option.some.inj returns
    exact .refl _
  | false =>
    rw [cpuStep_fetch idle halted] at returns
    exact stepInstruction_sameService returns

theorem enterTrap_serviced (source : TrapSource) (m : Machine) :
    (enterTrap source m).2.cpu.serviced = source.bit := by
  rw [enterTrap_apply]
  rfl

/-- A trap entry withdraws the vectored request exactly when it serves it. -/
theorem enterTrap_vi (source : TrapSource) (m : Machine)
    (single : source.bit = irqVi ∨ (source.bit &&& irqVi) = 0) :
    (enterTrap source m).2.cpu.pending irqVi =
      (m.cpu.pending irqVi && decide (source.bit ≠ irqVi)) := by
  have requests : (enterTrap source m).2.cpu.irqReq = m.cpu.irqReq &&& ~~~source.bit :=
    (enterTrap_requests source m).irqReq
  rw [Cpu.pending, requests, Cpu.pending]
  rcases single with vectored | other
  · have none : m.cpu.irqReq &&& ~~~irqVi &&& irqVi = 0 := by
      rw [BitVec.and_assoc]
      exact BitVec.and_zero
    rw [vectored, none]
    simp
  · have kept : ~~~source.bit &&& irqVi = irqVi := by
      have parts : (~~~source.bit &&& irqVi) ||| (source.bit &&& irqVi) = irqVi := by
        rw [← BitVec.and_or_distrib_right, BitVec.or_comm, BitVec.or_not_self]
        exact BitVec.allOnes_and
      rw [other] at parts
      exact BitVec.or_zero.symm.trans parts
    have apart : source.bit ≠ irqVi := by
      intro same
      rw [same] at other
      exact absurd other (by decide)
    rw [BitVec.and_assoc, kept, decide_eq_true apart, Bool.and_true]

/-- The bits of the sources. -/
theorem Cpu.trapSource_single {c : Cpu} {source : TrapSource} (taken : c.trapSource = some source) :
    source.bit = irqVi ∨ (source.bit &&& irqVi) = 0 := by
  unfold trapSource at taken
  dsimp only at taken
  split_ifs at taken
  all_goals
    obtain rfl := Option.some.inj taken
    dsimp only
    decide

/-! ## One boundary -/

/-- A vectored interrupt taken at a boundary is asked for there: the line is up, the
interrupts are enabled, and the trap entered is that of the highest-priority source that
requests, with its vector as the tag. -/
def Passage.TakesPending (x : Passage) : Prop :=
  x.after.cpu.serviced = irqVi →
    x.before.cpu.viLine = true ∧ x.before.cpu.viEnabled = true ∧
      ∃ vec, x.before.bus.viHighest = some vec ∧
        x.after = (enterTrap ⟨irqVi, 0x1C, vec.setWidth 16⟩ x.before.beginStep.sampled).2

/-- No source requests, an earlier sample of the line is still in the latch, and the
boundary has nothing to keep it from being taken. -/
structure Machine.StaleVi (m : Machine) : Prop where
  quiet : m.bus.viHighest = none
  latched : m.cpu.pending irqVi = true
  enabled : m.cpu.viEnabled = true
  foremost : m.cpu.outranksVi = false

/-- The processor is shown the highest-priority source of its bus. -/
structure Machine.ShowsVi (m : Machine) : Prop where
  line : m.cpu.viLine = m.bus.viHighest.isSome
  vector : ∀ vec, m.bus.viHighest = some vec → m.cpu.viVector = vec.setWidth 16

theorem aggregateVi_shows (s : RunState) : s.aggregateVi.machine.ShowsVi := by
  rw [aggregateVi_machine]
  cases highest : s.machine.bus.viHighest with
  | none => exact ⟨by simp [Cpu.showVi, highest], fun vec some => by simp [highest] at some⟩
  | some vec =>
    refine ⟨by simp [Cpu.showVi, highest], fun other same => ?_⟩
    obtain rfl : vec = other := Option.some.inj (highest.symm.trans same)
    rfl

theorem Machine.atTrap_unhooked (m : Machine) {hook : SysHook} {source : TrapSource}
    (other : source.bit ≠ irqSyscall) : m.atTrap hook source = m.beginStep.sampled := by
  unfold atTrap
  exact if_neg other

/-- At a boundary that shows the sources, exactly the stale latch breaks the rule. -/
theorem Machine.ShowsVi.takesPending_iff {hook : SysHook} {fuel : Nat} {m r : Machine}
    (shows : m.ShowsVi) (returns : cpuStep hook fuel m = some r) :
    (Passage.mk m r).TakesPending ↔ ¬m.StaleVi := by
  have rule : (∃ source, m.beginStep.sampled.cpu.trapSource = some source ∧ source.bit = irqVi) ↔
      m.cpu.viBoundary.takes (m.cpu.pending irqVi) = true := m.beginStep.cpu.sampled_vi_iff
  have stale : m.StaleVi → m.cpu.viBoundary.takes (m.cpu.pending irqVi) = true := by
    rintro ⟨-, latched, enabled, foremost⟩
    simp [Boundary.takes, Boundary.sampled, Cpu.viBoundary, latched, enabled, foremost]
  cases taken : m.beginStep.sampled.cpu.trapSource with
  | none =>
    have nothing : r.cpu.serviced = 0 := by
      obtain ⟨irqReq, sampled⟩ := m.beginStep.cpu.sampleLines_request
      rw [(cpuStep_idle taken returns).serviced, Machine.sampled, sampled]
      rfl
    constructor
    · intro _ isStale
      obtain ⟨source, some, -⟩ := rule.mpr (stale isStale)
      exact absurd (taken.symm.trans some) (by simp)
    · intro _ served
      exact absurd (nothing.symm.trans served) (by decide)
  | some source =>
    rw [cpuStep_trap taken] at returns
    obtain rfl := Option.some.inj returns
    by_cases vectored : source.bit = irqVi
    · obtain rfl := Cpu.trapSource_vi taken vectored
      have takes := rule.mp ⟨_, taken, vectored⟩
      obtain ⟨⟨sampled, enabled⟩, foremost⟩ :
          (m.cpu.viBoundary.sampled (m.cpu.pending irqVi) = true ∧ m.cpu.viEnabled = true) ∧
            m.cpu.outranksVi = false := by
        simpa [Boundary.takes, Cpu.viBoundary] using takes
      have vector : m.beginStep.sampled.cpu.viVector = m.cpu.viVector := by
        obtain ⟨irqReq, same⟩ := m.beginStep.cpu.sampleLines_request
        rw [Machine.sampled, same]
        rfl
      rw [m.atTrap_unhooked (by rw [vectored]; decide), Cpu.viSource, vector]
      cases highest : m.bus.viHighest with
      | none =>
        have low : m.cpu.viLine = false := by rw [shows.line, highest]; rfl
        have latched : m.cpu.pending irqVi = true := by
          simpa [Boundary.sampled, Cpu.viBoundary, low] using sampled
        constructor
        · intro pending _
          have line : m.cpu.viLine = true := (pending (enterTrap_serviced _ _)).1
          exact absurd (low.symm.trans line) Bool.false_ne_true
        · intro fresh
          exact absurd ⟨highest, latched, enabled, foremost⟩ fresh
      | some vec =>
        have line : m.cpu.viLine = true := by rw [shows.line, highest]; rfl
        constructor
        · intro _ stale
          exact absurd (highest.symm.trans stale.quiet) (by simp)
        · intro _ _
          exact ⟨line, enabled, vec, highest, by rw [shows.vector vec highest]⟩
    · constructor
      · intro _ isStale
        obtain ⟨other, some, bit⟩ := rule.mpr (stale isStale)
        obtain rfl := Option.some.inj (taken.symm.trans some)
        exact vectored bit
      · intro _ served
        exact absurd ((enterTrap_serviced _ _).symm.trans served) vectored

/-! ## Runs -/

section Runs

variable {hook : SysHook} {rxOverrunOn : Bool} {start s : RunState} {passages : List Passage}

theorem boundary_shows (s : RunState) (arrivals : List (SccPort × Byte)) :
    (s.boundary rxOverrunOn arrivals).machine.ShowsVi := aggregateVi_shows _

/-- Every passage of a run is at a boundary that shows the sources. -/
theorem LoopRun.takesPending_iff (run : LoopRun hook rxOverrunOn start passages s) :
    ∀ x ∈ passages, (x.TakesPending ↔ ¬x.before.StaleVi) := by
  induction run with
  | start =>
    intro x inside
    exact absurd inside List.not_mem_nil
  | @turn passages s m run goesOn arrivals fuel steps inductionHypothesis =>
    intro x inside
    rcases List.mem_append.mp inside with earlier | last
    · exact inductionHypothesis x earlier
    · obtain rfl := List.mem_singleton.mp last
      exact (boundary_shows s arrivals).takesPending_iff steps

/-- In every run of the machine loop, a vectored interrupt is taken only for a source
that requests at that boundary, and with its vector, exactly when no boundary meets a
request that is left in the latch alone. -/
theorem loopRun_takesPending_iff (run : LoopRun hook rxOverrunOn start passages s) :
    (∀ x ∈ passages, x.TakesPending) ↔ ∀ x ∈ passages, ¬x.before.StaleVi :=
  forall₂_congr run.takesPending_iff

/-! ## Where a stale request comes from -/

theorem Cpu.sampleLines_vi (c : Cpu) :
    c.sampleLines.pending irqVi = c.viBoundary.sampled (c.pending irqVi) := by
  rw [sampleLines_pending]
  unfold Boundary.sampled viBoundary
  simp [irqSegtrap, irqNmi, irqNvi, irqVi]

/-- A step moves the request by the rule of the latch. -/
theorem cpuStep_vi {fuel : Nat} {m r : Machine} (returns : cpuStep none fuel m = some r) :
    r.cpu.pending irqVi = m.cpu.viBoundary.next (m.cpu.pending irqVi) := by
  have rule : (∃ source, m.beginStep.sampled.cpu.trapSource = some source ∧ source.bit = irqVi) ↔
      m.cpu.viBoundary.takes (m.cpu.pending irqVi) = true := m.beginStep.cpu.sampled_vi_iff
  have sampled : m.beginStep.sampled.cpu.pending irqVi =
      m.cpu.viBoundary.sampled (m.cpu.pending irqVi) := m.beginStep.cpu.sampleLines_vi
  cases taken : m.beginStep.sampled.cpu.trapSource with
  | none =>
    have leaves : m.cpu.viBoundary.takes (m.cpu.pending irqVi) = false := by
      rw [← Bool.not_eq_true, ← rule, taken]
      rintro ⟨source, some, -⟩
      exact absurd some (by simp)
    rw [(cpuStep_idle taken returns).vi, sampled, Boundary.next, leaves, Bool.not_false,
      Bool.and_true]
  | some source =>
    rw [cpuStep_trap taken] at returns
    obtain rfl := Option.some.inj returns
    have unhooked : (m.atTrap none source).cpu = m.beginStep.sampled.cpu := by
      unfold Machine.atTrap
      split_ifs <;> rfl
    have takes : m.cpu.viBoundary.takes (m.cpu.pending irqVi) = decide (source.bit = irqVi) := by
      rw [Bool.eq_iff_iff, ← rule, taken, decide_eq_true_iff]
      constructor
      · rintro ⟨other, same, bit⟩
        rw [Option.some.inj same]
        exact bit
      · exact fun bit => ⟨source, rfl, bit⟩
    rw [enterTrap_vi source _ (Cpu.trapSource_single taken), unhooked, sampled, Boundary.next,
      takes, decide_not]

/-- The start of a turn leaves the request alone. -/
theorem boundary_vi (rxOverrunOn : Bool) (s : RunState) (arrivals : List (SccPort × Byte)) :
    (s.boundary rxOverrunOn arrivals).machine.cpu.pending irqVi = s.machine.cpu.pending irqVi := by
  unfold RunState.boundary
  rw [aggregateVi_machine]
  dsimp only
  cases Bus.viHighest _ <;> rfl

/-- The latch along a run without a service from outside. -/
theorem LoopRun.vi_history (run : LoopRun none rxOverrunOn start passages s)
    (fresh : start.machine.cpu.pending irqVi = false) :
    s.machine.cpu.pending irqVi = runEvents (fun latch x => Boundary.next latch x) false
      (passages.map fun x => x.before.cpu.viBoundary) := by
  induction run with
  | start => exact fresh
  | @turn passages s m run goesOn arrivals fuel steps inductionHypothesis =>
    have kept := boundary_vi rxOverrunOn s arrivals
    rw [List.map_append, List.map_singleton, runEvents_append, ← inductionHypothesis, ← kept]
    have stepped := cpuStep_vi steps
    exact stepped

/-- A boundary meets a stale request exactly when an earlier one sampled the line and
took something of higher priority, and no vectored interrupt was taken since. -/
theorem LoopRun.staleVi_iff (run : LoopRun none rxOverrunOn start passages s)
    (fresh : start.machine.cpu.pending irqVi = false) (arrivals : List (SccPort × Byte)) :
    (s.boundary rxOverrunOn arrivals).machine.StaleVi ↔
      (s.boundary rxOverrunOn arrivals).machine.bus.viHighest = none ∧
        (s.boundary rxOverrunOn arrivals).machine.cpu.viEnabled = true ∧
        (s.boundary rxOverrunOn arrivals).machine.cpu.outranksVi = false ∧
        Since (fun latch x => Boundary.next latch x) (fun _ x => x.Defers)
          (fun latch x => x.takes latch = true) false
          (passages.map fun x => x.before.cpu.viBoundary) := by
  have latch := run.vi_history fresh
  have kept := boundary_vi rxOverrunOn s arrivals
  rw [← Boundary.runEvents_next_iff, ← latch, ← kept]
  constructor
  · rintro ⟨quiet, latched, enabled, foremost⟩
    exact ⟨quiet, enabled, foremost, latched⟩
  · rintro ⟨quiet, enabled, foremost, latched⟩
    exact ⟨quiet, latched, enabled, foremost⟩

end Runs

/-! ## A run that takes a withdrawn request -/

/-- Boot code: the console receiver is enabled and the system called. The call's
handler reads the console by polling and enables vectored interrupts again. -/
def pollingRom (a : Long) : Byte :=
  if a < 0x40 then
    if a = 0x02 then 0xD0 else if a = 0x07 then 0x40
    else if a = 0x1A then 0xC0 else if a = 0x1F then 0x60 else 0
  else if a < 0x60 then
    -- LDB RL0,#8; OUTB #0112,RL0; OUTB #0102,RL0; SC #0
    ([0xC8, 0x08, 0x3A, 0x86, 0x01, 0x12, 0x3A, 0x86, 0x01, 0x02, 0x7F, 0x00] : List Byte).getD
      (a.toNat - 0x40) 0
  else
    -- INB RL0,#0110; EI VI
    ([0x3A, 0x84, 0x01, 0x10, 0x7C, 0x05] : List Byte).getD (a.toNat - 0x60) 0

/-- A new machine with that code in its ROM. -/
def polling : Machine := { machineNew with bus := { machineNew.bus with rom := pollingRom } }

/-- A character comes in while the system call is pending. -/
def pollingScript : List (List (SccPort × Byte)) := [[], [], [], [], [(0, 0x41)], [], [], []]

theorem polling_returns :
    (runTurns none false 0 pollingScript polling.enterLoop).isSome = true := by decide +kernel

/-- Its eight turns. -/
@[irreducible] def pollingRun : List Passage × RunState :=
  (runTurns none false 0 pollingScript polling.enterLoop).get polling_returns

theorem runTurns_polling :
    runTurns none false 0 pollingScript polling.enterLoop = some pollingRun := by
  unfold pollingRun
  exact (Option.some_get polling_returns).symm

theorem pollingRun_run : LoopRun none false polling.enterLoop pollingRun.1 pollingRun.2 := by
  have run := LoopRun.start.turns
    (Eq.trans runTurns_polling (congrArg some (Prod.eta pollingRun).symm))
  rwa [List.nil_append] at run

theorem loopRun_takesPending_iff_polling :
    (∀ x ∈ pollingRun.1, x.TakesPending) ↔ ∀ x ∈ pollingRun.1, ¬x.before.StaleVi :=
  loopRun_takesPending_iff pollingRun_run

/-- The last boundary takes the interrupt of a character that the handler has read. -/
theorem pollingRun_takes_withdrawn :
    LoopRun none false polling.enterLoop pollingRun.1 pollingRun.2 ∧
      ¬∀ x ∈ pollingRun.1, x.TakesPending := by
  refine ⟨pollingRun_run, fun takes => ?_⟩
  have taken : pollingRun.1.any (fun x => x.after.cpu.serviced == irqVi && !x.before.cpu.viLine) =
      true := by decide +kernel
  obtain ⟨x, inside, served⟩ := List.any_eq_true.mp taken
  obtain ⟨vectored, low⟩ := Bool.and_eq_true_iff.mp served
  have line := (takes x inside (eq_of_beq vectored)).1
  rw [line] at low
  exact absurd low (by decide)

end C900
