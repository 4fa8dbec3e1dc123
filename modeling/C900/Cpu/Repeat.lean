import C900.Cpu.Element
import C900.Cpu.Step
import Mathlib.Logic.Function.Iterate

/-!
# The run of elements

The in-place repeat loop, seen from outside: the machines after each element, the
first of them that ends the loop, and how the loop leaves it.
-/

namespace C900

/-- An element is the instruction, its count, and perhaps a trap request. -/
theorem executeElement_cpu (w : CtrlWord) (m : Machine) : ∃ irqReq,
    (executeElement w m).cpu = { (execute w m).2.cpu with
      insns := (execute w m).2.cpu.insns + 1, irqReq := irqReq } := by
  unfold executeElement Machine.takeWarning
  dsimp only
  split
  · exact ⟨_, rfl⟩
  · exact ⟨_, rfl⟩

/-- One turn of the loop: drop the wish to repeat and execute the next element. -/
def Machine.nextElement (w : CtrlWord) (m : Machine) : Machine := executeElement w m.clearRepeat

/-- The machine after `k` elements. -/
def elementRun (w : CtrlWord) (m : Machine) (k : Nat) : Machine := (Machine.nextElement w)^[k] m

theorem elementRun_succ (w : CtrlWord) (m : Machine) (k : Nat) :
    elementRun w m (k + 1) = (elementRun w m k).nextElement w :=
  Function.iterate_succ_apply' (Machine.nextElement w) k m

/-- The loop does not go on from here. -/
def Machine.settled (m : Machine) : Bool :=
  m.cpu.fault || !m.cpu.repeatPending || m.cpu.preempted

/-- How the step ends at a settled machine; `pc` is where a hard fault leaves the
program counter. -/
def Machine.leave (m : Machine) (pc : Long) : Machine :=
  if m.cpu.fault then m.abort pc
  else if m.cpu.repeatPending then m.clearRepeat.rewind
  else m

/-- The run first settles after `k` elements. -/
structure EndsAfter (w : CtrlWord) (m : Machine) (k : Nat) : Prop where
  before : ∀ j < k, (elementRun w m j).settled = false
  last : (elementRun w m k).settled = true

namespace EndsAfter

variable {w : CtrlWord} {m : Machine} {k l : Nat}

theorem unique (first : EndsAfter w m k) (second : EndsAfter w m l) : k = l := by
  rcases Nat.lt_trichotomy k l with below | same | above
  · exact absurd first.last (by simp [second.before k below])
  · exact same
  · exact absurd second.last (by simp [first.before l above])

/-- A settled machine ends its run at once. -/
theorem zero_iff : EndsAfter w m 0 ↔ m.settled = true :=
  ⟨fun ends => ends.last, fun settled => ⟨fun j below => absurd below (Nat.not_lt_zero j), settled⟩⟩

theorem succ_iff : EndsAfter w m (k + 1) ↔ m.settled = false ∧ EndsAfter w (m.nextElement w) k := by
  constructor
  · intro ends
    exact ⟨ends.before 0 (Nat.succ_pos k),
      fun j below => ends.before (j + 1) (Nat.succ_lt_succ below), ends.last⟩
  · rintro ⟨goesOn, ends⟩
    refine ⟨fun j below => ?_, ends.last⟩
    cases j with
    | zero => exact goesOn
    | succ j => exact ends.before j (Nat.lt_of_succ_lt_succ below)

/-- A run that settles at all settles first somewhere. -/
theorem exists_of_settled (n : Nat) (settled : (elementRun w m n).settled = true) :
    ∃ k ≤ n, EndsAfter w m k := by
  induction n using Nat.strongRecOn with
  | _ n inductionHypothesis =>
    by_cases earlier : ∃ j < n, (elementRun w m j).settled = true
    · obtain ⟨j, below, settledAt⟩ := earlier
      obtain ⟨k, bound, ends⟩ := inductionHypothesis j below settledAt
      exact ⟨k, Nat.le_of_lt (Nat.lt_of_le_of_lt bound below), ends⟩
    · refine ⟨n, Nat.le_refl n, fun j below => ?_, settled⟩
      cases state : (elementRun w m j).settled with
      | false => rfl
      | true => exact absurd ⟨j, below, state⟩ earlier

end EndsAfter

/-! ## The loop -/

section

variable {w : CtrlWord} {m : Machine} (clean : m.cpu.fault = false)

include clean

theorem repeatLoop_settled (fuel : Nat) (settled : m.settled = true) :
    repeatLoop w fuel m = some (m.leave m.cpu.instrStart) := by
  unfold repeatLoop Machine.leave
  rw [clean]
  cases pending : m.cpu.repeatPending with
  | false => rfl
  | true =>
    have preempted : m.cpu.preempted = true := by
      simpa [Machine.settled, clean, pending] using settled
    have held : m.clearRepeat.cpu.preempted = true := preempted
    simp only [if_true, held, Bool.false_eq_true, if_false]

theorem repeatLoop_exhausted (goesOn : m.settled = false) : repeatLoop w 0 m = none := by
  have pending : m.cpu.repeatPending = true ∧ m.cpu.preempted = false := by
    simpa [Machine.settled, clean] using goesOn
  have free : m.clearRepeat.cpu.preempted = false := pending.2
  unfold repeatLoop
  simp only [pending.1, if_true, free, Bool.false_eq_true, if_false]

theorem repeatLoop_next (fuel : Nat) (goesOn : m.settled = false) :
    repeatLoop w (fuel + 1) m =
      if (m.nextElement w).cpu.fault then
        some ((m.nextElement w).leave (m.nextElement w).cpu.instrStart)
      else repeatLoop w fuel (m.nextElement w) := by
  have pending : m.cpu.repeatPending = true ∧ m.cpu.preempted = false := by
    simpa [Machine.settled, clean] using goesOn
  have free : m.clearRepeat.cpu.preempted = false := pending.2
  have unfolded : repeatLoop w (fuel + 1) m =
      if (m.nextElement w).cpu.fault then
        some ((m.nextElement w).abort (m.nextElement w).cpu.instrStart)
      else repeatLoop w fuel (m.nextElement w) := by
    rw [repeatLoop]
    simp only [pending.1, if_true, free, Bool.false_eq_true, if_false]
    rfl
  rw [unfolded]
  split
  · rename_i fault
    simp only [Machine.leave, fault, if_true]
  · rfl

/-- The loop ends at the first settled machine of the run. -/
theorem repeatLoop_eq_some_iff (fuel : Nat) (after : Machine) :
    repeatLoop w fuel m = some after ↔
      ∃ k ≤ fuel, EndsAfter w m k ∧
        after = (elementRun w m k).leave (elementRun w m k).cpu.instrStart := by
  have atOnce : ∀ (fuel : Nat) (n : Machine), n.settled = true →
      (some (n.leave n.cpu.instrStart) = some after ↔
        ∃ k ≤ fuel, EndsAfter w n k ∧
          after = (elementRun w n k).leave (elementRun w n k).cpu.instrStart) := by
    intro fuel n settled
    have first : EndsAfter w n 0 := EndsAfter.zero_iff.mpr settled
    constructor
    · intro ends
      exact ⟨0, Nat.zero_le _, first, (Option.some.inj ends).symm⟩
    · rintro ⟨k, -, ends, result⟩
      obtain rfl := ends.unique first
      rw [result]
      rfl
  induction fuel generalizing m with
  | zero =>
    cases state : m.settled with
    | true =>
      rw [repeatLoop_settled clean 0 state]
      exact atOnce 0 m state
    | false =>
      rw [repeatLoop_exhausted clean state]
      constructor
      · intro ends
        cases ends
      · rintro ⟨k, bound, ends, -⟩
        obtain rfl := Nat.le_zero.mp bound
        exact absurd (EndsAfter.zero_iff.mp ends) (by simp [state])
  | succ fuel inductionHypothesis =>
    cases state : m.settled with
    | true =>
      rw [repeatLoop_settled clean (fuel + 1) state]
      exact atOnce (fuel + 1) m state
    | false =>
      have shifted : (∃ k ≤ fuel + 1, EndsAfter w m k ∧
            after = (elementRun w m k).leave (elementRun w m k).cpu.instrStart) ↔
          ∃ k ≤ fuel, EndsAfter w (m.nextElement w) k ∧
            after = (elementRun w (m.nextElement w) k).leave
              (elementRun w (m.nextElement w) k).cpu.instrStart := by
        constructor
        · rintro ⟨k, bound, ends, result⟩
          cases k with
          | zero => exact absurd (EndsAfter.zero_iff.mp ends) (by simp [state])
          | succ k => exact ⟨k, Nat.le_of_succ_le_succ bound, (EndsAfter.succ_iff.mp ends).2, result⟩
        · rintro ⟨k, bound, ends, result⟩
          exact ⟨k + 1, Nat.succ_le_succ bound, EndsAfter.succ_iff.mpr ⟨state, ends⟩, result⟩
      rw [repeatLoop_next clean fuel state, shifted]
      cases fault : (m.nextElement w).cpu.fault with
      | true =>
        have settled : (m.nextElement w).settled = true := by simp [Machine.settled, fault]
        exact atOnce fuel (m.nextElement w) settled
      | false => exact inductionHypothesis fault

end

/-! ## The instruction -/

/-- The machine an instruction starts on: the program counter is behind it. -/
def Machine.started (m : Machine) : Machine := { m with cpu := { m.cpu with pc := m.cpu.pcNext } }

/-- Where a hard fault leaves the program counter: behind the instruction `m` when
its first element faults, on the instruction when element `k + 1` does. -/
def Machine.faultPc (m : Machine) (w : CtrlWord) (k : Nat) : Long :=
  if k = 0 then m.cpu.pcNext else (elementRun w m.started (k + 1)).cpu.instrStart

/-- A fresh machine starts an instruction like the next turn of a loop. -/
theorem started_nextElement {w : CtrlWord} {m : Machine} (fresh : m.cpu.repeatPending = false) :
    m.started.nextElement w = executeElement w m.started := by
  have cleared : m.started.clearRepeat = m.started := by
    simp only [Machine.clearRepeat, Machine.started, fresh]
  rw [Machine.nextElement, cleared]

/-- An instruction of one element. -/
theorem runInstruction_single {w : CtrlWord} {m : Machine} (fuel : Nat)
    (calm : (execute w m.started).2.cpu.fault = false)
    (single : (execute w m.started).2.cpu.repeatPending = false) :
    runInstruction fuel w m = some (executeElement w m.started) := by
  obtain ⟨irqReq, counted⟩ := executeElement_cpu w m.started
  have noFault : (executeElement w m.started).cpu.fault = false := by
    rw [counted]
    exact calm
  have noRepeat : (executeElement w m.started).cpu.repeatPending = false := by
    rw [counted]
    exact single
  have run : runInstruction fuel w m =
      if (executeElement w m.started).cpu.fault then
        some ((executeElement w m.started).abort m.cpu.pcNext)
      else repeatLoop w fuel (executeElement w m.started) := rfl
  have settled : (executeElement w m.started).settled = true := by
    rw [Machine.settled, noRepeat]
    simp
  rw [run, noFault, if_neg Bool.false_ne_true, repeatLoop_settled noFault fuel settled,
    Machine.leave, noFault, if_neg Bool.false_ne_true, noRepeat, if_neg Bool.false_ne_true]

/-- An instruction ends at the first settled machine of its run. -/
theorem runInstruction_eq_some_iff (w : CtrlWord) (fuel : Nat) (m after : Machine)
    (fresh : m.cpu.repeatPending = false) :
    runInstruction fuel w m = some after ↔
      ∃ k ≤ fuel, EndsAfter w (m.started.nextElement w) k ∧
        after = (elementRun w m.started (k + 1)).leave (m.faultPc w k) := by
  have unfolded : runInstruction fuel w m =
      if (m.started.nextElement w).cpu.fault then
        some ((m.started.nextElement w).abort m.cpu.pcNext)
      else repeatLoop w fuel (m.started.nextElement w) := by
    rw [started_nextElement fresh]
    rfl
  rw [unfolded]
  cases fault : (m.started.nextElement w).cpu.fault with
  | true =>
    have settled : (m.started.nextElement w).settled = true := by simp [Machine.settled, fault]
    have ends : EndsAfter w (m.started.nextElement w) 0 := EndsAfter.zero_iff.mpr settled
    have left : (m.started.nextElement w).leave m.cpu.pcNext =
        (m.started.nextElement w).abort m.cpu.pcNext := by simp only [Machine.leave, fault, if_true]
    rw [if_pos rfl, ← left]
    constructor
    · intro result
      exact ⟨0, Nat.zero_le _, ends, (Option.some.inj result).symm⟩
    · rintro ⟨k, -, endsAt, result⟩
      obtain rfl := endsAt.unique ends
      rw [result]
      rfl
  | false =>
    rw [if_neg Bool.false_ne_true, repeatLoop_eq_some_iff fault fuel after]
    refine exists_congr fun k => and_congr_right fun _ => and_congr_right fun ends => ?_
    cases k with
    | zero =>
      have same : ∀ pc, (m.started.nextElement w).leave pc =
          (m.started.nextElement w).leave m.cpu.pcNext := by
        intro pc
        simp only [Machine.leave, fault, Bool.false_eq_true, if_false]
      show after = (m.started.nextElement w).leave _ ↔ after = (m.started.nextElement w).leave _
      rw [same, same (m.faultPc w 0)]
    | succ k => exact Iff.rfl

/-- An instruction returns within `fuel` more elements when its run settles there. -/
theorem runInstruction_isSome_iff (w : CtrlWord) (fuel : Nat) (m : Machine)
    (fresh : m.cpu.repeatPending = false) :
    (runInstruction fuel w m).isSome = true ↔
      ∃ k ≤ fuel, (elementRun w m.started (k + 1)).settled = true := by
  rw [Option.isSome_iff_exists]
  constructor
  · rintro ⟨after, returns⟩
    obtain ⟨k, bound, ends, -⟩ := (runInstruction_eq_some_iff w fuel m after fresh).mp returns
    exact ⟨k, bound, ends.last⟩
  · rintro ⟨n, bound, settled⟩
    obtain ⟨k, below, ends⟩ := EndsAfter.exists_of_settled (m := m.started.nextElement w) n settled
    exact ⟨_, (runInstruction_eq_some_iff w fuel m _ fresh).mpr
      ⟨k, Nat.le_trans below bound, ends, rfl⟩⟩

/-! ## The step -/

/-- The instruction that a step executes, with the machine behind its fetch. A step
that takes a trap, stays halted or meets an illegal encoding executes none. -/
def Machine.instruction (hook : SysHook) (m : Machine) : Option (CtrlWord × Machine) :=
  match handleInterrupts hook m.beginStep with
  | (true, _) => none
  | (false, m) =>
    if m.cpu.halted then none
    else match fetchDecode m with
      | (none, _) => none
      | (some w, m) => some (w, m)

theorem cpuStep_of_instruction {hook : SysHook} {m d : Machine} {w : CtrlWord}
    (runs : m.instruction hook = some (w, d)) (fuel : Nat) :
    cpuStep hook fuel m = runInstruction fuel w d := by
  unfold Machine.instruction at runs
  unfold cpuStep
  rcases taken : handleInterrupts hook m.beginStep with ⟨trap, interrupted⟩
  cases trap with
  | true => simp [taken] at runs
  | false =>
    simp only [taken] at runs ⊢
    split at runs
    · cases runs
    · rename_i awake
      simp only [awake, Bool.false_eq_true, if_false, stepInstruction]
      rcases fetched : fetchDecode interrupted with ⟨decoded, fetchedMachine⟩
      cases decoded with
      | none => simp [fetched] at runs
      | some word =>
        simp only [fetched, Option.some.injEq, Prod.mk.injEq] at runs
        simp only [runs]

/-- A step without an instruction returns. -/
theorem cpuStep_of_none {hook : SysHook} {m : Machine} (idle : m.instruction hook = none)
    (fuel : Nat) : (cpuStep hook fuel m).isSome = true := by
  unfold Machine.instruction at idle
  unfold cpuStep
  rcases taken : handleInterrupts hook m.beginStep with ⟨trap, interrupted⟩
  cases trap with
  | true => rfl
  | false =>
    simp only [taken] at idle ⊢
    split at idle
    · rename_i halted
      simp only [halted, if_true]
      rfl
    · rename_i awake
      simp only [awake, Bool.false_eq_true, if_false, stepInstruction]
      rcases fetched : fetchDecode interrupted with ⟨decoded, fetchedMachine⟩
      cases decoded with
      | none => rfl
      | some word => simp [fetched] at idle

theorem fetchOperands_built {rept : Bool} (slots : List (Fin 6)) (p : Long) :
    PlainProgram rept (fetchOperands slots p) := by
  induction slots generalizing p with
  | nil => exact .skip
  | cons i rest inductionHypothesis =>
      refine Built.bind (PlainProgram.fetch _) fun v => Built.bind ?_ fun _ => inductionHypothesis _
      exact PlainProgram.modify _ fun _ => rfl

/-- The fetch is a program too. -/
theorem fetchWords_built {rept : Bool} : PlainProgram rept fetchWords := by
  refine PlainProgram.get.bind fun c => Built.bind (PlainProgram.fetch _) fun op0 => ?_
  refine Built.bind ?_ fun _ => (fetchOperands_built _ _).bind fun _ => Built.bind ?_ fun _ => ?_
  · exact PlainProgram.modify _ fun _ => rfl
  · exact PlainProgram.modify _ fun _ => rfl
  · exact PlainProgram.get.bind fun _ => .pure _

theorem fetchDecode_fresh (m : Machine) : (fetchDecode m).2.cpu.repeatPending = false :=
  Quiet.ofUser fetchWords_built.user { m with cpu := m.cpu.beginFetch }

theorem fetchDecode_pool {m d : Machine} {w : CtrlWord} (fetched : fetchDecode m = (some w, d)) :
    w ∈ pool := by
  have decoded : (fetchDecode m).1 = some w := by rw [fetched]
  exact decodeLookup_mem decoded

theorem instruction_fetched {hook : SysHook} {m d : Machine} {w : CtrlWord}
    (runs : m.instruction hook = some (w, d)) : ∃ before, fetchDecode before = (some w, d) := by
  unfold Machine.instruction at runs
  split at runs
  · cases runs
  · rename_i before _
    split at runs
    · cases runs
    · rcases fetched : fetchDecode before with ⟨decoded, after⟩
      cases decoded with
      | none => simp [fetched] at runs
      | some word =>
        simp only [fetched, Option.some.injEq, Prod.mk.injEq] at runs
        exact ⟨before, by rw [fetched, runs.1, runs.2]⟩

theorem instruction_pool {hook : SysHook} {m d : Machine} {w : CtrlWord}
    (runs : m.instruction hook = some (w, d)) : w ∈ pool := by
  obtain ⟨before, fetched⟩ := instruction_fetched runs
  exact fetchDecode_pool fetched

theorem instruction_fresh {hook : SysHook} {m d : Machine} {w : CtrlWord}
    (runs : m.instruction hook = some (w, d)) : d.cpu.repeatPending = false := by
  obtain ⟨before, fetched⟩ := instruction_fetched runs
  have fresh := fetchDecode_fresh before
  rwa [fetched] at fresh

end C900
