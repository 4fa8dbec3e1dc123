import C900.Cpu.Report

/-!
# What halts the processor

Only HALT sets the halted flag, and only in system mode; only the entry of a trap clears
it. So a step of a running processor leaves it halted exactly when the instruction that
the step executes is a HALT in system mode.
-/

namespace C900

/-! ## The other instructions -/

/-- The operations of an instruction, its guarded blocks included: none reaches the halted
flag. -/
inductive AwakeOp : Operations Machine where
  | modify (f : Cpu → Cpu) (keeps : ∀ c, (f c).halted = c.halted) : AwakeOp (modifyCpu f)
  | get : AwakeOp getCpu
  | fetch (a : Long) : AwakeOp (ifetch16 a)
  | readWord (a : Long) : AwakeOp (memR16 a)
  | readByte (a : Long) : AwakeOp (memR8 a)
  | writeWord (a : Long) (v : Word) : AwakeOp (memW16 a v)
  | writeByte (a : Long) (v : Byte) : AwakeOp (memW8 a v)
  | ioRead (port : Word) (isByte special : Bool) : AwakeOp (ioReadCycle port isByte special)
  | ioWrite (port data : Word) (isByte special : Bool) :
      AwakeOp (ioWriteCycle port data isByte special)

/-- A program that leaves the halted flag alone. -/
abbrev AwakeProgram {α : Type} (x : Exec α) : Prop := Built AwakeOp x

theorem AwakeProgram.halted {α : Type} {x : Exec α} (program : AwakeProgram x) (m : Machine) :
    (x m).2.cpu.halted = m.cpu.halted := by
  refine program.preserves (fun s t => t.cpu.halted = s.cpu.halted) (fun _ => rfl)
    (fun _ _ _ first second => second.trans first) ?_ m
  intro β y operation s
  cases operation with
  | modify f keeps => exact keeps s.cpu
  | ioRead port isByte special => exact congrArg Cpu.halted (ioRead_cpu s port special)
  | ioWrite port data isByte special => exact congrArg Cpu.halted (ioWrite_cpu s port data special)
  | _ => rfl

/-- A program that needs no privilege leaves the flag alone. -/
theorem PlainProgram.awake {rept : Bool} {α : Type} {x : Exec α} (program : PlainProgram rept x) :
    AwakeProgram x := by
  refine program.mono fun β y operation => ?_
  cases operation with
  | get => exact .get
  | modify f keeps => exact .modify f fun c => congrArg ControlState.halted (keeps c)
  | fetch a => exact .fetch a
  | readWord a => exact .readWord a
  | readByte a => exact .readByte a
  | writeWord a v => exact .writeWord a v
  | writeByte a v => exact .writeByte a v

namespace AwakeProgram

theorem update (f : Cpu → Cpu) (keeps : ∀ c, (f c).halted = c.halted) :
    AwakeProgram (modifyCpu f) := .op (.modify f keeps)

theorem read : AwakeProgram getCpu := .op .get

/-- A guarded block; in normal mode it raises a request instead. -/
theorem guarded {body : Exec Unit} (inSystem : AwakeProgram body) :
    AwakeProgram (privileged body) :=
  read.bind fun _ => inSystem.ite (update _ fun _ => rfl)

theorem word (a : Long) : AwakeProgram (memR16 a) := .op (.readWord a)

end AwakeProgram

namespace Cpu

theorem wb_halted (c : Cpu) (r : Reg) (v : Byte) : (c.wb r v).halted = c.halted :=
  congrArg ControlState.halted (@wb_control true c r v)

theorem changeFcw_halted (c : Cpu) (nf : Word) : (c.changeFcw nf).halted = c.halted := by
  unfold changeFcw
  dsimp only
  split_ifs <;> rfl

theorem ldctlWrite_halted (c : Cpu) : c.ldctlWrite.halted = c.halted := by
  unfold ldctlWrite
  dsimp only
  split
  · exact c.changeFcw_halted _
  all_goals rfl

theorem fcwOperation_halted (c : Cpu) (w : CtrlWord) : (c.fcwOperation w).halted = c.halted := by
  unfold fcwOperation
  cases w.fcwOp with
  | storeLo => exact c.wb_halted _ _
  | _ => rfl

theorem multiProc_halted (c : Cpu) (w : CtrlWord) : (c.multiProc w).halted = c.halted := by
  unfold multiProc
  cases w.mpOp <;> rfl

end Cpu

open AwakeProgram

theorem execIo_awake (w : CtrlWord) : AwakeProgram (execIo w) := by
  refine guarded (read.bind fun c => .ite (.op (.ioWrite _ _ _ _)) ?_)
  refine .bind (.op (.ioRead _ _ _)) fun v => update _ fun d => ?_
  split
  · exact d.wb_halted _ _
  · rfl

theorem execLdctl_awake : AwakeProgram execLdctl := by
  refine guarded (update _ fun c => ?_)
  split
  · rfl
  · exact c.ldctlWrite_halted

theorem execLdps_awake (w : CtrlWord) : AwakeProgram (execLdps w) := by
  refine guarded (read.bind fun c => .ite ?_ ?_)
  · exact (word _).bind fun _ => (word _).bind fun _ => (word _).bind fun _ =>
      update _ fun d => Cpu.changeFcw_halted _ _
  · exact (word _).bind fun _ => (word _).bind fun _ => update _ fun d => Cpu.changeFcw_halted _ _

theorem execIret_awake : AwakeProgram execIret := by
  have pop : AwakeProgram popWord := (@popWord_built true).awake
  refine guarded (pop.bind fun _ => pop.bind fun _ => read.bind fun c => .ite ?_ ?_)
  · exact pop.bind fun _ => pop.bind fun _ => update _ fun d => Cpu.changeFcw_halted _ _
  · exact pop.bind fun _ => update _ fun d => Cpu.changeFcw_halted _ _

theorem execBlockIo_awake (w : CtrlWord) : AwakeProgram (execBlockIo w) := by
  have finish : AwakeProgram (modifyCpu fun c =>
      (c.addToAddrReg (c.ioAddrReg w) w.delta).endTransfer w) := by
    refine update _ fun d => ?_
    exact congrArg ControlState.halted
      ((d.addToAddrReg (d.ioAddrReg w) w.delta).endTransfer_control w)
  refine guarded (read.bind fun c => .ite ?_ ?_)
  · exact (@memReadElement_built true w _).awake.bind fun _ =>
      .bind (.op (.ioWrite _ _ _ _)) fun _ => finish
  · exact .bind (.op (.ioRead _ _ _)) fun _ =>
      (@memWriteElement_built true w _ _).awake.bind fun _ => finish

/-- No instruction but HALT reaches the halted flag. -/
theorem execute_awake {w : CtrlWord} (decoded : w ∈ pool) (other : w.exec ≠ .halt) :
    AwakeProgram (execute w) := by
  cases guard : w.isPrivileged with
  | false => exact (execute_plain decoded guard).awake
  | true =>
    unfold CtrlWord.isPrivileged at guard
    unfold execute
    cases kind : w.exec with
    | fcwOp =>
      simp only [kind] at guard
      simp only [execFcwOp, guard, if_true]
      exact guarded (update _ fun c => c.fcwOperation_halted w)
    | io => exact execIo_awake w
    | ldctl => exact execLdctl_awake
    | blockIo => exact execBlockIo_awake w
    | multiProc => exact guarded (update _ fun c => c.multiProc_halted w)
    | ldps => exact execLdps_awake w
    | halt => exact absurd kind other
    | iret => exact execIret_awake
    | _ => simp [kind] at guard

/-! ## The step -/

/-- A step that takes a trap executes no instruction. -/
theorem instruction_trap {hook : SysHook} {m : Machine} {source : TrapSource}
    (taken : m.beginStep.sampled.cpu.trapSource = some source) : m.instruction hook = none := by
  have interrupts : (handleInterrupts hook m.beginStep).1 = true := by
    rw [handleInterrupts_apply, takeInterrupt, taken]
    dsimp only
    split_ifs
    · cases hook <;> rfl
    · rfl
  unfold Machine.instruction
  rcases run : handleInterrupts hook m.beginStep with ⟨trap, after⟩
  rw [run] at interrupts
  obtain rfl : trap = true := interrupts
  rfl

/-- The instruction of a step that fetches. -/
theorem instruction_fetch {hook : SysHook} {m : Machine}
    (idle : m.beginStep.sampled.cpu.trapSource = none)
    (awake : m.beginStep.sampled.cpu.halted = false) :
    m.instruction hook =
      m.beginStep.sampled.decoded.map fun w => (w, (fetchDecode m.beginStep.sampled).2) := by
  have decoded := (fetchDecode_spec m.beginStep.sampled).1
  unfold Machine.instruction
  rw [handleInterrupts_idle hook idle, ← decoded]
  dsimp only
  rw [if_neg (by rw [awake]; exact Bool.false_ne_true)]
  rcases fetchDecode m.beginStep.sampled with ⟨word, after⟩
  cases word <;> rfl

/-- An instruction runs at a boundary without a request, in a processor that is awake. -/
theorem instruction_boundary {hook : SysHook} {m d : Machine} {w : CtrlWord}
    (runs : m.instruction hook = some (w, d)) :
    m.beginStep.sampled.cpu.trapSource = none ∧ m.beginStep.sampled.cpu.halted = false ∧
      fetchDecode m.beginStep.sampled = (some w, d) := by
  have idle : m.beginStep.sampled.cpu.trapSource = none := by
    cases taken : m.beginStep.sampled.cpu.trapSource with
    | none => rfl
    | some source =>
      rw [instruction_trap taken] at runs
      cases runs
  unfold Machine.instruction at runs
  rw [handleInterrupts_idle hook idle] at runs
  dsimp only at runs
  split_ifs at runs with halted
  refine ⟨idle, (Bool.not_eq_true _).mp halted, ?_⟩
  generalize fetchDecode m.beginStep.sampled = fetch at runs ⊢
  obtain ⟨decoded, after⟩ := fetch
  cases decoded with
  | none => cases runs
  | some word =>
    obtain ⟨rfl, rfl⟩ := Prod.mk.inj (Option.some.inj runs)
    rfl

/-- The step executes a HALT in system mode. -/
def Machine.Halts (hook : SysHook) (m : Machine) : Prop :=
  ∃ w d, m.instruction hook = some (w, d) ∧ w.exec = .halt ∧ d.cpu.sysmode = true

instance (hook : SysHook) (m : Machine) : Decidable (m.Halts hook) :=
  match runs : m.instruction hook with
  | none => isFalse fun ⟨_, _, is, _⟩ => nomatch runs.symm.trans is
  | some (w, d) =>
    if halts : w.exec = .halt ∧ d.cpu.sysmode = true then isTrue ⟨w, d, runs, halts⟩
    else isFalse fun ⟨_, _, same, is⟩ => halts (by
      obtain ⟨rfl, rfl⟩ := Prod.mk.inj (Option.some.inj (runs.symm.trans same))
      exact is)

section Elements

variable {w : CtrlWord}

theorem nextElement_halted (m : Machine) :
    (m.nextElement w).cpu.halted = (execute w m.clearRepeat).2.cpu.halted := by
  obtain ⟨irqReq, same⟩ := executeElement_cpu w m.clearRepeat
  show (executeElement w m.clearRepeat).cpu.halted = _
  rw [same]

/-- The elements of another instruction. -/
theorem elementRun_awake (decoded : w ∈ pool) (other : w.exec ≠ .halt) (m : Machine) (k : Nat) :
    (elementRun w m k).cpu.halted = m.cpu.halted := by
  induction k with
  | zero => rfl
  | succ k inductionHypothesis =>
    rw [elementRun_succ, nextElement_halted, (execute_awake decoded other).halted]
    exact inductionHypothesis

/-- HALT in system mode, and its request in normal mode. -/
theorem execute_halt (kind : w.exec = .halt) (m : Machine) :
    (execute w m).2.cpu.halted = (m.cpu.halted || m.cpu.sysmode) ∧
      (execute w m).2.cpu.sysmode = m.cpu.sysmode := by
  have run : execute w m = (if m.cpu.sysmode then modifyCpu ({ · with halted := true })
      else modifyCpu (·.request irqTrap)) m := by
    unfold execute
    rw [kind]
    rfl
  rw [run]
  cases system : m.cpu.sysmode with
  | true => exact ⟨(Bool.or_true _).symm, system⟩
  | false => exact ⟨(Bool.or_false _).symm, system⟩

/-- The elements of a HALT. -/
theorem elementRun_halt (kind : w.exec = .halt) (m : Machine) (k : Nat) :
    (elementRun w m (k + 1)).cpu.halted = (m.cpu.halted || m.cpu.sysmode) ∧
      (elementRun w m (k + 1)).cpu.sysmode = m.cpu.sysmode := by
  have next : ∀ x : Machine, (x.nextElement w).cpu.halted = (x.cpu.halted || x.cpu.sysmode) ∧
      (x.nextElement w).cpu.sysmode = x.cpu.sysmode := fun x => by
    obtain ⟨irqReq, same⟩ := executeElement_cpu w x.clearRepeat
    obtain ⟨halted, sysmode⟩ := execute_halt kind x.clearRepeat
    exact ⟨(congrArg Cpu.halted same).trans halted, (congrArg Cpu.sysmode same).trans sysmode⟩
  induction k with
  | zero => exact next m
  | succ k inductionHypothesis =>
    obtain ⟨halted, sysmode⟩ := inductionHypothesis
    rw [elementRun_succ, (next _).1, (next _).2, halted, sysmode]
    refine ⟨?_, rfl⟩
    rw [Bool.or_assoc, Bool.or_self]

end Elements

theorem Machine.leave_halted (m : Machine) (pc : Long) : (m.leave pc).cpu.halted = m.cpu.halted := by
  unfold leave
  split_ifs <;> rfl

theorem fetchDecode_halted (m : Machine) : (fetchDecode m).2.cpu.halted = m.cpu.halted :=
  (@fetchWords_built true).awake.halted m.begun

theorem enterTrap_halted (source : TrapSource) (m : Machine) :
    (enterTrap source m).2.cpu.halted = false := by
  rw [enterTrap_apply]
  rfl

/-- A step of a running processor leaves it halted exactly when it executes a HALT in system
mode. -/
theorem cpuStep_halted_iff {hook : SysHook} {fuel : Nat} {m r : Machine}
    (awake : m.cpu.halted = false) (returns : cpuStep hook fuel m = some r) :
    r.cpu.halted = true ↔ m.Halts hook := by
  have running : m.beginStep.sampled.cpu.halted = false := (Cpu.sampleLines_halted _).trans awake
  cases taken : m.beginStep.sampled.cpu.trapSource with
  | some source =>
    rw [cpuStep_trap taken] at returns
    obtain rfl := Option.some.inj returns
    rw [enterTrap_halted]
    refine ⟨fun absurdly => absurd absurdly Bool.false_ne_true, ?_⟩
    rintro ⟨w, d, runs, -⟩
    exact absurd runs (instruction_trap taken ▸ nofun)
  | none =>
    rw [cpuStep_fetch taken running] at returns
    have fetched := (fetchDecode_halted m.beginStep.sampled).trans running
    unfold Machine.Halts
    rw [instruction_fetch taken running]
    cases known : m.beginStep.sampled.decoded with
    | none =>
      rw [stepInstruction_illegal known] at returns
      obtain rfl := Option.some.inj returns
      have halted : (fetchDecode m.beginStep.sampled).2.illegal.cpu.halted = false := fetched
      rw [halted]
      refine ⟨fun absurdly => absurd absurdly Bool.false_ne_true, ?_⟩
      rintro ⟨w, d, runs, -⟩
      exact absurd runs nofun
    | some w =>
      rw [stepInstruction_run known] at returns
      obtain ⟨k, -, -, rfl⟩ :=
        (runInstruction_eq_some_iff w fuel _ r (fetchDecode_fresh _)).mp returns
      rw [Machine.leave_halted]
      have started : (fetchDecode m.beginStep.sampled).2.started.cpu.halted = false := fetched
      constructor
      · intro halted
        have decoded : w ∈ pool := decodeLookup_mem known
        by_cases kind : w.exec = .halt
        · rw [(elementRun_halt kind _ k).1, started, Bool.false_or] at halted
          exact ⟨w, _, rfl, kind, halted⟩
        · rw [elementRun_awake decoded kind, started] at halted
          exact absurd halted Bool.false_ne_true
      · rintro ⟨w', d, runs, kind, system⟩
        obtain ⟨rfl, rfl⟩ := Prod.mk.inj (Option.some.inj runs)
        rw [(elementRun_halt kind _ k).1, started, Bool.false_or]
        exact system

end C900
