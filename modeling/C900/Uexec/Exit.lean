import C900.Cpu.Halt
import C900.Logic.Budget

/-!
# How the run of a guest ends

`run_exec` steps the processor until the guest has made the exit system call, the
processor has halted, something is pending that the guest has no vector for, or the
budget is spent, and then reports an exit status or its absence. The other system calls
are a parameter: what they do to the machine and to the world outside, and whether they
stop the process. The notes on the standard error are left out.
-/

namespace C900

/-! ## Guest memory -/

/-- `gr8`. -/
def Bus.gr8 (b : Bus) (seg : Byte) (off : Nat) : Byte :=
  b.ram (seg.setWidth 32 <<< 16 ||| BitVec.ofNat 32 (off % 0x10000))

/-- `gw8`. -/
def Bus.gw8 (b : Bus) (seg : Byte) (off : Nat) (v : Byte) : Bus :=
  b.setRam (seg.setWidth 32 <<< 16 ||| BitVec.ofNat 32 (off % 0x10000)) v

/-- `gr16`. -/
def Bus.gr16 (b : Bus) (seg : Byte) (off : Nat) : Word := b.gr8 seg off ++ b.gr8 seg (off + 1)

/-- `gw16`. -/
def Bus.gw16 (b : Bus) (seg : Byte) (off : Nat) (v : Word) : Bus :=
  (b.gw8 seg off (hiByte v)).gw8 seg (off + 1) (loByte v)

/-- `u_addr`. -/
def uAddr (v : Long) (k : Nat) : Nat × Nat :=
  let o := (v &&& 0xFFFF).toNat + k
  let s := ((v >>> 24) &&& 0x7F).toNat + o / 0x10000
  (if 0x7F < s then 0x100 else s, o % 0x10000)

/-- The loop of `u_range_ok` from a position on. Each pass moves on by a byte at least, so
that as many passes as bytes are enough. -/
def uRangeFrom (instMax : Nat) (v : Long) (n : Nat) : Nat → Nat → Bool
  | 0, _ => true
  | passes + 1, pos =>
    if pos < n then
      let (seg, off) := uAddr v pos
      decide (seg ≤ instMax) && uRangeFrom instMax v n passes (pos + (0x10000 - off))
    else true

/-- `u_range_ok`. -/
def uRangeOk (instMax : Nat) (v : Long) (n : Nat) : Bool := uRangeFrom instMax v n n 0

/-! ## The guest -/

variable {World : Type}

/-- What lies outside: the highest installed segment, and the system calls other than
exit. A call stops the process, by `exit (4)`, where it returns nothing. -/
structure GuestEnv (World : Type) where
  instMax : Nat
  services : World → Machine → Byte → Long → Option (World × Machine)

/-- The machine under a process, the world outside, `exec_exited` and `exec_code`. -/
structure Guest (World : Type) where
  machine : Machine
  world : World
  exited : Bool
  code : Word

/-- The argument block: the return address and the widest argument list. -/
def argBlock : Nat := 16

/-- `sys_hook`. -/
def sysHook (env : GuestEnv World) (num : Byte) (pc : Long) (g : Guest World) :
    Option (Guest World) :=
  let c := g.machine.cpu
  let sseg := loByte (c.R 14) &&& 0x7F
  let sp := c.R 15
  if uRangeOk env.instMax (sseg.setWidth 32 <<< 24 ||| sp.setWidth 32) argBlock then
    if num = 1 then
      some { g with
        exited := true
        code := g.machine.bus.gr16 sseg (sp.toNat + 4)
        -- The vector of the system call leads to the HALT stub from here on.
        machine := { g.machine with bus := g.machine.bus.gw16 0 0x001E 0x0062 } }
    else
      (env.services g.world g.machine num pc).map fun served =>
        { g with world := served.1, machine := served.2 }
  else none

/-- The machine that the next step hands to the hook. -/
def Machine.atCall (m : Machine) : Option Machine :=
  match m.beginStep.sampled.cpu.trapSource with
  | some source => if source.bit = irqSyscall then some m.beginStep.sampled else none
  | none => none

namespace Guest

/-- The call that the hook serves at a machine. -/
def call (env : GuestEnv World) (g : Guest World) (m : Machine) : Option (Guest World) :=
  sysHook env (loByte m.cpu.curOp) m.cpu.instrStart { g with machine := m }

/-- The hook as `cpu_step` sees it: its effect on the machine. -/
def hook (env : GuestEnv World) (g : Guest World) : SysHook :=
  some fun m num pc => ((sysHook env num pc { g with machine := m }).map Guest.machine).getD m

/-- The guest after the hook of the next step, where there is one; nothing where the hook
stops the process. -/
def served (env : GuestEnv World) (g : Guest World) : Option (Guest World) :=
  match g.machine.atCall with
  | none => some g
  | some m => g.call env m

/-- The status that the guest passes, where its next step makes the exit system call. -/
def exitCall (env : GuestEnv World) (g : Guest World) : Option Word :=
  match g.machine.atCall with
  | none => none
  | some m =>
    match g.call env m with
    | some after => if loByte m.cpu.curOp = 1 then some after.code else none
    | none => none

end Guest

/-! ## The run -/

/-- What `cpu_step` does to the guest: it goes on, the hook stops the process, or a repeated
instruction does not end. -/
inductive Outcome (World : Type) where
  | running (g : Guest World)
  | stopped
  | endless

/-- `cpu_step` with the hook. -/
def Guest.step (env : GuestEnv World) (fuel : Nat) (g : Guest World) : Outcome World :=
  match g.served env with
  | none => .stopped
  | some served =>
    match cpuStep (g.hook env) fuel g.machine with
    | none => .endless
    | some m => .running { served with machine := m }

/-- The guest has a request pending that it has no vector for. -/
def Guest.faults (g : Guest World) : Bool :=
  g.machine.cpu.irqReq &&& (irqEpu ||| irqTrap ||| irqSegtrap) != 0

/-- What `urun` returns: 0, 1 and 2. -/
inductive Why where
  | normal
  | fault
  | budget
deriving DecidableEq

/-- How the loop ends. -/
inductive Ending (World : Type) where
  | returned (why : Why) (g : Guest World)
  | stopped
  | endless

/-- `urun` with the stop flag `exec_exited`. -/
def urun (env : GuestEnv World) (fuel : Nat) : Nat → Guest World → Ending World
  | 0, g => .returned .budget g
  | budget + 1, g =>
    if g.machine.cpu.halted then .returned .normal g
    else if g.exited then .returned .normal g
    else if g.faults then .returned .fault g
    else
      match g.step env fuel with
      | .running g => urun env fuel budget g
      | .stopped => .stopped
      | .endless => .endless

/-- The line at the end of a run. -/
inductive Banner where
  | exit (code : Word)
  | noExit (reason : String)
deriving DecidableEq

/-- What a run leaves behind: the banner and the process status of `run_exec`, or the status
4 of a process that the hook stopped. -/
inductive Report where
  | stopped
  | reported (banner : Option Banner) (status : Word)
deriving DecidableEq

/-- The banner is dropped where N2QUIET is set. -/
def showBanner (quiet : Bool) (banner : Banner) : Option Banner :=
  if quiet then none else some banner

/-- The end of `run_exec`. -/
def execReport (quiet : Bool) (why : Why) (g : Guest World) : Report :=
  if !g.exited && why ≠ .normal then
    .reported
      (showBanner quiet
        (.noExit (if why = .fault then "guest fault" else "instruction budget exhausted"))) 4
  else .reported (showBanner quiet (.exit g.code)) (g.code &&& 0xFF)

/-- A guest at its start. -/
def startGuest (m : Machine) (world : World) : Guest World := ⟨cpuReset m, world, false, 0⟩

/-- The report on how a loop ended; none where it does not. -/
def Ending.report (quiet : Bool) : Ending World → Option Report
  | .returned why g => some (execReport quiet why g)
  | .stopped => some .stopped
  | .endless => none

/-- `run_exec` from the loaded image on. -/
def runExec (env : GuestEnv World) (fuel budget : Nat) (quiet : Bool) (m : Machine)
    (world : World) : Option Report :=
  (urun env fuel budget (startGuest m world)).report quiet

/-! ## Honest reports -/

/-- The loop takes a step from here. -/
def Guest.Live (g : Guest World) : Prop :=
  g.machine.cpu.halted = false ∧ g.exited = false ∧ g.faults = false

instance (g : Guest World) : Decidable g.Live :=
  inferInstanceAs (Decidable (_ = _ ∧ _ = _ ∧ _ = _))

/-- The guest after a step that returns. -/
def Guest.next (env : GuestEnv World) (fuel : Nat) (g : Guest World) : Option (Guest World) :=
  match g.step env fuel with
  | .running after => some after
  | _ => none

/-- Within the budget the guest makes the exit system call with a status. -/
def ExitsWith (env : GuestEnv World) (fuel budget : Nat) (g : Guest World) (code : Word) : Prop :=
  Within (Guest.next env fuel) Guest.Live (fun g => g.exitCall env = some code) budget g

/-- Within the budget the guest executes a HALT of its own. -/
def HaltsItself (env : GuestEnv World) (fuel budget : Nat) (g : Guest World) : Prop :=
  Within (Guest.next env fuel) Guest.Live (fun g => g.machine.Halts (g.hook env)) budget g

instance (env : GuestEnv World) (fuel budget : Nat) (g : Guest World) :
    Decidable (HaltsItself env fuel budget g) :=
  Within.decidable _ _ _ budget g

/-- An exit status is reported where the guest passed it, and nowhere else; a run that ended
in another way has status 4. -/
def Honest (exits : Word → Prop) (quiet : Bool) : Report → Prop
  | .stopped => ∀ code, ¬exits code
  | .reported banner status =>
    (∀ code, exits code → banner = showBanner quiet (.exit code) ∧ status = code &&& 0xFF) ∧
      ((∀ code, ¬exits code) →
        status = 4 ∧ ∃ reason, banner = showBanner quiet (.noExit reason))

section Steps

variable {env : GuestEnv World} {fuel : Nat} {g after : Guest World} {quiet : Bool}

/-- The exit service. -/
theorem sysHook_exited {num : Byte} {pc : Long} (served : sysHook env num pc g = some after) :
    (num = 1 → after.exited = true) ∧
      (num ≠ 1 → after.exited = g.exited ∧ after.code = g.code) := by
  unfold sysHook at served
  dsimp only at served
  split_ifs at served with mapped exit
  · obtain rfl := Option.some.inj served
    exact ⟨fun _ => rfl, fun other => absurd exit other⟩
  · obtain ⟨result, -, rfl⟩ := Option.map_eq_some_iff.mp served
    exact ⟨fun is => absurd is exit, fun _ => ⟨rfl, rfl⟩⟩

/-- A step that hands a call to the hook takes the trap. -/
theorem Machine.atCall_spec {m called : Machine} (call : m.atCall = some called) :
    called = m.beginStep.sampled ∧
      ∃ source, m.beginStep.sampled.cpu.trapSource = some source ∧ source.bit = irqSyscall := by
  unfold Machine.atCall at call
  cases taken : m.beginStep.sampled.cpu.trapSource with
  | none =>
    rw [taken] at call
    exact absurd call nofun
  | some source =>
    rw [taken] at call
    dsimp only at call
    split_ifs at call with system
    exact ⟨(Option.some.inj call).symm, source, rfl, system⟩

/-- A step that makes a call executes no HALT. -/
theorem atCall_not_halts {m called : Machine} (call : m.atCall = some called) (hook : SysHook) :
    ¬m.Halts hook := by
  obtain ⟨-, source, taken, -⟩ := Machine.atCall_spec call
  rintro ⟨w, d, runs, -⟩
  rw [instruction_trap taken] at runs
  cases runs

/-- The steps of a guest that makes the exit call. -/
theorem Guest.step_exit {code : Word} (exits : g.exitCall env = some code) :
    (∃ after, g.step env fuel = .running after ∧ after.exited = true ∧ after.code = code) ∧
      ¬g.machine.Halts (g.hook env) := by
  unfold exitCall at exits
  cases call : g.machine.atCall with
  | none =>
    rw [call] at exits
    exact absurd exits nofun
  | some m =>
    rw [call] at exits
    dsimp only at exits
    cases served : g.call env m with
    | none =>
      rw [served] at exits
      exact absurd exits nofun
    | some after =>
      rw [served] at exits
      dsimp only at exits
      split_ifs at exits with number
      obtain ⟨-, source, taken, -⟩ := Machine.atCall_spec call
      let entered := (enterTrap source (g.machine.atTrap (g.hook env) source)).2
      refine ⟨⟨{ after with machine := entered }, ?_, (sysHook_exited served).1 number,
        Option.some.inj exits⟩, atCall_not_halts call _⟩
      unfold step Guest.served
      rw [call]
      dsimp only
      rw [served, cpuStep_trap taken]

/-- The other steps that go on. -/
theorem Guest.step_running (silent : g.exitCall env = none) (awake : g.machine.cpu.halted = false)
    (goes : g.step env fuel = .running after) :
    after.exited = g.exited ∧ after.code = g.code ∧
      (after.machine.cpu.halted = true ↔ g.machine.Halts (g.hook env)) := by
  have flags : ∀ s, g.served env = some s → s.exited = g.exited ∧ s.code = g.code := by
    intro s hooked
    unfold served at hooked
    unfold exitCall at silent
    cases call : g.machine.atCall with
    | none =>
      rw [call] at hooked
      obtain rfl := Option.some.inj hooked
      exact ⟨rfl, rfl⟩
    | some m =>
      rw [call] at hooked silent
      dsimp only at hooked silent
      rw [hooked] at silent
      dsimp only at silent
      split_ifs at silent with number
      exact (sysHook_exited hooked).2 number
  unfold step at goes
  cases hooked : g.served env with
  | none =>
    rw [hooked] at goes
    exact absurd goes nofun
  | some s =>
    rw [hooked] at goes
    dsimp only at goes
    cases returns : cpuStep (g.hook env) fuel g.machine with
    | none =>
      rw [returns] at goes
      exact absurd goes nofun
    | some m =>
      rw [returns] at goes
      obtain rfl := Outcome.running.inj goes
      obtain ⟨exited, code⟩ := flags s hooked
      exact ⟨exited, code, cpuStep_halted_iff awake returns⟩

/-- A step that the hook stops. -/
theorem Guest.step_stopped (stops : g.step env fuel = .stopped) :
    g.exitCall env = none ∧ ¬g.machine.Halts (g.hook env) := by
  unfold step at stops
  cases hooked : g.served env with
  | some s =>
    rw [hooked] at stops
    dsimp only at stops
    split at stops
    · exact absurd stops nofun
    · exact absurd stops nofun
  | none =>
    unfold served at hooked
    cases call : g.machine.atCall with
    | none =>
      rw [call] at hooked
      exact absurd hooked nofun
    | some m =>
      rw [call] at hooked
      dsimp only at hooked
      refine ⟨?_, atCall_not_halts call _⟩
      unfold exitCall
      rw [call]
      dsimp only
      rw [hooked]

/-! ## Runs -/

/-- The loop ends behind the exit call. -/
theorem urun_exited (exited : g.exited = true) (budget : Nat) :
    ∃ why, urun env fuel budget g = .returned why g := by
  cases budget with
  | zero => exact ⟨.budget, rfl⟩
  | succ budget =>
    refine ⟨.normal, ?_⟩
    unfold urun
    rw [if_pos exited]
    split_ifs <;> rfl

/-- The loop ends behind a HALT. -/
theorem urun_halted (halted : g.machine.cpu.halted = true) (budget : Nat) :
    urun env fuel (budget + 1) g = .returned .normal g := by
  unfold urun
  exact if_pos halted

/-- The loop ends at a fault. -/
theorem urun_faults (awake : g.machine.cpu.halted = false) (silent : g.exited = false)
    (faults : g.faults = true) (budget : Nat) :
    urun env fuel (budget + 1) g = .returned .fault g := by
  unfold urun
  rw [awake, silent, faults]
  rfl

/-- The loop takes a step. -/
theorem urun_live (live : g.Live) (budget : Nat) :
    urun env fuel (budget + 1) g =
      match g.step env fuel with
      | .running g => urun env fuel budget g
      | .stopped => .stopped
      | .endless => .endless := by
  rw [urun, live.1, live.2.1, live.2.2]
  rfl

/-- The report of a guest that has made the exit call. -/
theorem execReport_exited (exited : g.exited = true) (why : Why) :
    execReport quiet why g = .reported (showBanner quiet (.exit g.code)) (g.code &&& 0xFF) := by
  unfold execReport
  rw [exited]
  rfl

/-- The report of a run that ended without the exit call. -/
theorem execReport_silent (quiet : Bool) (silent : g.exited = false) {why : Why}
    (abnormal : why ≠ .normal) :
    ∃ reason, execReport quiet why g = .reported (showBanner quiet (.noExit reason)) 4 := by
  refine ⟨if why = .fault then "guest fault" else "instruction budget exhausted", ?_⟩
  unfold execReport
  rw [silent]
  exact if_pos (by simpa using abnormal)

/-- The report of a loop that ended without a fault and with some of the budget left. -/
theorem execReport_normal (g : Guest World) :
    execReport quiet .normal g =
      .reported (showBanner quiet (.exit g.code)) (g.code &&& 0xFF) := by
  unfold execReport
  exact if_neg (by simp)

/-- The absence of an exit is reported honestly. -/
theorem honest_noExit {exits : Word → Prop} (none : ∀ code, ¬exits code) (reason : String) :
    Honest exits quiet (.reported (showBanner quiet (.noExit reason)) 4) :=
  ⟨fun code is => absurd is (none code), fun _ => ⟨rfl, reason, rfl⟩⟩

/-- The run of a guest that has not made the exit call and has not halted is reported
honestly, unless it comes to a HALT with some of the budget left. -/
theorem urun_honest_iff {budget : Nat} {r : Report} (awake : g.machine.cpu.halted = false)
    (silent : g.exited = false) (clear : g.code = 0)
    (returns : (urun env fuel budget g).report quiet = some r) :
    Honest (ExitsWith env fuel budget g) quiet r ↔ ¬HaltsItself env fuel (budget - 1) g := by
  induction budget generalizing g with
  | zero =>
    obtain ⟨reason, report⟩ := execReport_silent quiet silent fun (is : Why.budget = .normal) => nomatch is
    obtain rfl := Option.some.inj returns
    rw [report]
    exact ⟨fun _ => Within.not_zero, fun _ => honest_noExit (fun _ => Within.not_zero) reason⟩
  | succ budget inductionHypothesis =>
    cases faults : g.faults with
    | true =>
      have dead : ¬g.Live := fun live => absurd (live.2.2.symm.trans faults) Bool.false_ne_true
      obtain ⟨reason, report⟩ := execReport_silent quiet silent fun (is : Why.fault = .normal) => nomatch is
      rw [urun_faults awake silent faults] at returns
      obtain rfl := Option.some.inj returns
      rw [report]
      exact ⟨fun _ => Within.not_dead dead,
        fun _ => honest_noExit (fun _ => Within.not_dead dead) reason⟩
    | false =>
      have live : g.Live := ⟨awake, silent, faults⟩
      rw [urun_live live] at returns
      cases exits : g.exitCall env with
      | some code =>
        obtain ⟨⟨after, goes, exited, passed⟩, runs⟩ := @Guest.step_exit _ env fuel g code exits
        have next : g.next env fuel = some after := by
          unfold Guest.next
          rw [goes]
        have dead : ¬after.Live := fun alive => Bool.false_ne_true (alive.2.1.symm.trans exited)
        obtain ⟨why, ends⟩ := @urun_exited _ env fuel after exited budget
        rw [goes] at returns
        dsimp only at returns
        rw [ends] at returns
        obtain rfl := Option.some.inj returns
        rw [execReport_exited exited, passed]
        refine ⟨fun _ within => ?_, fun _ => ⟨fun other exit => ?_, fun silence => ?_⟩⟩
        · cases within with
          | now _ halts => exact runs halts
          | later _ went within =>
            obtain rfl := Option.some.inj (next.symm.trans went)
            exact Within.not_dead dead within
        · cases exit with
          | now _ is =>
            obtain rfl := Option.some.inj (exits.symm.trans is)
            exact ⟨rfl, rfl⟩
          | later _ went within =>
            obtain rfl := Option.some.inj (next.symm.trans went)
            exact absurd within (Within.not_dead dead)
        · exact absurd (Within.now live exits) (silence code)
      | none =>
        have quietly : ∀ code, ¬g.exitCall env = some code := fun code is =>
          absurd (exits.symm.trans is) nofun
        cases goes : g.step env fuel with
        | endless =>
          rw [goes] at returns
          exact absurd returns nofun
        | stopped =>
          have stuck : g.next env fuel = none := by
            unfold Guest.next
            rw [goes]
          rw [goes] at returns
          obtain rfl := Option.some.inj returns
          exact ⟨fun _ => Within.not_stuck (Guest.step_stopped goes).2 stuck,
            fun _ code => Within.not_stuck (quietly code) stuck⟩
        | running after =>
          have next : g.next env fuel = some after := by
            unfold Guest.next
            rw [goes]
          obtain ⟨exited, code, halts⟩ := Guest.step_running exits awake goes
          have same : ExitsWith env fuel (budget + 1) g = ExitsWith env fuel budget after :=
            funext fun code => propext (Within.next_iff live (quietly code) next)
          rw [goes] at returns
          dsimp only at returns
          rw [same]
          cases halted : after.machine.cpu.halted with
          | true =>
            have dead : ¬after.Live := fun alive => Bool.false_ne_true (alive.1.symm.trans halted)
            have none : ∀ code, ¬ExitsWith env fuel budget after code := fun _ => Within.not_dead dead
            cases budget with
            | zero =>
              obtain ⟨reason, report⟩ := execReport_silent quiet (exited.trans silent)
                fun (is : Why.budget = .normal) => nomatch is
              obtain rfl := Option.some.inj returns
              rw [report]
              exact ⟨fun _ => Within.not_zero, fun _ => honest_noExit none reason⟩
            | succ budget =>
              rw [urun_halted halted] at returns
              obtain rfl := Option.some.inj returns
              rw [execReport_normal]
              refine ⟨fun honest => ?_, fun runs => absurd (Within.now live (halts.mp halted)) runs⟩
              have status : (after.code &&& 0xFF) = (4 : Word) := (honest.2 none).1
              rw [code, clear] at status
              exact absurd status (by decide)
          | false =>
            have runs : ¬g.machine.Halts (g.hook env) := fun is =>
              Bool.false_ne_true (halted.symm.trans (halts.mpr is))
            have report :=
              inductionHypothesis halted (exited.trans silent) (code.trans clear) returns
            rw [report, Nat.add_sub_cancel]
            cases budget with
            | zero => exact ⟨fun _ => Within.not_zero, fun _ => Within.not_zero⟩
            | succ budget => exact not_congr (Within.next_iff live runs next).symm

end Steps

/-- Whatever the guest and the budget, a run that ends is reported honestly if and only if
the guest executes no HALT of its own before the last step of the budget. -/
theorem runExec_honest_iff (env : GuestEnv World) (fuel budget : Nat) (quiet : Bool) (m : Machine)
    (world : World) {r : Report} (returns : runExec env fuel budget quiet m world = some r) :
    Honest (ExitsWith env fuel budget (startGuest m world)) quiet r ↔
      ¬HaltsItself env fuel (budget - 1) (startGuest m world) :=
  urun_honest_iff rfl rfl rfl returns

/-! ## A guest that halts -/

/-- A process whose text begins in segment 3 with the given word: the vectors, the
bootstrap stub, and the first words of its stack. -/
def process (text : Word) : Machine :=
  let b := { machineNew.bus with flatMem := true, flatMaxseg := 11 }
  let words : List (Byte × Nat × Word) :=
    [(0, 0x0002, 0xC000), (0, 0x0004, 0), (0, 0x0006, 0x0040),
      (0, 0x001A, 0xC000), (0, 0x001C, 0), (0, 0x001E, 0x0060),
      -- LDL RR14,#0:CF00; JP #3:0000
      (0, 0x0040, 0x210E), (0, 0x0042, 0), (0, 0x0044, 0x210F), (0, 0x0046, 0xCF00),
      (0, 0x0048, 0x5E08), (0, 0x004A, 0x8300), (0, 0x004C, 0),
      (0, 0x0060, 0x7B00), (0, 0x0062, 0x7A00), (0, 0xCF00, 1), (0, 0xCF04, 0xCF10), (3, 0, text)]
  { machineNew with bus := words.foldl (fun b word => b.gw16 word.1 word.2.1 word.2.2) b }

/-- No call but exit is served. -/
def noServices : GuestEnv Unit := ⟨11, fun _ _ _ _ => none⟩

/-- The budget of `run_exec` without N2BUDGET. -/
def execBudget : Nat := 8000000000

/-- SC #1, the exit system call, with 0xCF10 on the stack. -/
theorem exitingGuest_honest :
    Honest (ExitsWith noServices 0 execBudget (startGuest (process 0x7F01) ())) false
        (.reported (some (.exit 0xCF10)) 0x10) ↔
      ¬HaltsItself noServices 0 (execBudget - 1) (startGuest (process 0x7F01) ()) :=
  runExec_honest_iff noServices 0 execBudget false (process 0x7F01) () (by decide +kernel)

/-- A guest that executes HALT is reported to have passed the status 0. -/
theorem haltingGuest_reported :
    runExec noServices 0 execBudget false (process 0x7A00) () =
        some (.reported (some (.exit 0)) 0) ∧
      (∀ code, ¬ExitsWith noServices 0 execBudget (startGuest (process 0x7A00) ()) code) ∧
      ¬Honest (ExitsWith noServices 0 execBudget (startGuest (process 0x7A00) ())) false
        (.reported (some (.exit 0)) 0) := by
  let start := startGuest (process 0x7A00) ()
  have reported : runExec noServices 0 execBudget false (process 0x7A00) () =
      some (.reported (some (.exit 0)) 0) := by decide +kernel
  have silent : ¬Within (Guest.next noServices 0) Guest.Live
      (fun g => (g.exitCall noServices).isSome = true) execBudget start := by decide +kernel
  have halts : HaltsItself noServices 0 (execBudget - 1) start := by decide +kernel
  refine ⟨reported, fun code exits => silent ?_, fun honest => ?_⟩
  · exact exits.imp fun g passed => Option.isSome_iff_exists.mpr ⟨code, passed⟩
  · exact (urun_honest_iff rfl rfl rfl reported).mp honest halts

end C900
