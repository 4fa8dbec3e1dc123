import C900.Cpu.Isolation
import C900.Run.Vectored

/-!
# Normal mode under the machine loop

A stretch of the machine loop in normal mode, up to the first turn that takes a trap or an
interrupt: characters arrive, the devices tick and the request lines move between the steps.
`loopRun_contained` says what the program cannot change in it, `runTurns_twin` what it cannot
depend on.
-/

namespace C900

/-! ## The devices between the steps -/

/-- A change of the devices that neither looks at RAM nor touches it. -/
structure RamBlind (f : Bus → Bus) : Prop where
  keeps : ∀ b, (f b).ram = b.ram
  blind : ∀ b ram, f { b with ram := ram } = { f b with ram := ram }

namespace RamBlind

variable {f g : Bus → Bus}

theorem comp (second : RamBlind g) (first : RamBlind f) : RamBlind fun b => g (f b) :=
  ⟨fun b => (second.keeps _).trans (first.keeps b), fun b ram => by
    rw [first.blind, second.blind]⟩

/-- Buses that are alike stay so. -/
theorem alike (change : RamBlind f) {seen : Long → Prop} {b c : Bus}
    (same : Bus.Alike seen b c) : Bus.Alike seen (f b) (f c) := by
  refine ⟨?_, fun byte sees => ?_⟩
  · rw [change.keeps, same.devices, change.blind]
  · rw [change.keeps, change.keeps, same.ram byte sees]

end RamBlind

theorem sccRxPort_ramBlind (rxOverrunOn : Bool) (arrival : SccPort × Byte) :
    RamBlind (sccRxPort rxOverrunOn · arrival) := by
  constructor
  · intro b
    unfold sccRxPort Bus.setSccPort
    split
    · rfl
    · split_ifs <;> rfl
  · intro b ram
    unfold sccRxPort Bus.setSccPort Bus.sccPort
    dsimp only
    split_ifs <;> rfl

theorem arrivals_ramBlind (rxOverrunOn : Bool) (arrivals : List (SccPort × Byte)) :
    RamBlind fun b => arrivals.foldl (sccRxPort rxOverrunOn) b := by
  induction arrivals with
  | nil => exact ⟨fun _ => rfl, fun _ _ => rfl⟩
  | cons arrival rest inductionHypothesis =>
    exact inductionHypothesis.comp (sccRxPort_ramBlind rxOverrunOn arrival)

theorem ct3Tick_ramBlind : RamBlind ct3Tick := by
  constructor
  · intro b
    unfold ct3Tick
    dsimp only
    split_ifs <;> rfl
  · intro b ram
    have period : ct3Period { b with ram := ram } = ct3Period b := rfl
    unfold ct3Tick
    dsimp only
    rw [period]
    split_ifs <;> rfl

/-- The devices at the boundary of a turn. -/
def Bus.atTurn (rxOverrunOn : Bool) (arrivals : List (SccPort × Byte)) (b : Bus) : Bus :=
  ct3Tick (arrivals.foldl (sccRxPort rxOverrunOn) b)

theorem atTurn_ramBlind (rxOverrunOn : Bool) (arrivals : List (SccPort × Byte)) :
    RamBlind (Bus.atTurn rxOverrunOn arrivals) :=
  ct3Tick_ramBlind.comp (arrivals_ramBlind rxOverrunOn arrivals)

section

variable {rxOverrunOn : Bool}

/-- The machine that a turn steps. -/
theorem boundary_machine (s : RunState) (arrivals : List (SccPort × Byte)) :
    (s.boundary rxOverrunOn arrivals).machine =
      { s.machine with
        bus := s.machine.bus.atTurn rxOverrunOn arrivals
        cpu := s.machine.cpu.showVi (s.machine.bus.atTurn rxOverrunOn arrivals).viHighest } :=
  aggregateVi_machine _

/-- The line and the vector come from the devices alone. -/
theorem Bus.Alike.viHighest {seen : Long → Prop} {b c : Bus} (alike : Bus.Alike seen b c) :
    c.viHighest = b.viHighest := by
  rw [alike.devices]
  rfl

theorem Cpu.showVi_control {rept : Bool} (c : Cpu) (vi : Option Byte) :
    (c.showVi vi).control rept = c.control rept := by
  cases vi <;> rfl

end

/-! ## What the program cannot change -/

/-- What a program in normal mode keeps: the control state, the memory map, and every byte of RAM
that is not open for writing; and it performs memory cycles only. -/
structure Contained (before after : Machine) : Prop where
  control : after.cpu.control true = before.cpu.control true
  map : after.mmu.SameMap before.mmu
  ram : ∀ byte, ¬before.mmu.Opens .write byte → after.bus.ram byte = before.bus.ram byte
  cycles : ∃ done, after.trace = done ++ before.trace ∧ ∀ event ∈ done, event.IsMem

theorem Sandboxed.contained {m x : Machine} (sandboxed : Sandboxed m x) : Contained m x :=
  ⟨sandboxed.confined.control, sandboxed.confined.map, sandboxed.ram, sandboxed.confined.cycles⟩

namespace Contained

theorem refl (m : Machine) : Contained m m := (Sandboxed.refl m).contained

theorem trans {a b c : Machine} (first : Contained a b) (second : Contained b c) :
    Contained a c := by
  obtain ⟨earlier, fromA, earlierMem⟩ := first.cycles
  obtain ⟨later, fromB, laterMem⟩ := second.cycles
  refine ⟨second.control.trans first.control, second.map.trans first.map, fun byte shut => ?_,
    later ++ earlier, ?_, ?_⟩
  · have still : ¬b.mmu.Opens .write byte := fun opened => shut (first.map.opens opened)
    exact (second.ram byte still).trans (first.ram byte shut)
  · rw [fromB, fromA, List.append_assoc]
  · intro event member
    rcases List.mem_append.mp member with new | old
    · exact laterMem event new
    · exact earlierMem event old

/-- A change of the devices and of the request lines. -/
theorem ofDevices {m x : Machine} (control : x.cpu.control true = m.cpu.control true)
    (mmu : x.mmu = m.mmu) (ram : x.bus.ram = m.bus.ram) (trace : x.trace = m.trace) :
    Contained m x := by
  refine ⟨control, ?_, fun byte _ => congrFun ram byte, [], trace, fun _ none => ?_⟩
  · rw [mmu]
    exact .refl _
  · exact absurd none List.not_mem_nil

/-- It is still in normal mode. -/
theorem user {m x : Machine} (contained : Contained m x) (user : m.cpu.sysmode = false) :
    x.cpu.sysmode = false := (Cpu.sysmode_of_control contained.control).trans user

theorem refusals_le {m x : Machine} (contained : Contained m x) : m.refusals ≤ x.refusals := by
  obtain ⟨done, trace, -⟩ := contained.cycles
  exact Machine.refusals_le trace

theorem view {seen : Long → Prop} {m x : Machine} (contained : Contained m x)
    (view : m.UserView seen) : x.UserView seen :=
  ⟨contained.user view.user, fun kind byte opened =>
    view.sees kind byte (contained.map.opens opened)⟩

end Contained

section

variable {hook : SysHook} {rxOverrunOn : Bool} {fuel : Nat}

theorem boundary_contained (s : RunState) (arrivals : List (SccPort × Byte)) :
    Contained s.machine (s.boundary rxOverrunOn arrivals).machine := by
  rw [boundary_machine]
  exact .ofDevices (Cpu.showVi_control _ _) rfl ((atTurn_ramBlind rxOverrunOn arrivals).keeps _) rfl

theorem finish_contained (s : RunState) (m : Machine) : Contained m (s.finish m).machine :=
  .ofDevices rfl rfl rfl rfl

/-- A trap source has a request bit. -/
theorem Cpu.trapSource_bit {c : Cpu} {source : TrapSource} (taken : c.trapSource = some source) :
    source.bit ≠ 0 := by
  unfold trapSource at taken
  dsimp only at taken
  split_ifs at taken
  all_goals
    obtain rfl := Option.some.inj taken
    dsimp only
    decide

/-- A step that serves no request takes no trap. -/
theorem trapSource_of_serviced {m r : Machine} (returns : cpuStep hook fuel m = some r)
    (plain : r.cpu.serviced = 0) : m.beginStep.sampled.cpu.trapSource = none := by
  cases taken : m.beginStep.sampled.cpu.trapSource with
  | none => rfl
  | some source =>
    rw [cpuStep_trap taken] at returns
    obtain rfl := Option.some.inj returns
    rw [enterTrap_serviced] at plain
    exact absurd plain (Cpu.trapSource_bit taken)

/-- One turn that takes no trap. -/
theorem turn_contained {s : RunState} {m : Machine} {arrivals : List (SccPort × Byte)}
    (user : s.machine.cpu.sysmode = false)
    (returns : cpuStep hook fuel (s.boundary rxOverrunOn arrivals).machine = some m)
    (plain : m.cpu.serviced = 0) :
    Contained s.machine ((s.boundary rxOverrunOn arrivals).finish m).machine := by
  have boundary : Contained s.machine (s.boundary rxOverrunOn arrivals).machine :=
    boundary_contained s arrivals
  have step := cpuStep_sandboxed (boundary.user user) (trapSource_of_serviced returns plain) returns
  exact boundary.trans (step.contained.trans (finish_contained _ m))

/-- Along any run of the machine loop from normal mode, up to the first trap or interrupt that is
taken and whatever the unit refuses on the way: the control registers, the mode and the memory map
stay, no byte of RAM that is not open for writing changes, and no input or output is performed. -/
theorem loopRun_contained {start last : RunState} {passages : List Passage}
    (run : LoopRun hook rxOverrunOn start passages last)
    (user : start.machine.cpu.sysmode = false)
    (plain : ∀ p ∈ passages, p.after.cpu.serviced = 0) :
    Contained start.machine last.machine := by
  induction run with
  | start => exact .refl _
  | @turn passages s m run goesOn arrivals fuel steps inductionHypothesis =>
    have before := inductionHypothesis fun p inside =>
      plain p (List.mem_append_left _ inside)
    have here : m.cpu.serviced = 0 :=
      plain _ (List.mem_append_right passages (List.mem_singleton_self _))
    exact before.trans (turn_contained (before.user user) steps here)

end

/-! ## What the program cannot depend on -/

/-- Some access in normal mode can touch the byte. -/
def Mmu.Open (u : Mmu) (byte : Long) : Prop := ∃ kind, u.Opens kind byte

/-- The passages of two runs, one by one, of machines that differ at most in bytes not seen. -/
abbrev TwinPassages (seen : Long → Prop) (m₀ n₀ : Machine) : List Passage → List Passage → Prop :=
  List.Forall₂ fun p q => Twin seen m₀ n₀ p.before q.before ∧ Twin seen m₀ n₀ p.after q.after

section

variable {hook : SysHook} {rxOverrunOn : Bool} {fuel : Nat} {seen : Long → Prop}
  {m₀ n₀ : Machine} {s t : RunState}

/-- Which source holds the vector is seen in the devices. -/
theorem aggregateVi_lastViDisk (disk : t.lastViDisk = s.lastViDisk)
    (bus : Bus.Alike seen s.machine.bus t.machine.bus) :
    t.aggregateVi.lastViDisk = s.aggregateVi.lastViDisk := by
  have devices := bus.devices
  generalize t.machine.bus.ram = ram at devices
  have timer : ct3Int t.machine.bus = ct3Int s.machine.bus := by rw [devices]; rfl
  have chanA : t.machine.bus.sccA = s.machine.bus.sccA := by rw [devices]
  have chanB : t.machine.bus.sccB = s.machine.bus.sccB := by rw [devices]
  have board : (if t.machine.bus.lrScc then lrSccVi t.machine.bus else none) =
      if s.machine.bus.lrScc then lrSccVi s.machine.bus else none := by rw [devices]; rfl
  have request : t.machine.bus.diskVi = s.machine.bus.diskVi := by rw [devices]
  unfold RunState.aggregateVi
  dsimp only
  rw [timer, chanA, chanB, board, request]
  cases (if s.machine.bus.lrScc then lrSccVi s.machine.bus else none) with
  | none =>
    dsimp only
    split_ifs
    · rfl
    · rfl
    · rfl
    · rfl
    · exact disk
  | some vec =>
    dsimp only
    split_ifs <;> rfl

/-- The boundary of a turn. -/
theorem boundary_twin (twin : Twin seen m₀ n₀ s.machine t.machine)
    (disk : t.lastViDisk = s.lastViDisk) (arrivals : List (SccPort × Byte)) :
    Twin seen m₀ n₀ (s.boundary rxOverrunOn arrivals).machine
        (t.boundary rxOverrunOn arrivals).machine ∧
      (t.boundary rxOverrunOn arrivals).lastViDisk =
        (s.boundary rxOverrunOn arrivals).lastViDisk := by
  have bus := (atTurn_ramBlind rxOverrunOn arrivals).alike twin.bus
  refine ⟨?_, aggregateVi_lastViDisk disk bus⟩
  rw [boundary_machine, boundary_machine, bus.viHighest]
  exact ⟨congrArg (Cpu.showVi · _) twin.cpu, twin.mmu, bus, twin.cycles⟩

/-- The end of a turn. -/
theorem finish_twin {m n : Machine} (twin : Twin seen m₀ n₀ m n)
    (disk : t.lastViDisk = s.lastViDisk) :
    Twin seen m₀ n₀ (s.finish m).machine (t.finish n).machine := by
  have devices := twin.bus.devices
  refine ⟨twin.cpu, twin.mmu, ⟨?_, twin.bus.ram⟩, twin.cycles⟩
  unfold RunState.finish
  dsimp only
  rw [twin.cpu, disk]
  generalize n.bus.ram = ram at devices
  rw [devices]

/-- The turns of two runs side by side. -/
theorem runTurns_twinFrom {script : List (List (SccPort × Byte))} {passages : List Passage}
    {last : RunState} (view : s.machine.UserView seen)
    (twin : Twin seen m₀ n₀ s.machine t.machine) (disk : t.lastViDisk = s.lastViDisk)
    (returns : runTurns hook rxOverrunOn fuel script s = some (passages, last))
    (plain : ∀ p ∈ passages, p.after.cpu.serviced = 0)
    (granted : last.machine.refusals = s.machine.refusals) :
    ∃ others final, runTurns hook rxOverrunOn fuel script t = some (others, final) ∧
      TwinPassages seen m₀ n₀ passages others ∧ Twin seen m₀ n₀ last.machine final.machine := by
  induction script generalizing s t passages with
  | nil =>
    obtain ⟨rfl, rfl⟩ := Prod.mk.inj (Option.some.inj returns)
    exact ⟨[], t, rfl, .nil, twin⟩
  | cons arrivals rest inductionHypothesis =>
    unfold runTurns at returns
    dsimp only at returns
    split at returns
    · exact absurd returns (by simp)
    next goesOn =>
      split at returns
      · exact absurd returns (by simp)
      next m steps =>
        obtain ⟨⟨later, lastState⟩, continues, both⟩ := Option.map_eq_some_iff.mp returns
        obtain ⟨rfl, rfl⟩ := Prod.mk.inj both
        have here : m.cpu.serviced = 0 := plain _ List.mem_cons_self
        have after (p : Passage) (inside : p ∈ later) : p.after.cpu.serviced = 0 :=
          plain p (List.mem_cons_of_mem _ inside)
        have boundary : Contained s.machine (s.boundary rxOverrunOn arrivals).machine :=
          boundary_contained s arrivals
        have idle := trapSource_of_serviced steps here
        have step := (cpuStep_sandboxed (boundary.user view.user) idle steps).contained
        have turn := boundary.trans (step.trans (finish_contained (s.boundary rxOverrunOn arrivals) m))
        have behind := loopRun_contained (LoopRun.start.turns continues) (turn.user view.user) after
        -- Nothing is refused before the last turn, so nothing is refused in this one.
        have upToHere : m.refusals = s.machine.refusals :=
          Nat.le_antisymm (granted ▸ behind.refusals_le) (boundary.trans step).refusals_le
        have start : (s.boundary rxOverrunOn arrivals).machine.refusals = s.machine.refusals :=
          Nat.le_antisymm (upToHere ▸ step.refusals_le) boundary.refusals_le
        obtain ⟨twinStart, diskStart⟩ : Twin seen m₀ n₀ (s.boundary rxOverrunOn arrivals).machine
            (t.boundary rxOverrunOn arrivals).machine ∧ _ := boundary_twin twin disk arrivals
        obtain ⟨n, stepsToo, twinStep⟩ := cpuStep_twin (boundary.view view) twinStart idle steps
          (upToHere.trans start.symm)
        have goesOnToo : ¬t.machine.bus.stop = true := by
          rw [twin.bus.devices]
          exact goesOn
        obtain ⟨others, final, continuesToo, passagesToo, lastToo⟩ :=
          inductionHypothesis (turn.view view) (finish_twin twinStep diskStart) diskStart continues
            after (granted.trans upToHere.symm)
        refine ⟨⟨(t.boundary rxOverrunOn arrivals).machine, n⟩ :: others, final, ?_,
          .cons ⟨twinStart, twinStep⟩ passagesToo, lastToo⟩
        unfold runTurns
        dsimp only
        rw [if_neg goesOnToo, stepsToo]
        dsimp only
        rw [continuesToo]
        rfl

/-- A program in normal mode cannot tell what lies in memory that is not open to it. Two machines
with the same processor, the same unit, the same devices and the same open bytes run alike: as
long as one takes no trap and is refused no access, the other makes the same turns with the same
bus cycles, and at every boundary the two still agree on all of that. -/
theorem runTurns_twin {script : List (List (SccPort × Byte))} {passages : List Passage}
    {last : RunState} (user : s.machine.cpu.sysmode = false)
    (cpu : t.machine.cpu = s.machine.cpu) (mmu : t.machine.mmu = s.machine.mmu)
    (bus : Bus.Alike s.machine.mmu.Open s.machine.bus t.machine.bus)
    (disk : t.lastViDisk = s.lastViDisk)
    (returns : runTurns hook rxOverrunOn fuel script s = some (passages, last))
    (plain : ∀ p ∈ passages, p.after.cpu.serviced = 0)
    (granted : last.machine.refusals = s.machine.refusals) :
    ∃ others final, runTurns hook rxOverrunOn fuel script t = some (others, final) ∧
      TwinPassages s.machine.mmu.Open s.machine t.machine passages others ∧
      Twin s.machine.mmu.Open s.machine t.machine last.machine final.machine :=
  runTurns_twinFrom ⟨user, fun kind _ opened => ⟨kind, opened⟩⟩
    ⟨cpu, mmu, bus, [], rfl, rfl⟩ disk returns plain granted

end

/-! ## A program beside a secret -/

/-- A unit that opens the first four kilobytes of every segment it translates. -/
def smallUnit : Mmu :=
  { (default : Mmu) with
    mode := modeMsen ||| modeTrns, desc := fun _ => { base := 0, limit := 0x0F, attr := 0 } }

/-- A program in normal mode that copies a word with LD R3,@R2 and LD @R4,R3; a byte of its segment
lies beyond the limit. -/
def copying (secret : Byte) : RunState where
  machine := { (default : Machine) with
    cpu := { (default : Cpu) with
      pc := 0x0100, R := fun r => if r = 2 then 0x0200 else if r = 4 then 0x0300 else 0 }
    mmu := smallUnit
    bus := { (default : Bus) with
      flatMem := true, flatMaxseg := 0xFF
      ram := fun a =>
        if a = 0x100 then 0x21 else if a = 0x101 then 0x23 else if a = 0x102 then 0x2F
        else if a = 0x103 then 0x43 else if a = 0x2000 then secret else 0x5A } }
  lastViDisk := false

theorem smallUnit_limit : ∀ (page : Byte) (w n f : Bool),
    ladderViol { base := 0, limit := 0x0F, attr := 0 } page w n f =
      if 0x0F < page then some vtSlv else none := by decide

theorem smallUnit_half : ∀ sn : Byte, smallUnit.translates sn = false → 0x40 ≤ sn &&& 0x7F := by
  decide

theorem identityAddr_toNat (sn : Byte) (off : Word) :
    (identityAddr sn off).toNat = (sn &&& 0x7F).toNat * 2 ^ 16 + off.toNat := by
  have low : (sn &&& 0x7F).toNat < 2 ^ 8 := (sn &&& 0x7F).isLt
  unfold identityAddr
  rw [BitVec.toNat_or, BitVec.toNat_shiftLeft, BitVec.toNat_setWidth, BitVec.toNat_setWidth,
    Nat.shiftLeft_eq, Nat.mod_eq_of_lt (show (sn &&& 0x7F).toNat < 2 ^ 32 by omega),
    Nat.mod_eq_of_lt (show off.toNat < 2 ^ 32 by have := off.isLt; omega),
    Nat.mod_eq_of_lt (show (sn &&& 0x7F).toNat * 2 ^ 16 < 2 ^ 32 by omega),
    Nat.mul_comm, ← Nat.two_pow_add_eq_or_of_lt off.isLt, Nat.mul_comm]

/-- A byte beyond the limit is not open. -/
theorem smallUnit_shut : ¬smallUnit.Open 0x2000 := by
  rintro ⟨kind, a, granted, spanned⟩
  have near : 0x1FFF ≤ (busAddress (smallUnit.user kind a).1).toNat ∧
      (busAddress (smallUnit.user kind a).1).toNat ≤ 0x2000 := by
    rcases spanned with here | behind
    · rw [← here]
      decide
    · have value : busAddress (smallUnit.user kind a).1 = 0x1FFF := by
        bv_omega
      rw [value]
      decide
  rw [busAddress_toNat] at near
  unfold Mmu.user mmuTranslate at granted near
  dsimp only at granted near
  have slow : smallUnit.fastOk (segIndex (segOf a)) = false := rfl
  cases acts : smallUnit.translates (segOf a) with
  | false =>
    rw [acts] at near
    simp only [Bool.not_false, if_true] at near
    have half := BitVec.le_def.mp (smallUnit_half _ acts)
    have seven : (segOf a &&& 0x7F).toNat < 0x80 := by
      rw [BitVec.toNat_and]
      exact Nat.lt_succ_of_le Nat.and_le_right
    have offset := (offOf a).isLt
    rw [identityAddr_toNat] at near
    change 0x40 ≤ _ at half
    omega
  | true =>
    rw [acts, slow] at granted near
    simp only [Bool.not_true, Bool.false_eq_true, if_false] at granted near
    dsimp only [protectionLadder] at granted near
    have descriptor : smallUnit.desc (segIndex (segOf a)) = { base := 0, limit := 0x0F, attr := 0 } := rfl
    rw [descriptor, smallUnit_limit] at granted near
    by_cases beyond : (0x0F : Byte) < (offOf a >>> 8).setWidth 8
    · rw [if_pos beyond] at granted
      exact absurd granted (by simp)
    · rw [if_neg beyond] at near
      have phys : MmuDesc.phys { base := 0, limit := 0x0F, attr := 0 } (offOf a) =
          busAddress ((offOf a).setWidth 32) := by simp [MmuDesc.phys, MmuDesc.frame, busAddress]
      dsimp only at near
      rw [phys, busAddress_toNat, BitVec.toNat_setWidth] at near
      have page : ((offOf a >>> 8).setWidth 8).toNat ≤ 0x0F := by
        simpa [BitVec.lt_def] using beyond
      rw [BitVec.toNat_setWidth, BitVec.toNat_ushiftRight, Nat.shiftRight_eq_div_pow] at page
      have offset := (offOf a).isLt
      omega

theorem copying_returns : (runTurns none false 0 [[], []] (copying 0)).isSome = true := by
  decide +kernel

/-- Its two turns. -/
@[irreducible] def copyingRun : List Passage × RunState :=
  (runTurns none false 0 [[], []] (copying 0)).get copying_returns

theorem runTurns_copying :
    runTurns none false 0 [[], []] (copying 0) = some (copyingRun.1, copyingRun.2) := by
  have whole : runTurns none false 0 [[], []] (copying 0) = some copyingRun := by
    unfold copyingRun
    exact (Option.some_get copying_returns).symm
  exact whole.trans (congrArg some (Prod.eta copyingRun).symm)

theorem copyingRun_plain : ∀ p ∈ copyingRun.1, p.after.cpu.serviced = 0 := by
  have all : copyingRun.1.all (fun p => p.after.cpu.serviced == 0) = true := by decide +kernel
  exact fun p inside => eq_of_beq (List.all_eq_true.mp all p inside)

theorem copyingRun_contained : Contained (copying 0).machine copyingRun.2.machine := by
  have run := LoopRun.start.turns runTurns_copying
  rw [List.nil_append] at run
  exact loopRun_contained run rfl copyingRun_plain

/-- The copy goes the same way whatever the byte beyond the limit holds. -/
theorem copyingRun_twin : ∃ others final,
    runTurns none false 0 [[], []] (copying 0x77) = some (others, final) ∧
      TwinPassages smallUnit.Open (copying 0).machine (copying 0x77).machine copyingRun.1 others ∧
      Twin smallUnit.Open (copying 0).machine (copying 0x77).machine copyingRun.2.machine
        final.machine := by
  have granted : copyingRun.2.machine.refusals = (copying 0).machine.refusals := by decide +kernel
  have bus : Bus.Alike smallUnit.Open (copying 0).machine.bus (copying 0x77).machine.bus := by
    refine ⟨rfl, fun byte opened => ?_⟩
    have other : byte ≠ 0x2000 := by
      rintro rfl
      exact smallUnit_shut opened
    show (if _ then _ else _) = (if _ then _ else _)
    simp only [if_neg other]
  have user : (copying 0).machine.cpu.sysmode = false := rfl
  have cpu : (copying 0x77).machine.cpu = (copying 0).machine.cpu := rfl
  have mmu : (copying 0x77).machine.mmu = (copying 0).machine.mmu := rfl
  exact runTurns_twin user cpu mmu bus rfl runTurns_copying copyingRun_plain granted

end C900
