import C900.Bus.Wire
import C900.Cpu.Step

/-!
# The machine loop

`machine_run`: each turn the host may hand characters to the serial receivers, the
system tick advances, the vectored interrupt sources are aggregated into one line and
one vector, and the processor steps. `Bus.viHighest` is what the daisy chain is for,
the vector of the first source that requests; the aggregation computes it.
-/

namespace C900

/-! ## Sources -/

/-- The PCLK/2 period of the system tick, in instructions. -/
def ct3Period (b : Bus) : Long :=
  let tc : Long := (b.cio1 0x1A).setWidth 32 <<< 8 ||| (b.cio1 0x1B).setWidth 32
  let period := tc >>> 1
  let period := if period < 2000 then 2000 else period
  if 60000 < period then 60000 else period

/-- The down-counter CT3 in continuous mode. -/
def ct3Tick (b : Bus) : Bus :=
  if b.ct3Running && b.cio1 0x1E &&& 0x80 != 0 then
    let accum := b.ct3Accum + 1
    if ct3Period b ≤ accum then
      { b with ct3Accum := 0, cio1 := Function.update b.cio1 0x0C (b.cio1 0x0C ||| 0x20) }
    else { b with ct3Accum := accum }
  else b

/-- `ct3_int`. -/
def ct3Int (b : Bus) : Bool :=
  b.cio1 0x0C &&& 0x20 != 0 && b.cio1 0x0C &&& 0x40 != 0 && b.cio1 0x00 &&& 0x80 != 0

/-- The vector of CT3, with the counter number in it when CTVIS is set. -/
def ct3Vector (b : Bus) : Byte :=
  if b.cio1 0x00 &&& 0x04 != 0 then b.cio1 0x04 &&& ~~~(0x07 : Byte) else b.cio1 0x04

/-- The turn of one chip in `lr_scc_vi`. -/
def lrSccViChip (b : Bus) (chip : Fin 3) : Option Byte :=
  if (b.sccPort (sccPortNumber chip true)).any sccRxInt then some (sccVectorChip b chip 0x06)
  else if (b.sccPort (sccPortNumber chip false)).any sccRxInt then
    some (sccVectorChip b chip 0x02)
  else none

/-- `lr_scc_vi`. -/
def lrSccVi (b : Bus) : Option Byte :=
  match lrSccViChip b 1 with
  | some vec => some vec
  | none => lrSccViChip b 2

/-! ## The loop -/

/-- The machine, and `last_vi_disk`: the vector on the line is the disk's. -/
structure RunState where
  machine : Machine
  lastViDisk : Bool
deriving Inhabited

/-- The line is asserted with a vector. -/
def RunState.assertVi (s : RunState) (vec : Byte) (disk : Bool) : RunState where
  machine := { s.machine with
    cpu := { s.machine.cpu with viLine := true, viVector := vec.setWidth 16 } }
  lastViDisk := disk

/-- The line is dropped; the vector stays. -/
def RunState.dropVi (s : RunState) : RunState :=
  { s with machine := { s.machine with cpu := { s.machine.cpu with viLine := false } } }

/-- The vectored interrupt aggregation of `machine_run`. -/
def RunState.aggregateVi (s : RunState) : RunState :=
  let b := s.machine.bus
  if ct3Int b then s.assertVi (ct3Vector b) false
  else if sccRxInt b.sccA then s.assertVi (sccVectorChip b 0 0x06) false
  else if sccRxInt b.sccB then s.assertVi (sccVectorChip b 0 0x02) false
  else
    match if b.lrScc then lrSccVi b else none with
    | some vec => s.assertVi vec false
    | none => if b.diskVi then s.assertVi 0x80 true else s.dropVi

/-- `scc_rx_port`: a character for the receiver of a port. `scc_rx_console` and the
passes over the wired ports deliver by it. -/
def sccRxPort (rxOverrunOn : Bool) (b : Bus) (arrival : SccPort × Byte) : Bus :=
  match b.sccPort arrival.1 with
  | none => b
  | some ch => b.setSccPort arrival.1 (sccRxDeliver rxOverrunOn ch arrival.2)

/-- A turn up to its call of `cpu_step`. -/
def RunState.boundary (rxOverrunOn : Bool) (arrivals : List (SccPort × Byte)) (s : RunState) :
    RunState :=
  let bus := ct3Tick (arrivals.foldl (sccRxPort rxOverrunOn) s.machine.bus)
  { s with machine := { s.machine with bus } }.aggregateVi

/-- The end of a turn: the disk request is cleared when it is serviced. -/
def RunState.finish (s : RunState) (m : Machine) : RunState :=
  let served := m.cpu.serviced == irqVi && s.lastViDisk
  { s with machine := { m with bus := { m.bus with diskVi := m.bus.diskVi && !served } } }

/-- `machine_run` up to its loop. -/
def Machine.enterLoop (m : Machine) : RunState where
  machine := cpuReset { m with mmu := mmuReset m.mmu }
  lastViDisk := false

/-- An instruction boundary of a run: the machine that `cpu_step` is called on, and
the machine that it returns. -/
structure Passage where
  before : Machine
  after : Machine

/-- A run of the loop, with its instruction boundaries. The characters that arrive
before a boundary are any. -/
inductive LoopRun (hook : SysHook) (rxOverrunOn : Bool) (start : RunState) :
    List Passage → RunState → Prop where
  | start : LoopRun hook rxOverrunOn start [] start
  | turn {passages : List Passage} {s : RunState} {m : Machine}
      (run : LoopRun hook rxOverrunOn start passages s) (goesOn : s.machine.bus.stop = false)
      (arrivals : List (SccPort × Byte)) (fuel : Nat)
      (steps : cpuStep hook fuel (s.boundary rxOverrunOn arrivals).machine = some m) :
      LoopRun hook rxOverrunOn start
        (passages ++ [⟨(s.boundary rxOverrunOn arrivals).machine, m⟩])
        ((s.boundary rxOverrunOn arrivals).finish m)

/-- The turns of a run, one for each list of arrivals. -/
def runTurns (hook : SysHook) (rxOverrunOn : Bool) (fuel : Nat) :
    List (List (SccPort × Byte)) → RunState → Option (List Passage × RunState)
  | [], s => some ([], s)
  | arrivals :: rest, s =>
    let b := s.boundary rxOverrunOn arrivals
    if s.machine.bus.stop then none
    else
      match cpuStep hook fuel b.machine with
      | none => none
      | some m =>
        (runTurns hook rxOverrunOn fuel rest (b.finish m)).map fun r => (⟨b.machine, m⟩ :: r.1, r.2)

/-- The turns prolong a run. -/
theorem LoopRun.turns {hook : SysHook} {rxOverrunOn : Bool} {fuel : Nat}
    {script : List (List (SccPort × Byte))} {start s t : RunState} {passages more : List Passage}
    (run : LoopRun hook rxOverrunOn start passages s)
    (returns : runTurns hook rxOverrunOn fuel script s = some (more, t)) :
    LoopRun hook rxOverrunOn start (passages ++ more) t := by
  induction script generalizing s passages more with
  | nil =>
    obtain ⟨rfl, rfl⟩ := Prod.mk.inj (Option.some.inj returns)
    rw [List.append_nil]
    exact run
  | cons arrivals rest inductionHypothesis =>
    unfold runTurns at returns
    dsimp only at returns
    split at returns
    · exact absurd returns (by simp)
    next goesOn =>
      split at returns
      · exact absurd returns (by simp)
      next m steps =>
        obtain ⟨⟨others, last⟩, continues, both⟩ := Option.map_eq_some_iff.mp returns
        obtain ⟨rfl, rfl⟩ := Prod.mk.inj both
        have next := run.turn (Bool.not_eq_true _ ▸ goesOn) arrivals fuel steps
        rw [List.append_cons]
        exact inductionHypothesis next continues

/-! ## The daisy chain -/

/-- The sources in the order of the daisy chain, each with its request and its
vector. -/
def Bus.viSources (b : Bus) : List (Bool × Byte) :=
  let lr (port : SccPort) := b.lrScc && (b.sccPort port).any sccRxInt
  [(ct3Int b, ct3Vector b),
    (sccRxInt b.sccA, sccVectorChip b 0 0x06), (sccRxInt b.sccB, sccVectorChip b 0 0x02),
    (lr 3, sccVectorChip b 1 0x06), (lr 2, sccVectorChip b 1 0x02),
    (lr 5, sccVectorChip b 2 0x06), (lr 4, sccVectorChip b 2 0x02),
    (b.diskVi, 0x80)]

/-- The vector of the highest-priority source that requests now. -/
def Bus.viHighest (b : Bus) : Option Byte := (b.viSources.find? (·.1)).map (·.2)

/-- The highest-priority source requests, and no source above it does. -/
theorem viHighest_eq_some_iff (b : Bus) (vec : Byte) :
    b.viHighest = some vec ↔
      ∃ above below, b.viSources = above ++ (true, vec) :: below ∧ ∀ x ∈ above, x.1 = false := by
  unfold Bus.viHighest
  rw [Option.map_eq_some_iff]
  constructor
  · rintro ⟨⟨requests, v⟩, found, rfl⟩
    obtain ⟨set, above, below, parts, quiet⟩ := List.find?_eq_some_iff_append.mp found
    obtain rfl : requests = true := set
    exact ⟨above, below, parts, fun x inside => by simpa using quiet x inside⟩
  · rintro ⟨above, below, parts, quiet⟩
    refine ⟨(true, vec), List.find?_eq_some_iff_append.mpr ⟨rfl, above, below, parts, ?_⟩, rfl⟩
    exact fun x inside => by simpa using quiet x inside

/-- The line and the vector that a processor is shown. -/
def Cpu.showVi (c : Cpu) : Option Byte → Cpu
  | some vec => { c with viLine := true, viVector := vec.setWidth 16 }
  | none => { c with viLine := false }

/-- The LR board's part of the chain. -/
theorem lrSccVi_find (b : Bus) :
    (if b.lrScc then lrSccVi b else none) =
      ((b.viSources.drop 3).dropLast.find? (·.1)).map (·.2) := by
  have a1 : sccPortNumber 1 true = 3 := rfl
  have b1 : sccPortNumber 1 false = 2 := rfl
  have a2 : sccPortNumber 2 true = 5 := rfl
  have b2 : sccPortNumber 2 false = 4 := rfl
  cases fitted : b.lrScc with
  | false => simp [Bus.viSources, fitted]
  | true =>
    simp only [if_true, lrSccVi, lrSccViChip, a1, b1, a2, b2, Bus.viSources, fitted, Bool.true_and,
      List.drop, List.dropLast, List.find?]
    cases (b.sccPort 3).any sccRxInt
    · cases (b.sccPort 2).any sccRxInt
      · cases (b.sccPort 5).any sccRxInt
        · cases (b.sccPort 4).any sccRxInt <;> rfl
        · rfl
      · rfl
    · rfl

/-- The aggregation shows the processor the highest-priority source. -/
theorem aggregateVi_machine (s : RunState) :
    s.aggregateVi.machine =
      { s.machine with cpu := s.machine.cpu.showVi s.machine.bus.viHighest } := by
  have board := lrSccVi_find s.machine.bus
  unfold RunState.aggregateVi
  dsimp only
  cases timer : ct3Int s.machine.bus with
  | true => simp [Bus.viHighest, Bus.viSources, timer, RunState.assertVi, Cpu.showVi]
  | false =>
    cases chanA : sccRxInt s.machine.bus.sccA with
    | true => simp [Bus.viHighest, Bus.viSources, timer, chanA, RunState.assertVi, Cpu.showVi]
    | false =>
      cases chanB : sccRxInt s.machine.bus.sccB with
      | true =>
        simp [Bus.viHighest, Bus.viSources, timer, chanA, chanB, RunState.assertVi, Cpu.showVi]
      | false =>
        have chain : s.machine.bus.viHighest =
            (if s.machine.bus.lrScc then lrSccVi s.machine.bus else none).or
              (if s.machine.bus.diskVi then some 0x80 else none) := by
          have parts : s.machine.bus.viSources = s.machine.bus.viSources.take 3 ++
            ((s.machine.bus.viSources.drop 3).dropLast ++ [(s.machine.bus.diskVi, 0x80)]) := rfl
          have above : (s.machine.bus.viSources.take 3).find? (·.1) = none := by
            simp [Bus.viSources, timer, chanA, chanB]
          rw [Bus.viHighest, parts, List.find?_append, above, Option.none_or, List.find?_append,
            Option.map_or, board]
          cases s.machine.bus.diskVi <;> rfl
        rw [chain]
        simp only [Bool.false_eq_true, if_false]
        cases (if s.machine.bus.lrScc then lrSccVi s.machine.bus else none) with
        | some vec => rfl
        | none => cases s.machine.bus.diskVi <;> rfl
end C900
