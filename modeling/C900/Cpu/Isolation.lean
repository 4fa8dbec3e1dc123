import C900.Bus.Words
import C900.Cpu.Privilege
import C900.Cpu.Report

/-!
# The memory that normal mode reaches

`Mmu.Opens` tells which bytes of the RAM array an access in normal mode can touch. A
step that executes an instruction in normal mode writes no other byte
(`cpuStep_sandboxed`), and as long as the unit refuses no access it does not depend on
any other byte either (`cpuStep_twin`).
-/

namespace C900

/-! ## Open bytes -/

/-- A translation in normal mode. -/
def Mmu.user (u : Mmu) (kind : Access) (a : Long) : Long × Bool × Mmu :=
  mmuTranslate u (segOf a) (offOf a) (kind == .write) true (kind == .fetch)

/-- An access at a physical address spans this byte of the array: the byte itself, or the one
behind it for a word. -/
def Spans (p byte : Long) : Prop := byte = busAddress p ∨ byte = busAddress p + 1

/-- Some address lets an access of this kind in normal mode touch the byte. -/
def Mmu.Opens (u : Mmu) (kind : Access) (byte : Long) : Prop :=
  ∃ a, (u.user kind a).2.1 = false ∧ Spans (u.user kind a).1 byte

/-- Units that translate alike open the same bytes. -/
theorem Mmu.SameMap.opens {u v : Mmu} (same : u.SameMap v) {kind : Access} {byte : Long}
    (opened : u.Opens kind byte) : v.Opens kind byte := by
  obtain ⟨a, granted, touched⟩ := opened
  obtain ⟨address, refused⟩ := same.translate (segOf a) (offOf a) (kind == .write) true (kind == .fetch)
  exact ⟨a, refused.symm.trans granted, (show (v.user kind a).1 = (u.user kind a).1 from
    address.symm) ▸ touched⟩

namespace Machine

variable {m : Machine}

/-- In normal mode an access is translated as one of normal mode. -/
theorem translate_user (user : m.cpu.sysmode = false) (kind : Access) (a : Long) :
    m.translate kind a = m.mmu.user kind a := by
  rw [translate, user]
  rfl

/-- What a granted access in normal mode touches is open. -/
theorem opens_of_granted (user : m.cpu.sysmode = false) {kind : Access} {a byte : Long}
    (granted : m.violates kind a = false) (touched : Spans (m.physOf kind a) byte) :
    m.mmu.Opens kind byte := by
  rw [violates, translate_user user] at granted
  rw [physOf, translate_user user] at touched
  exact ⟨a, granted, touched⟩

end Machine

/-! ## Stores -/

/-- A byte store reaches the byte at its address. -/
theorem physWrite8_apart (b : Bus) (p : Long) (v : Byte) {byte : Long}
    (apart : byte ≠ busAddress p) : (physWrite8 b p v).ram byte = b.ram byte := by
  unfold physWrite8 Bus.setRam
  dsimp only
  split_ifs
  · exact Function.update_of_ne apart _ _
  · rfl
  · rfl
  · exact Function.update_of_ne apart _ _
  · rfl

theorem setRamWord_apart (b : Bus) {a byte : Long} (v : Word) (first : byte ≠ a)
    (second : byte ≠ a + 1) : (b.setRamWord a v).ram byte = b.ram byte :=
  (Function.update_of_ne second _ _).trans (Function.update_of_ne first _ _)

/-- On the board the byte at address 0 is the ROM's. -/
theorem physWrite8_zero {b : Bus} (board : ¬b.flatMem = true) {a : Long} (zero : busAddress a = 0)
    (v : Byte) : physWrite8 b a v = b := by
  have inRom : (0 : Long) < romSize := by decide
  rw [physWrite8, zero, if_neg board, if_pos inRom]

/-- A word store reaches the two bytes from its address on. -/
theorem physWrite16_apart (b : Bus) (p : Long) (v : Word) {byte : Long}
    (apart : ¬Spans p byte) : (physWrite16 b p v).ram byte = b.ram byte := by
  obtain ⟨first, second⟩ := not_or.mp apart
  unfold physWrite16
  dsimp only
  split_ifs with flat
  · exact setRamWord_apart b v first second
  · rfl
  · rfl
  · exact setRamWord_apart b v first second
  · have high : (physWrite8 b (busAddress p) (hiByte v)).ram byte = b.ram byte :=
      physWrite8_apart _ _ _ (by rwa [busAddress_idem])
    have board : ¬(physWrite8 b (busAddress p) (hiByte v)).flatMem = true := by
      rwa [physWrite8_flatMem]
    by_cases next : busAddress (busAddress p + 1) = busAddress p + 1
    · exact (physWrite8_apart _ _ _ (by rwa [next])).trans high
    · rw [physWrite8_zero board (busAddress_next next)]
      exact high

/-! ## Two buses -/

/-- The buses differ at most in RAM bytes that are not seen. -/
structure Bus.Alike (seen : Long → Prop) (b c : Bus) : Prop where
  devices : c = { b with ram := c.ram }
  ram : ∀ byte, seen byte → c.ram byte = b.ram byte

namespace Bus.Alike

variable {seen : Long → Prop} {b c : Bus}

theorem flatMem (alike : Bus.Alike seen b c) : c.flatMem = b.flatMem := by rw [alike.devices]

theorem flatMapped (alike : Bus.Alike seen b c) (a : Long) : c.flatMapped a = b.flatMapped a := by
  rw [alike.devices]
  rfl

theorem rom (alike : Bus.Alike seen b c) : c.rom = b.rom := by rw [alike.devices]

theorem physRead8 (alike : Bus.Alike seen b c) {p : Long} (seenHere : seen (busAddress p)) :
    C900.physRead8 c p = C900.physRead8 b p := by
  unfold C900.physRead8
  dsimp only
  rw [alike.flatMem, alike.flatMapped, alike.rom, alike.ram _ seenHere]

theorem physRead16 (alike : Bus.Alike seen b c) {p : Long}
    (seenHere : ∀ byte, Spans p byte → seen byte) :
    C900.physRead16 c p = C900.physRead16 b p := by
  have first := seenHere _ (.inl rfl)
  have second := seenHere _ (.inr rfl)
  have word : wordAt c.ram (busAddress p) = wordAt b.ram (busAddress p) := by
    rw [wordAt, wordAt, alike.ram _ first, alike.ram _ second]
  have high : C900.physRead8 c (busAddress p) = C900.physRead8 b (busAddress p) :=
    alike.physRead8 (by rwa [busAddress_idem])
  unfold C900.physRead16
  dsimp only
  rw [alike.flatMem, alike.flatMapped, alike.rom, word, high]
  by_cases flat : b.flatMem = true
  · simp only [flat, if_true]
  · have low : C900.physRead8 c (busAddress p + 1) = C900.physRead8 b (busAddress p + 1) := by
      by_cases next : busAddress (busAddress p + 1) = busAddress p + 1
      · exact alike.physRead8 (by rwa [next])
      · have inRom : (0 : Long) < romSize := by decide
        have board : ¬c.flatMem = true := by rwa [alike.flatMem]
        rw [C900.physRead8, C900.physRead8, busAddress_next next, if_neg flat, if_neg board,
          if_pos inRom, if_pos inRom, alike.rom]
    rw [low]

/-- The same bytes stored in both. -/
theorem setRam (alike : Bus.Alike seen b c) (a : Long) (v : Byte) :
    Bus.Alike seen (b.setRam a v) (c.setRam a v) := by
  constructor
  · rw [Bus.setRam, alike.devices]
    rfl
  · intro byte sees
    simp only [Bus.setRam, Function.update_apply, alike.ram byte sees]

theorem physWrite8 (alike : Bus.Alike seen b c) (p : Long) (v : Byte) :
    Bus.Alike seen (C900.physWrite8 b p v) (C900.physWrite8 c p v) := by
  unfold C900.physWrite8
  dsimp only
  rw [alike.flatMem, alike.flatMapped]
  split_ifs
  · exact alike.setRam _ v
  · exact alike
  · exact alike
  · exact alike.setRam _ v
  · exact alike

theorem physWrite16 (alike : Bus.Alike seen b c) (p : Long) (v : Word) :
    Bus.Alike seen (C900.physWrite16 b p v) (C900.physWrite16 c p v) := by
  have word (a : Long) : Bus.Alike seen (b.setRamWord a v) (c.setRamWord a v) :=
    (alike.setRam _ _).setRam _ _
  unfold C900.physWrite16
  dsimp only
  rw [alike.flatMem, alike.flatMapped]
  split_ifs
  · exact word _
  · exact alike
  · exact alike
  · exact word _
  · exact (alike.physWrite8 _ _).physWrite8 _ _

end Bus.Alike

/-! ## What a step writes -/

/-- `after` came from `before` within normal mode: confined, and no byte was written that is not
open for writing. -/
structure Sandboxed (before after : Machine) : Prop where
  confined : Confined before after
  ram : ∀ byte, ¬before.mmu.Opens .write byte → after.bus.ram byte = before.bus.ram byte

namespace Sandboxed

theorem refl (m : Machine) : Sandboxed m m := ⟨.refl m, fun _ _ => rfl⟩

theorem trans {a b c : Machine} (first : Sandboxed a b) (second : Sandboxed b c) :
    Sandboxed a c := by
  refine ⟨first.confined.trans second.confined, fun byte shut => ?_⟩
  have still : ¬b.mmu.Opens .write byte := fun opened => shut (first.confined.map.opens opened)
  exact (second.ram byte still).trans (first.ram byte shut)

/-- An update of the processor. -/
theorem ofCpu (m : Machine) (c : Cpu) (keeps : c.control true = m.cpu.control true) :
    Sandboxed m { m with cpu := c } := ⟨.ofCpu m c keeps, fun _ _ => rfl⟩

/-- It is still in normal mode. -/
theorem user {m x : Machine} (sandboxed : Sandboxed m x) (user : m.cpu.sysmode = false) :
    x.cpu.sysmode = false := (Cpu.sysmode_of_control sandboxed.confined.control).trans user

end Sandboxed

section

variable {rept : Bool} {m : Machine} (user : m.cpu.sysmode = false)

include user

/-- One operation of a normal-mode program. -/
theorem UserOp.sandboxed {α : Type} {x : Exec α} (operation : UserOp rept x) :
    Sandboxed m (x m).2 := by
  refine ⟨operation.confined m user, fun byte shut => ?_⟩
  cases operation with
  | writeWord a v =>
    cases refused : m.violates .write a with
    | true => exact congrArg (Bus.ram · byte) (if_pos refused)
    | false =>
      have stored : (memW16 a v m).2.bus = physWrite16 m.bus (m.physOf .write a) v :=
        if_neg (Bool.not_eq_true _ ▸ refused)
      rw [stored]
      exact physWrite16_apart _ _ _ fun touched => shut (m.opens_of_granted user refused touched)
  | writeByte a v =>
    cases refused : m.violates .write a with
    | true => exact congrArg (Bus.ram · byte) (if_pos refused)
    | false =>
      have stored : (memW8 a v m).2.bus = physWrite8 m.bus (m.physOf .write a) v :=
        if_neg (Bool.not_eq_true _ ▸ refused)
      rw [stored]
      exact physWrite8_apart _ _ _ fun here =>
        shut (m.opens_of_granted user refused (.inl here))
  | guarded body quiet => rw [privileged_user body m user]
  | _ => rfl

/-- A whole normal-mode program. -/
theorem UserProgram.sandboxed {α : Type} {x : Exec α} (program : UserProgram rept x) :
    Sandboxed m (x m).2 := by
  have run := program.preserves (fun s t => s.cpu.sysmode = false → Sandboxed s t)
    (fun s _ => .refl s)
    (fun s t u first second userS => (first userS).trans (second ((first userS).user userS)))
    (fun _ _ operation s userS => operation.sandboxed userS)
  exact run m user

/-- The fetch. -/
theorem fetchDecode_sandboxed : Sandboxed m (fetchDecode m).2 := by
  have begun : Sandboxed m m.begun := .ofCpu m _ (by simp [Cpu.control, Cpu.beginFetch])
  have program : UserProgram true fetchWords := fetchWords_built.user
  exact begun.trans (program.sandboxed (begun.user user))

end

theorem Machine.takeWarning_sandboxed (m : Machine) : Sandboxed m m.takeWarning := by
  unfold takeWarning
  split
  · exact ⟨⟨rfl, ⟨rfl, rfl, rfl, fun _ => rfl⟩, ⟨_, rfl⟩, [], rfl,
      fun _ none => absurd none List.not_mem_nil⟩, fun _ _ => rfl⟩
  · exact .refl m

theorem Machine.leave_sandboxed (m : Machine) (pc : Long) : Sandboxed m (m.leave pc) := by
  unfold leave
  split_ifs
  · exact .ofCpu _ _ rfl
  · exact .ofCpu _ _ (by simp [Cpu.control, clearRepeat])
  · exact .refl m

section

variable {w : CtrlWord} (decoded : w ∈ pool) {m : Machine} (user : m.cpu.sysmode = false)

include decoded user

/-- One element of an instruction. -/
theorem executeElement_sandboxed : Sandboxed m (executeElement w m) := by
  have executed : Sandboxed m (execute w m).2 := (execute_built decoded).sandboxed user
  have counted : Sandboxed (execute w m).2
      { (execute w m).2 with cpu := { (execute w m).2.cpu with insns := (execute w m).2.cpu.insns + 1 } } :=
    .ofCpu _ _ rfl
  exact executed.trans (counted.trans (Machine.takeWarning_sandboxed _))

theorem elementRun_sandboxed (k : Nat) : Sandboxed m (elementRun w m k) := by
  induction k with
  | zero => exact .refl m
  | succ k inductionHypothesis =>
    rw [elementRun_succ]
    have cleared : Sandboxed (elementRun w m k) (elementRun w m k).clearRepeat :=
      .ofCpu _ _ (by simp [Cpu.control])
    have here := inductionHypothesis.trans cleared
    exact here.trans (executeElement_sandboxed decoded (here.user user))

/-- A whole instruction, from its fetched form on. -/
theorem runInstruction_sandboxed {fuel : Nat} {r : Machine} (fresh : m.cpu.repeatPending = false)
    (returns : runInstruction fuel w m = some r) : Sandboxed m r := by
  obtain ⟨k, -, -, rfl⟩ := (runInstruction_eq_some_iff w fuel _ r fresh).mp returns
  have starting : Sandboxed m m.started := .ofCpu _ _ rfl
  have elements := elementRun_sandboxed decoded (starting.user user) (k + 1)
  exact starting.trans (elements.trans (Machine.leave_sandboxed _ _))

end

/-- The boundary of a step that takes no trap. -/
theorem Machine.sampled_sandboxed (m : Machine) : Sandboxed m m.beginStep.sampled := by
  obtain ⟨irqReq, sampled⟩ := m.beginStep.cpu.sampleLines_request
  refine .ofCpu m _ ?_
  rw [sampled]
  rfl

section

variable {hook : SysHook} {fuel : Nat} {m r : Machine} (user : m.cpu.sysmode = false)

include user

/-- A step in normal mode that takes no trap stays in the sandbox, whatever its accesses. -/
theorem cpuStep_sandboxed (plain : m.beginStep.sampled.cpu.trapSource = none)
    (returns : cpuStep hook fuel m = some r) : Sandboxed m r := by
  have boundary := m.sampled_sandboxed
  have fetched := boundary.trans (fetchDecode_sandboxed (boundary.user user))
  cases halted : m.beginStep.sampled.cpu.halted with
  | true =>
    rw [cpuStep_halted plain halted] at returns
    exact Option.some.inj returns ▸ boundary
  | false =>
    rw [cpuStep_fetch plain halted] at returns
    cases known : m.beginStep.sampled.decoded with
    | none =>
      rw [stepInstruction_illegal known] at returns
      exact Option.some.inj returns ▸ fetched.trans (.ofCpu _ _ rfl)
    | some w =>
      rw [stepInstruction_run known] at returns
      exact fetched.trans (runInstruction_sandboxed (decodeLookup_mem known) (fetched.user user)
        (fetchDecode_fresh _) returns)

end

/-! ## What a step depends on -/

/-- The cycles of a run that the unit has refused. -/
def Machine.refusals (m : Machine) : Nat := m.trace.countP Event.refused

/-- More cycles make no fewer refusals. -/
theorem Machine.refusals_le {m x : Machine} {done : List Event} (trace : x.trace = done ++ m.trace) :
    m.refusals ≤ x.refusals := by
  rw [refusals, refusals, trace, List.countP_append]
  exact Nat.le_add_left _ _

theorem Sandboxed.refusals_le {m x : Machine} (sandboxed : Sandboxed m x) :
    m.refusals ≤ x.refusals := by
  obtain ⟨done, trace, -⟩ := sandboxed.confined.cycles
  exact Machine.refusals_le trace

/-- Normal mode, where every open byte is seen. -/
structure Machine.UserView (seen : Long → Prop) (m : Machine) : Prop where
  user : m.cpu.sysmode = false
  sees : ∀ kind byte, m.mmu.Opens kind byte → seen byte

theorem Sandboxed.view {seen : Long → Prop} {m x : Machine} (sandboxed : Sandboxed m x)
    (view : m.UserView seen) : x.UserView seen :=
  ⟨sandboxed.user view.user, fun kind byte opened =>
    view.sees kind byte (sandboxed.confined.map.opens opened)⟩

/-- Two machines that differ at most in RAM bytes that are not seen, after the same bus cycles
from two others. -/
structure Twin (seen : Long → Prop) (m₀ n₀ m n : Machine) : Prop where
  cpu : n.cpu = m.cpu
  mmu : n.mmu = m.mmu
  bus : Bus.Alike seen m.bus n.bus
  cycles : ∃ done, m.trace = done ++ m₀.trace ∧ n.trace = done ++ n₀.trace

namespace Twin

variable {seen : Long → Prop} {m₀ n₀ m n : Machine}

/-- The same update of both processors. -/
theorem withCpu (twin : Twin seen m₀ n₀ m n) (f : Cpu → Cpu) :
    Twin seen m₀ n₀ { m with cpu := f m.cpu } { n with cpu := f n.cpu } :=
  ⟨congrArg f twin.cpu, twin.mmu, twin.bus, twin.cycles⟩

theorem translate (twin : Twin seen m₀ n₀ m n) (kind : Access) (a : Long) :
    n.translate kind a = m.translate kind a := by
  rw [Machine.translate, Machine.translate, twin.cpu, twin.mmu]

theorem physOf (twin : Twin seen m₀ n₀ m n) (kind : Access) (a : Long) :
    n.physOf kind a = m.physOf kind a := congrArg Prod.fst (twin.translate kind a)

theorem violates (twin : Twin seen m₀ n₀ m n) (kind : Access) (a : Long) :
    n.violates kind a = m.violates kind a := congrArg (·.2.1) (twin.translate kind a)

/-- A cycle of both. -/
theorem cycle (twin : Twin seen m₀ n₀ m n) (kind : Access) (wide : Bool) (a : Long) :
    Twin seen m₀ n₀ (m.cycle kind wide a) (n.cycle kind wide a) := by
  obtain ⟨done, fromM, fromN⟩ := twin.cycles
  have event : n.memEvent kind wide a = m.memEvent kind wide a := by
    rw [Machine.memEvent, Machine.memEvent, twin.physOf, twin.violates]
  refine ⟨?_, congrArg (·.2.2) (twin.translate kind a), twin.bus,
    m.memEvent kind wide a :: done, congrArg (_ :: ·) fromM, ?_⟩
  · show ({ n.cpu with fault := n.cpu.fault || n.violates kind a } : Cpu) = _
    rw [twin.cpu, twin.violates]
    rfl
  · show n.memEvent kind wide a :: n.trace = _
    rw [event, fromN]
    rfl

/-- The store behind a cycle. -/
theorem store {x y : Machine} (twin : Twin seen m₀ n₀ x y) {b c : Bus}
    (stored : Bus.Alike seen b c) : Twin seen m₀ n₀ { x with bus := b } { y with bus := c } :=
  ⟨twin.cpu, twin.mmu, stored, twin.cycles⟩

end Twin

/-- A cycle adds no refusal exactly when it is granted. -/
theorem Machine.cycle_granted {m : Machine} {kind : Access} {wide : Bool} {a : Long}
    (free : (m.cycle kind wide a).refusals = m.refusals) : m.violates kind a = false := by
  cases refused : m.violates kind a with
  | false => rfl
  | true =>
    have event : (m.memEvent kind wide a).refused = true := refused
    have more : (m.cycle kind wide a).refusals = m.refusals + 1 :=
      List.countP_cons_of_pos event
    omega

section

variable {seen : Long → Prop} {m₀ n₀ m n : Machine}

/-- What a granted access of normal mode touches is seen. -/
theorem Machine.UserView.touched (view : m.UserView seen) {kind : Access} {wide : Bool} {a : Long}
    (free : (m.cycle kind wide a).refusals = m.refusals) :
    ∀ byte, Spans (m.physOf kind a) byte → seen byte := fun _ touched =>
  view.sees kind _ (m.opens_of_granted view.user (m.cycle_granted free) touched)

/-- One operation of a normal-mode program that is refused nothing. -/
theorem UserOp.twin {rept : Bool} {α : Type} {x : Exec α} (operation : UserOp rept x)
    (view : m.UserView seen) (twin : Twin seen m₀ n₀ m n)
    (free : (x m).2.refusals = m.refusals) :
    (x m).1 = (x n).1 ∧ Twin seen m₀ n₀ (x m).2 (x n).2 := by
  cases operation with
  | get => exact ⟨twin.cpu.symm, twin⟩
  | modify f keeps => exact ⟨rfl, twin.withCpu f⟩
  | fetch a =>
    refine ⟨?_, twin.cycle .fetch true a⟩
    show physRead16 m.bus (m.physOf .fetch a) = physRead16 n.bus (n.physOf .fetch a)
    rw [twin.physOf, twin.bus.physRead16 (view.touched free)]
  | readWord a =>
    refine ⟨?_, twin.cycle .read true a⟩
    show physRead16 m.bus (m.physOf .read a) = physRead16 n.bus (n.physOf .read a)
    rw [twin.physOf, twin.bus.physRead16 (view.touched free)]
  | readByte a =>
    refine ⟨?_, twin.cycle .read false a⟩
    show physRead8 m.bus (m.physOf .read a) = physRead8 n.bus (n.physOf .read a)
    rw [twin.physOf, twin.bus.physRead8 (view.touched free _ (.inl rfl))]
  | writeWord a v =>
    refine ⟨rfl, (twin.cycle .write true a).store ?_⟩
    rw [twin.violates, twin.physOf]
    split
    · exact twin.bus
    · exact twin.bus.physWrite16 _ v
  | writeByte a v =>
    refine ⟨rfl, (twin.cycle .write false a).store ?_⟩
    rw [twin.violates, twin.physOf]
    split
    · exact twin.bus
    · exact twin.bus.physWrite8 _ v
  | guarded body quiet =>
    have userN : n.cpu.sysmode = false := by rw [twin.cpu, view.user]
    rw [privileged_user body m view.user, privileged_user body n userN]
    exact ⟨rfl, twin.withCpu (·.request irqTrap)⟩

/-- A whole normal-mode program that is refused nothing. -/
theorem UserProgram.twin {rept : Bool} {α : Type} {x : Exec α} (program : UserProgram rept x)
    (view : m.UserView seen) (twin : Twin seen m₀ n₀ m n)
    (free : (x m).2.refusals = m.refusals) :
    (x m).1 = (x n).1 ∧ Twin seen m₀ n₀ (x m).2 (x n).2 :=
  program.related (Machine.UserView seen) Machine.refusals (Twin seen m₀ n₀)
    (fun _ _ operation _ view => (operation.sandboxed view.user).view view)
    (fun _ _ operation _ view => (operation.sandboxed view.user).refusals_le)
    (fun _ _ operation _ _ view twin free => operation.twin view twin free) m n view twin free

/-- The fetch. -/
theorem fetchDecode_twin (view : m.UserView seen) (twin : Twin seen m₀ n₀ m n)
    (free : (fetchDecode m).2.refusals = m.refusals) :
    (fetchDecode m).1 = (fetchDecode n).1 ∧
      Twin seen m₀ n₀ (fetchDecode m).2 (fetchDecode n).2 := by
  have begun : m.begun.UserView seen := ⟨view.user, view.sees⟩
  have program : UserProgram true fetchWords := fetchWords_built.user
  exact program.twin begun (twin.withCpu Cpu.beginFetch) free

theorem Twin.takeWarning (twin : Twin seen m₀ n₀ m n) :
    Twin seen m₀ n₀ m.takeWarning n.takeWarning := by
  unfold Machine.takeWarning
  rw [twin.mmu]
  split
  · exact ⟨congrArg (·.request irqSegtrap) twin.cpu, rfl, twin.bus, twin.cycles⟩
  · exact ⟨twin.cpu, twin.mmu, twin.bus, twin.cycles⟩

theorem Twin.leave (twin : Twin seen m₀ n₀ m n) (pc : Long) :
    Twin seen m₀ n₀ (m.leave pc) (n.leave pc) := by
  unfold Machine.leave
  rw [twin.cpu]
  split_ifs
  · exact twin.withCpu fun c => { c.request irqSegtrap with pc := pc }
  · exact twin.withCpu fun c => { c with repeatPending := false, pc := c.instrStart }
  · exact twin

theorem Twin.settled (twin : Twin seen m₀ n₀ m n) : n.settled = m.settled := by
  rw [Machine.settled, Machine.settled, twin.cpu]

section

variable {w : CtrlWord} (decoded : w ∈ pool) (view : m.UserView seen)

include decoded view

/-- One element. -/
theorem executeElement_twin (twin : Twin seen m₀ n₀ m n)
    (free : (executeElement w m).refusals = m.refusals) :
    Twin seen m₀ n₀ (executeElement w m) (executeElement w n) := by
  have trace : (executeElement w m).trace = (execute w m).2.trace := Machine.takeWarning_trace _
  have executed := ((execute_built decoded).twin view twin
    (by rwa [Machine.refusals, trace] at free)).2
  exact (executed.withCpu fun c => { c with insns := c.insns + 1 }).takeWarning

/-- The elements up to one behind which nothing has been refused. -/
theorem elementRun_twin (twin : Twin seen m₀ n₀ m n) (k : Nat)
    (free : (elementRun w m k).refusals = m.refusals) :
    ∀ j ≤ k, Twin seen m₀ n₀ (elementRun w m j) (elementRun w n j) := by
  induction k with
  | zero =>
    intro j none
    obtain rfl := Nat.le_zero.mp none
    exact twin
  | succ k inductionHypothesis =>
    have before := elementRun_sandboxed decoded view.user k
    have cleared : Sandboxed (elementRun w m k) (elementRun w m k).clearRepeat :=
      .ofCpu _ _ (by simp [Cpu.control])
    have here := before.trans cleared
    have last := executeElement_sandboxed decoded (here.user view.user)
    rw [elementRun_succ] at free
    have upToHere : (elementRun w m k).refusals = m.refusals :=
      Nat.le_antisymm (free ▸ last.refusals_le) before.refusals_le
    have twins := inductionHypothesis upToHere
    intro j upTo
    rcases Nat.le_succ_iff.mp upTo with earlier | rfl
    · exact twins j earlier
    · rw [elementRun_succ, elementRun_succ]
      refine executeElement_twin decoded (here.view view)
        ((twins k (Nat.le_refl _)).withCpu fun c => { c with repeatPending := false }) ?_
      exact free.trans upToHere.symm

/-- A whole instruction that is refused nothing behind its fetch. -/
theorem runInstruction_twin (twin : Twin seen m₀ n₀ m n) {fuel : Nat} {r : Machine}
    (fresh : m.cpu.repeatPending = false) (returns : runInstruction fuel w m = some r)
    (free : r.refusals = m.refusals) :
    ∃ s, runInstruction fuel w n = some s ∧ Twin seen m₀ n₀ r s := by
  obtain ⟨k, within, ends, rfl⟩ := (runInstruction_eq_some_iff w fuel _ r fresh).mp returns
  have starting : Sandboxed m m.started := .ofCpu _ _ rfl
  have started : Twin seen m₀ n₀ m.started n.started :=
    twin.withCpu fun c => { c with pc := c.pcNext }
  have spent : (elementRun w m.started (k + 1)).refusals = m.started.refusals := by
    rw [Machine.refusals, Machine.leave_trace] at free
    exact free
  have element := elementRun_twin decoded (starting.view view) started (k + 1) spent
  have place : n.faultPc w k = m.faultPc w k := by
    unfold Machine.faultPc
    rw [twin.cpu, (element (k + 1) (Nat.le_refl _)).cpu]
  refine ⟨_, (runInstruction_eq_some_iff w fuel n _ (by rw [twin.cpu, fresh])).mpr
    ⟨k, within, ⟨fun j below => ?_, ?_⟩, rfl⟩, ?_⟩
  · exact (element (j + 1) (by omega)).settled.trans (ends.before j below)
  · exact (element (k + 1) (Nat.le_refl _)).settled.trans ends.last
  · rw [place]
    exact (element (k + 1) (Nat.le_refl _)).leave _

end

/-- A step in normal mode that takes no trap and is refused nothing depends on no byte that is not
open: another machine with the same open bytes makes the same step, with the same bus cycles. -/
theorem cpuStep_twin {hook : SysHook} {fuel : Nat} {r : Machine} (view : m.UserView seen)
    (twin : Twin seen m₀ n₀ m n) (plain : m.beginStep.sampled.cpu.trapSource = none)
    (returns : cpuStep hook fuel m = some r) (free : r.refusals = m.refusals) :
    ∃ s, cpuStep hook fuel n = some s ∧ Twin seen m₀ n₀ r s := by
  have sampled : Twin seen m₀ n₀ m.beginStep.sampled n.beginStep.sampled :=
    twin.withCpu fun c => { c with serviced := 0 }.sampleLines
  have viewSampled := m.sampled_sandboxed.view view
  have plainN : n.beginStep.sampled.cpu.trapSource = none := by rw [sampled.cpu, plain]
  cases halted : m.beginStep.sampled.cpu.halted with
  | true =>
    rw [cpuStep_halted plain halted] at returns
    obtain rfl := Option.some.inj returns
    have haltedN : n.beginStep.sampled.cpu.halted = true := by rw [sampled.cpu, halted]
    exact ⟨_, cpuStep_halted plainN haltedN fuel, sampled⟩
  | false =>
    have awakeN : n.beginStep.sampled.cpu.halted = false := by rw [sampled.cpu, halted]
    rw [cpuStep_fetch plain halted] at returns
    rw [cpuStep_fetch plainN awakeN]
    have fetching := fetchDecode_sandboxed viewSampled.user
    have decodes (x : Machine) : (fetchDecode x).1 = x.decoded := (fetchDecode_spec x).1
    cases known : m.beginStep.sampled.decoded with
    | none =>
      rw [stepInstruction_illegal known] at returns
      obtain rfl := Option.some.inj returns
      obtain ⟨same, fetched⟩ := fetchDecode_twin viewSampled sampled free
      rw [decodes, decodes] at same
      refine ⟨_, stepInstruction_illegal (same.symm.trans known) fuel, ?_⟩
      exact fetched.withCpu fun c => { c.request irqEpu with pc := c.pcNext }
    | some w =>
      rw [stepInstruction_run known] at returns
      have decoded : w ∈ pool := decodeLookup_mem known
      have fresh := fetchDecode_fresh m.beginStep.sampled
      have viewFetched := fetching.view viewSampled
      have running := runInstruction_sandboxed decoded viewFetched.user fresh returns
      have fetchFree : (fetchDecode m.beginStep.sampled).2.refusals = m.refusals :=
        Nat.le_antisymm (free ▸ running.refusals_le) fetching.refusals_le
      obtain ⟨same, fetched⟩ := fetchDecode_twin viewSampled sampled fetchFree
      rw [decodes, decodes] at same
      rw [stepInstruction_run (same.symm.trans known)]
      exact runInstruction_twin decoded viewFetched fetched fresh returns
        (free.trans fetchFree.symm)

end

end C900
