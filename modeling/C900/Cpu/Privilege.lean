import C900.Cpu.Program
import C900.Mmu.Mapping

/-!
# Normal mode

What an instruction may do in normal mode. The control state and the memory map
are out of its reach, it performs memory cycles only, and a privileged operation
comes to nothing but a trap request.
-/

namespace C900

/-- The cycle is a memory cycle. -/
def Event.IsMem : Event → Prop
  | .mem .. => True
  | _ => False

/-- The second machine came from the first by memory cycles alone, with the
control state, the memory map and the devices kept. -/
structure Confined (before after : Machine) : Prop where
  control : after.cpu.control true = before.cpu.control true
  map : after.mmu.SameMap before.mmu
  devices : ∃ ram, after.bus = { before.bus with ram := ram }
  cycles : ∃ done, after.trace = done ++ before.trace ∧ ∀ event ∈ done, event.IsMem

namespace Confined

theorem refl (m : Machine) : Confined m m :=
  ⟨rfl, .refl _, ⟨_, rfl⟩, [], rfl, fun _ none => absurd none List.not_mem_nil⟩

theorem trans {a b c : Machine} (first : Confined a b) (second : Confined b c) : Confined a c := by
  obtain ⟨earlier, fromA, earlierMem⟩ := first.cycles
  obtain ⟨later, fromB, laterMem⟩ := second.cycles
  obtain ⟨ramB, busB⟩ := first.devices
  obtain ⟨ramC, busC⟩ := second.devices
  refine ⟨second.control.trans first.control, second.map.trans first.map, ⟨ramC, ?_⟩,
    later ++ earlier, ?_, ?_⟩
  · rw [busC, busB]
  · rw [fromB, fromA, List.append_assoc]
  · intro event member
    rcases List.mem_append.mp member with new | old
    · exact laterMem event new
    · exact earlierMem event old

/-- An update of the processor. -/
theorem ofCpu (m : Machine) (c : Cpu) (keeps : c.control true = m.cpu.control true) :
    Confined m { m with cpu := c } :=
  ⟨keeps, .refl _, ⟨_, rfl⟩, [], rfl, fun _ none => absurd none List.not_mem_nil⟩

/-- A memory cycle. -/
theorem ofCycle (m : Machine) (kind : Access) (wide : Bool) (a : Long) :
    Confined m (m.cycle kind wide a) :=
  ⟨rfl, mmuTranslate_sameMap .., ⟨_, rfl⟩, [m.memEvent kind wide a], rfl, fun event member => by
    rw [List.mem_singleton.mp member]
    exact trivial⟩

/-- The store that follows a memory cycle. -/
theorem withStore {m n : Machine} (confined : Confined m n) (b : Bus)
    (store : ∃ ram, b = { m.bus with ram := ram }) : Confined m { n with bus := b } :=
  ⟨confined.control, confined.map, store, confined.cycles⟩

end Confined

/-! ## Operations -/

/-- In normal mode a guarded block raises a trap request and does nothing else. -/
theorem privileged_user (body : Exec Unit) (m : Machine) (user : m.cpu.sysmode = false) :
    (privileged body m).2 = { m with cpu := m.cpu.request irqTrap } := by
  have blocked : privileged body m =
      (if m.cpu.sysmode then body else modifyCpu (·.request irqTrap)) m := rfl
  rw [blocked, user]
  rfl

/-- One operation of a normal-mode program. -/
theorem UserOp.confined {rept : Bool} {α : Type} {x : Exec α} (operation : UserOp rept x) (m : Machine)
    (user : m.cpu.sysmode = false) : Confined m (x m).2 := by
  cases operation with
  | get => exact .refl m
  | modify f keeps => exact .ofCpu m _ (Cpu.control_hidden (keeps m.cpu))
  | fetch a => exact .ofCycle m .fetch true a
  | readWord a => exact .ofCycle m .read true a
  | readByte a => exact .ofCycle m .read false a
  | writeWord a v =>
    refine (Confined.ofCycle m .write true a).withStore _ ?_
    cases m.violates .write a with
    | true => exact ⟨_, rfl⟩
    | false => exact physWrite16_frame m.bus _ v
  | writeByte a v =>
    refine (Confined.ofCycle m .write false a).withStore _ ?_
    cases m.violates .write a with
    | true => exact ⟨_, rfl⟩
    | false => exact physWrite8_frame m.bus _ v
  | guarded body quiet =>
    rw [privileged_user body m user]
    exact .ofCpu m _ (m.cpu.request_control _)

/-- A whole normal-mode program. -/
theorem UserProgram.confined {rept : Bool} {α : Type} {x : Exec α}
    (program : UserProgram rept x) (m : Machine) (user : m.cpu.sysmode = false) : Confined m (x m).2 := by
  have run := program.preserves (fun s t => s.cpu.sysmode = false → Confined s t)
    (fun s _ => .refl s)
    (fun s t u first second userS => by
      have left := first userS
      exact left.trans (second ((Cpu.sysmode_of_control left.control).trans userS)))
    (fun _ _ operation s userS => operation.confined s userS)
  exact run m user

/-! ## Instructions -/

theorem execute_privileged {w : CtrlWord} (asks : w.isPrivileged = true) (m : Machine)
    (user : m.cpu.sysmode = false) :
    (execute w m).2 = { m with cpu := m.cpu.request irqTrap } := by
  unfold CtrlWord.isPrivileged at asks
  unfold execute
  cases kind : w.exec with
  | io | ldctl | blockIo | multiProc | ldps | halt | iret => exact privileged_user _ m user
  | fcwOp =>
    have guard : w.fcwPriv = true := by simpa [kind] using asks
    simp only [execFcwOp, guard, if_true]
    exact privileged_user _ m user
  | _ => simp [kind] at asks

/-- An instruction in normal mode leaves the control state, the MMU mode and the
descriptors' base, limit and protection bits alone, performs no I/O and reaches no
device; a privileged one only requests a trap. -/
theorem execute_isolated (w : CtrlWord) (op0 word : Word) (navail : Nat)
    (decoded : decodeLookup op0 word navail = some w) (m : Machine)
    (user : m.cpu.sysmode = false) :
    let after := (execute w m).2
    after.cpu.fcw &&& 0xFF00 = m.cpu.fcw &&& 0xFF00 ∧ after.cpu.psap = m.cpu.psap ∧
      after.cpu.refresh = m.cpu.refresh ∧ after.cpu.nspseg = m.cpu.nspseg ∧
      after.cpu.nspoff = m.cpu.nspoff ∧ after.cpu.halted = m.cpu.halted ∧
      after.mmu.mode = m.mmu.mode ∧
      (∀ s, (after.mmu.desc s).protection = (m.mmu.desc s).protection) ∧
      (∃ done, after.trace = done ++ m.trace ∧ ∀ event ∈ done, event.IsMem) ∧
      (∃ ram, after.bus = { m.bus with ram := ram }) ∧
      (w.isPrivileged = true → after = { m with cpu := m.cpu.request irqTrap }) := by
  intro after
  have confined : Confined m after := (execute_built (decodeLookup_mem decoded)).confined m user
  have control := confined.control
  refine ⟨congrArg ControlState.modes control, congrArg ControlState.psap control,
    congrArg ControlState.refresh control, congrArg ControlState.nspseg control,
    congrArg ControlState.nspoff control, congrArg ControlState.halted control,
    confined.map.mode, confined.map.desc, confined.cycles, confined.devices, fun asks => ?_⟩
  exact execute_privileged asks m user

/-- HALT in normal mode. -/
theorem execute_isolated_halt :
    (execute { name := "HALT", exec := .halt } default).2 =
      { (default : Machine) with cpu := (default : Cpu).request irqTrap } :=
  (execute_isolated { name := "HALT", exec := .halt } 0x7A00 0 1 rfl default (by decide)
    ).2.2.2.2.2.2.2.2.2.2 rfl

end C900
