import C900.Cpu.Restart

/-!
# The record of the cycles is only written

Two machines that differ in the record of their bus cycles take the same steps: `Unrecorded` says
so for a program, and `execute_unrecorded` for a whole instruction.
-/

namespace C900

/-- The same machine, but for the record of its cycles. -/
structure Machine.SameState (m n : Machine) : Prop where
  cpu : n.cpu = m.cpu
  mmu : n.mmu = m.mmu
  bus : n.bus = m.bus

namespace Machine.SameState

variable {m n x : Machine}

theorem refl (m : Machine) : m.SameState m := ⟨rfl, rfl, rfl⟩

theorem symm (same : m.SameState n) : n.SameState m :=
  ⟨same.cpu.symm, same.mmu.symm, same.bus.symm⟩

theorem trans (first : m.SameState n) (second : n.SameState x) : m.SameState x :=
  ⟨second.cpu.trans first.cpu, second.mmu.trans first.mmu, second.bus.trans first.bus⟩

theorem eq (same : m.SameState n) : n = { m with trace := n.trace } := by
  obtain ⟨cpu, mmu, bus, trace⟩ := n
  obtain ⟨rfl, rfl, rfl⟩ := same
  rfl

theorem beginStep (same : m.SameState n) : m.beginStep.SameState n.beginStep := by
  rw [same.eq]
  exact ⟨rfl, rfl, rfl⟩

theorem started (same : m.SameState n) : m.started.SameState n.started := by
  rw [same.eq]
  exact ⟨rfl, rfl, rfl⟩

theorem illegal (same : m.SameState n) : m.illegal.SameState n.illegal := by
  rw [same.eq]
  exact ⟨rfl, rfl, rfl⟩

theorem leave (same : m.SameState n) (pc : Long) : (m.leave pc).SameState (n.leave pc) := by
  rw [same.eq]
  unfold Machine.leave
  split_ifs <;> exact ⟨rfl, rfl, rfl⟩

theorem takeWarning (same : m.SameState n) : m.takeWarning.SameState n.takeWarning := by
  rw [same.eq]
  unfold Machine.takeWarning
  split_ifs <;> exact ⟨rfl, rfl, rfl⟩

end Machine.SameState

/-- The record is only written: a program does the same on machines that differ in it. -/
def Unrecorded {α : Type} (x : Exec α) : Prop :=
  ∀ m n : Machine, m.SameState n → (x m).1 = (x n).1 ∧ (x m).2.SameState (x n).2

namespace Unrecorded

variable {α β : Type}

theorem pure (a : α) : Unrecorded (Pure.pure a : Exec α) := fun _ _ same => ⟨rfl, same⟩

theorem bind {x : Exec α} {f : α → Exec β} (first : Unrecorded x)
    (next : ∀ a, Unrecorded (f a)) : Unrecorded (x >>= f) := by
  intro m n same
  obtain ⟨value, after⟩ := first m n same
  rw [StateM.bind_apply, StateM.bind_apply, ← value]
  exact next (x m).1 _ _ after

theorem ite {p : Prop} [Decidable p] {x y : Exec α} (yes : Unrecorded x) (no : Unrecorded y) :
    Unrecorded (if p then x else y) := by
  split
  · exact yes
  · exact no

theorem get : Unrecorded getCpu := fun _ _ same => ⟨same.cpu.symm, same⟩

theorem modify (f : Cpu → Cpu) : Unrecorded (modifyCpu f) := by
  intro m n same
  rw [same.eq]
  exact ⟨rfl, rfl, rfl, rfl⟩

theorem ioRead (port : Word) (isByte special : Bool) :
    Unrecorded (ioReadCycle port isByte special) := by
  intro m n same
  rw [same.eq]
  unfold ioReadCycle C900.ioRead
  dsimp only
  split_ifs <;> exact ⟨rfl, rfl, rfl, rfl⟩

theorem ioWrite (port data : Word) (isByte special : Bool) :
    Unrecorded (ioWriteCycle port data isByte special) := by
  intro m n same
  rw [same.eq]
  unfold ioWriteCycle C900.ioWrite
  dsimp only
  split_ifs <;> exact ⟨rfl, rfl, rfl, rfl⟩

theorem guarded {body : Exec Unit} (inSystem : Unrecorded body) : Unrecorded (privileged body) :=
  get.bind fun _ => inSystem.ite (modify _)

theorem ofPlain {rept : Bool} {x : Exec α} (program : PlainProgram rept x) : Unrecorded x := by
  induction program with
  | op operation =>
    intro m n same
    rw [same.eq]
    cases operation with
    | _ => exact ⟨rfl, rfl, rfl, rfl⟩
  | pure a => exact pure a
  | bind _ _ first rest => exact first.bind rest

theorem word (a : Long) : Unrecorded (memR16 a) := ofPlain (@PlainProgram.readWord false a)

end Unrecorded

/-! ### Instructions and traps -/

theorem execIo_unrecorded (w : CtrlWord) : Unrecorded (execIo w) :=
  .guarded (Unrecorded.get.bind fun _ =>
    .ite (.ioWrite _ _ _ _) (.bind (.ioRead _ _ _) fun _ => .modify _))

theorem execBlockIo_unrecorded (w : CtrlWord) : Unrecorded (execBlockIo w) := by
  have load : ∀ a, Unrecorded (memReadElement w a) := fun a =>
    .ofPlain (@memReadElement_built false w a)
  have store : ∀ a v, Unrecorded (memWriteElement w a v) := fun a v =>
    .ofPlain (@memWriteElement_built false w a v)
  refine .guarded (Unrecorded.get.bind fun _ => .ite ?_ ?_)
  · exact (load _).bind fun _ => .bind (.ioWrite _ _ _ _) fun _ => .modify _
  · exact .bind (.ioRead _ _ _) fun _ => (store _ _).bind fun _ => .modify _

theorem execLdps_unrecorded (w : CtrlWord) : Unrecorded (execLdps w) := by
  have load := Unrecorded.word
  refine .guarded (Unrecorded.get.bind fun _ => .ite ?_ ?_)
  · exact (load _).bind fun _ => (load _).bind fun _ => (load _).bind fun _ => .modify _
  · exact (load _).bind fun _ => (load _).bind fun _ => .modify _

theorem execIret_unrecorded : Unrecorded execIret := by
  have pop : Unrecorded popWord := .ofPlain (@popWord_built false)
  refine .guarded (pop.bind fun _ => pop.bind fun _ => Unrecorded.get.bind fun _ => .ite ?_ ?_)
  · exact pop.bind fun _ => pop.bind fun _ => .modify _
  · exact pop.bind fun _ => .modify _

theorem execute_unrecorded {w : CtrlWord} (decoded : w ∈ pool) : Unrecorded (execute w) := by
  cases guard : w.isPrivileged with
  | false => exact .ofPlain (execute_plain decoded guard)
  | true =>
    unfold CtrlWord.isPrivileged at guard
    unfold execute
    cases kind : w.exec with
    | fcwOp => exact .ite (.guarded (.modify _)) (.modify _)
    | io => exact execIo_unrecorded w
    | blockIo => exact execBlockIo_unrecorded w
    | ldps => exact execLdps_unrecorded w
    | iret => exact execIret_unrecorded
    | ldctl | multiProc | halt => exact .guarded (.modify _)
    | _ => simp [kind] at guard

theorem enterTrap_unrecorded (source : TrapSource) : Unrecorded (enterTrap source) := by
  have load := Unrecorded.word
  have store : ∀ a v, Unrecorded (memW16 a v) := fun a v =>
    .ofPlain (@PlainProgram.writeWord false a v)
  have push : ∀ v, Unrecorded (pushWord v) := fun v => .ofPlain (@pushWord_built false v)
  refine Unrecorded.get.bind fun _ => .bind (.modify _) fun _ => Unrecorded.get.bind fun _ =>
    .bind (.modify _) fun _ => ?_
  -- the frame
  refine (store _ _).bind fun _ => (store _ _).bind fun _ => (push _).bind fun _ =>
    (push _).bind fun _ => ?_
  exact (load _).bind fun _ => (load _).bind fun _ => (load _).bind fun _ => .modify _

theorem handleInterrupts_unrecorded : Unrecorded (handleInterrupts none) := by
  refine .bind (.modify _) fun _ => Unrecorded.get.bind fun c => ?_
  split
  · exact .pure _
  · -- no service from outside, so both branches enter the trap
    have entered : ∀ source, Unrecorded (do
        enterTrap source
        return true) := fun source => (enterTrap_unrecorded source).bind fun _ => .pure _
    exact .ite (entered _) (entered _)

theorem fetchDecode_unrecorded : Unrecorded fetchDecode :=
  .bind (.modify _) fun _ => .ofPlain (@fetchWords_built false)

theorem executeElement_sameState {w : CtrlWord} {m n : Machine} (decoded : w ∈ pool)
    (same : m.SameState n) : (executeElement w m).SameState (executeElement w n) := by
  have executed := (execute_unrecorded decoded m n same).2
  refine Machine.SameState.takeWarning ⟨?_, executed.mmu, executed.bus⟩
  rw [executed.cpu]

end C900
