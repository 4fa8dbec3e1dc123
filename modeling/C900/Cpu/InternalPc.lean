import C900.Cpu.Segment
import Mathlib.Logic.Relation

/-!
# The 23 bits of the program counter

Every assignment of the program counter masks the segment to seven bits or keeps the one it had. So
a program counter of 23 bits stays one in every step, whatever instruction or trap the step takes,
and a reset begins with one.
-/

namespace C900

/-! ## Addresses -/

/-- A segment masked to seven bits, and an offset. -/
theorem isInternal_internalAddr (hi lo : Word) : IsInternal (internalAddr hi lo) := by
  rw [isInternal_iff, internalAddr, segmentHalf_append, Cpu.Target.seven_seven]

/-- The two words of a status. -/
theorem isInternal_pcFromWords (pcseg pcoff : Word) : IsInternal (pcFromWords pcseg pcoff) := by
  rw [pcFromWords, Cpu.Target.operand_split]
  exact isInternal_internalAddr pcseg pcoff

/-- A pointer in its register form. -/
theorem isInternal_segAddr (hi lo : Word) : IsInternal (segAddr (hi ++ lo)) := by
  rw [segAddr_append]
  exact isInternal_internalAddr hi lo

/-- An offset alone. -/
theorem isInternal_offset (v : Word) : IsInternal (v.setWidth 32) := by
  rw [isInternal_iff, segmentHalf_offset]
  decide

/-- The address behind an instruction. -/
theorem Cpu.pcNext_internal {c : Cpu} (start : c.instrStart = c.pc) (internal : c.InternalPc) :
    IsInternal c.pcNext := by
  have here : IsInternal c.instrStart := start ▸ internal
  rw [Cpu.pcNext, isInternal_iff, segmentHalf_addrAdd]
  exact (isInternal_iff _).mp here

/-! ## Branches -/

section Branches

variable {c : Cpu} {m : Machine} {target : Long}

/-- A jump on a condition. -/
theorem Cpu.jumpIf_internal {cc : Reg} (internal : c.InternalPc) (inside : IsInternal target) :
    (c.jumpIf cc target).InternalPc := by
  unfold Cpu.jumpIf
  split
  · exact inside
  · exact internal

/-- DJNZ stays in its segment. -/
theorem Cpu.djnz_internal (internal : c.InternalPc) : c.djnz.InternalPc := by
  have moved : ∀ (p : Bool) (d : Cpu) (a : Long), d.pc = c.pc → IsInternal a →
      (if p then { d with pc := a } else d).InternalPc := by
    intro p d a same inside
    cases p with
    | false =>
      show IsInternal d.pc
      rw [same]
      exact internal
    | true => exact inside
  exact moved _ _ _ (Cpu.choice_pc rfl (c.wb_pc _ _)) ((Cpu.Target.pc internal).sub _).internal

/-- A call goes to its target. -/
theorem execCall_internal (inside : IsInternal target) :
    (execCall target m).2.cpu.InternalPc := by
  show IsInternal (execCall target m).2.cpu.pc
  rw [execCall_pc]
  exact inside

/-- A return masks what it pops. -/
theorem execRet_internal : (execRet m).2.cpu.InternalPc := by
  unfold execRet
  cases form : m.cpu.seg with
  | true =>
    simp only [StateM.bind_apply, getCpu, form, if_true]
    exact isInternal_segAddr _ _
  | false =>
    simp only [StateM.bind_apply, getCpu, form, Bool.false_eq_true, if_false]
    exact (Cpu.Target.inSegment _).internal

/-- Every target of a branch has 23 bits. -/
theorem execBranch_internal (w : CtrlWord) (internal : m.cpu.InternalPc) :
    (execBranch w m).2.cpu.InternalPc := by
  have operand := (Cpu.Target.segAddrOp (c := m.cpu) 1).internal
  have pointer (r : Reg) := (Cpu.Target.addrFromReg (c := m.cpu) r).internal
  have indexed (n : Long) := ((Cpu.Target.segAddrOp (c := m.cpu) 1).add n).internal
  have relative (disp : Long) := (Cpu.Target.relPc (c := m.cpu) internal disp).internal
  unfold execBranch
  simp only [StateM.bind_apply, getCpu]
  cases w.brMode with
  | jpDa => exact Cpu.jumpIf_internal internal operand
  | jpX => exact Cpu.jumpIf_internal internal (indexed _)
  | jpIr => exact Cpu.jumpIf_internal internal (pointer _)
  | jr => exact Cpu.jumpIf_internal internal (relative _)
  | callDa => exact execCall_internal operand
  | callX => exact execCall_internal (indexed _)
  | callIr => exact execCall_internal (pointer _)
  | calr => exact execCall_internal (relative _)
  | calr12 => exact execCall_internal (relative _)
  | djnz => exact Cpu.djnz_internal internal
  | ret =>
    show ((if m.cpu.condTrue (nib3 (m.cpu.opcode 0)) then execRet else pure ()) m).2.cpu.InternalPc
    split
    · exact execRet_internal
    · exact internal

end Branches

/-! ## Instructions -/

section Instructions

variable {m d r : Machine} {w : CtrlWord} {fuel : Nat}

/-- A change of mode leaves the program counter alone. -/
theorem Cpu.changeFcw_internal {c : Cpu} (inside : IsInternal c.pc) (nf : Word) :
    (c.changeFcw nf).InternalPc := by
  show IsInternal (c.changeFcw nf).pc
  rw [Cpu.changeFcw_pc]
  exact inside

/-- LDPS and IRET load 23 bits. -/
theorem execute_status_internal (loads : w.loadsStatus = true) (system : m.cpu.sysmode = true) :
    (execute w m).2.cpu.InternalPc := by
  by_cases kind : w.exec = .ldps
  · have taken : execute w m = execLdps w m := by rw [execute, kind]
    rw [taken, execLdps_apply m system]
    split
    · exact Cpu.changeFcw_internal (isInternal_pcFromWords _ _) _
    · exact Cpu.changeFcw_internal (isInternal_offset _) _
  · have iret : w.exec = .iret := by
      simpa [CtrlWord.loadsStatus, kind] using loads
    have taken : execute w m = execIret m := by rw [execute, iret]
    rw [taken]
    cases form : (popWord (popWord m).2).2.cpu.seg with
    | true =>
      rw [execIret_seg m system form]
      exact Cpu.changeFcw_internal (isInternal_segAddr _ _) _
    | false =>
      rw [execIret_nonseg m system form]
      exact Cpu.changeFcw_internal (isInternal_offset _) _

/-- An instruction keeps the program counter in 23 bits, a repetition included. -/
theorem runInstruction_internal (loaded : d.cpu.Loaded w) (start : d.cpu.instrStart = d.cpu.pc)
    (internal : d.cpu.InternalPc) (returns : runInstruction fuel w d = some r) :
    r.cpu.InternalPc := by
  have behind := Cpu.pcNext_internal start internal
  show IsInternal r.cpu.pc
  cases transfers : w.transfers d.cpu with
  | false =>
    obtain ⟨whole, cut⟩ := runInstruction_pc loaded returns transfers
    by_cases short : d.CutShort w
    · rw [(cut short).2, start]
      exact internal
    · rw [whole short]
      exact behind
  | true =>
    obtain ⟨notBlock, kind⟩ := transfers_kind transfers
    have once := runInstruction_once loaded (single_of_kind loaded.pooled notBlock) returns
    rw [once]
    split
    · exact behind
    · rcases kind with branch | ⟨loads, system⟩
      · have taken : execute w d.started = execBranch w d.started := by rw [execute, branch]
        rw [taken]
        exact execBranch_internal w (m := d.started) behind
      · exact execute_status_internal (m := d.started) loads system

end Instructions

/-! ## Steps -/

section Steps

variable {hook : SysHook} {m r : Machine} {fuel : Nat}

/-- A trap goes to a handler of 23 bits. -/
theorem enterTrap_internal (source : TrapSource) : (enterTrap source m).2.cpu.InternalPc := by
  rw [enterTrap_apply]
  exact Cpu.changeFcw_internal (isInternal_pcFromWords _ _) _

/-- A reset begins at an address of 23 bits. -/
theorem cpuReset_internal (m : Machine) : (cpuReset m).cpu.InternalPc :=
  isInternal_pcFromWords _ _

/-- A step keeps the program counter in 23 bits. A service from outside has no say in it, as the
trap that calls it goes to its handler. -/
theorem cpuStep_internal (internal : m.cpu.InternalPc) (returns : cpuStep hook fuel m = some r) :
    r.cpu.InternalPc := by
  have sampled : m.beginStep.sampled.cpu.InternalPc := by
    show IsInternal m.beginStep.sampled.cpu.pc
    rw [show m.beginStep.sampled.cpu.pc = m.cpu.pc from m.beginStep.cpu.sampleLines_pc]
    exact internal
  cases taken : m.beginStep.sampled.cpu.trapSource with
  | some source =>
    rw [cpuStep_trap taken] at returns
    rw [← Option.some.inj returns]
    exact enterTrap_internal source
  | none =>
    cases halted : m.beginStep.sampled.cpu.halted with
    | true =>
      rw [cpuStep_halted taken halted] at returns
      exact Option.some.inj returns ▸ sampled
    | false =>
      rw [cpuStep_fetch taken halted] at returns
      obtain ⟨decodes, spec⟩ := fetchDecode_spec m.beginStep.sampled
      have start := spec.instrStart.trans spec.pc.symm
      have fetched : (fetchDecode m.beginStep.sampled).2.cpu.InternalPc := by
        show IsInternal (fetchDecode m.beginStep.sampled).2.cpu.pc
        rw [spec.pc]
        exact sampled
      cases known : m.beginStep.sampled.decoded with
      | none =>
        rw [stepInstruction_illegal known] at returns
        rw [← Option.some.inj returns]
        exact Cpu.pcNext_internal start fetched
      | some w =>
        rw [stepInstruction_run known] at returns
        exact runInstruction_internal (fetchDecode_loaded (Prod.ext (decodes.trans known) rfl)) start
          fetched returns

/-- After a reset, or from any program counter of 23 bits, every run of steps has one. -/
theorem cpuRun_internal (internal : m.cpu.InternalPc)
    (run : Relation.ReflTransGen (fun x y => ∃ fuel, cpuStep hook fuel x = some y) m r) :
    r.cpu.InternalPc := by
  induction run with
  | refl => exact internal
  | tail _ step inductionHypothesis =>
    obtain ⟨fuel, returns⟩ := step
    exact cpuStep_internal inductionHypothesis returns

end Steps

end C900
