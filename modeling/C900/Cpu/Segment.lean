import C900.Cpu.Calls
import C900.Cpu.Restart

/-!
# The segment of the program counter

Outside segmented mode an address is an offset, and the program counter supplies its segment.
The branches and RET take the segment along. LDPS and IRET load the offset as the whole program
counter: they leave every segment but the first.
-/

namespace C900

/-! ## Branches -/

theorem segment_addrAdd (a n : Long) : addrAdd a n &&& 0x7F0000 = a &&& 0x7F0000 := by
  rw [segmentPart, segmentHalf_addrAdd, ← segmentPart]

theorem segment_addrSub (a n : Long) : addrSub a n &&& 0x7F0000 = a &&& 0x7F0000 := by
  rw [segmentPart, segmentHalf_addrSub, ← segmentPart]

/-- An offset alone is an address in segment 0. -/
theorem segmentHalf_offset (v : Word) : segmentHalf (v.setWidth 32) = 0 := by
  apply BitVec.eq_of_toNat_eq
  rw [segmentHalf, BitVec.toNat_setWidth, BitVec.toNat_ushiftRight, BitVec.toNat_setWidth,
    Nat.shiftRight_eq_div_pow]
  have small := v.isLt
  show _ = 0
  omega

theorem segment_offset (v : Word) : v.setWidth 32 &&& (0x7F0000 : Long) = 0 := by
  rw [segmentPart, segmentHalf_offset]
  decide

theorem segment_relPc (c : Cpu) (disp : Long) : c.relPc disp &&& 0x7F0000 = c.pcSegment := by
  unfold Cpu.relPc
  split
  · exact segment_addrSub _ _
  · exact segment_addrAdd _ _

section Branches

variable {c : Cpu} {m : Machine} {target : Long}

theorem jumpIf_segment {cc : Reg} (inside : target &&& 0x7F0000 = c.pcSegment) :
    (c.jumpIf cc target).pcSegment = c.pcSegment := by
  unfold Cpu.jumpIf
  split
  · exact inside
  · rfl

theorem djnz_segment (c : Cpu) : c.djnz.pcSegment = c.pcSegment := by
  have counted : ∀ (p : Bool) (r s : Reg) (u : Word) (v : Byte),
      (if p then c.ww r u else c.wb s v).pc = c.pc := by
    intro p r s u v
    cases p with
    | false => exact c.wb_pc s v
    | true => rfl
  have moved : ∀ (p : Bool) (d : Cpu) (a : Long), d.pc = c.pc → a &&& 0x7F0000 = c.pcSegment →
      (if p then { d with pc := a } else d).pcSegment = c.pcSegment := by
    intro p d a same inside
    cases p with
    | false => exact congrArg (· &&& 0x7F0000) same
    | true => exact inside
  exact moved _ _ _ (counted _ _ _ _ _) (segment_addrSub _ _)

/-- A call goes to its target. -/
theorem execCall_pc : (execCall target m).2.cpu.pc = target := by
  unfold execCall
  cases form : m.cpu.seg with
  | true =>
    simp only [StateM.bind_apply, getCpu, form]
    rfl
  | false =>
    simp only [StateM.bind_apply, getCpu, form]
    rfl

theorem execCall_segment (inside : target &&& 0x7F0000 = m.cpu.pcSegment) :
    (execCall target m).2.cpu.pcSegment = m.cpu.pcSegment := by
  rw [Cpu.pcSegment, execCall_pc, inside]

theorem popWord_pc (m : Machine) : (popWord m).2.cpu.pc = m.cpu.pc :=
  (@popWord_passes m 0 m.cpu.opcode True).pc trivial

theorem execRet_segment (nonseg : m.cpu.seg = false) :
    (execRet m).2.cpu.pcSegment = m.cpu.pcSegment := by
  have jumps : (execRet m).2.cpu.pc =
      (popWord m).2.cpu.pcSegment ||| (popWord m).1.setWidth 32 := by
    unfold execRet
    simp only [StateM.bind_apply, getCpu, nonseg]
    rfl
  have still : (popWord m).2.cpu.pcSegment = m.cpu.pcSegment := by
    rw [Cpu.pcSegment, popWord_pc, Cpu.pcSegment]
  rw [Cpu.pcSegment, jumps, still]
  exact (Cpu.Target.inSegment (c := m.cpu) _).segment nonseg

/-- No branch leaves the segment. -/
theorem execBranch_segment (w : CtrlWord) (nonseg : m.cpu.seg = false) :
    (execBranch w m).2.cpu.pcSegment = m.cpu.pcSegment := by
  have operand : m.cpu.segAddrOp 1 &&& 0x7F0000 = m.cpu.pcSegment :=
    (Cpu.Target.segAddrOp 1).segment nonseg
  have pointer (r : Reg) : m.cpu.addrFromReg r &&& 0x7F0000 = m.cpu.pcSegment :=
    (Cpu.Target.addrFromReg r).segment nonseg
  have indexed (n : Long) : addrAdd (m.cpu.segAddrOp 1) n &&& 0x7F0000 = m.cpu.pcSegment :=
    (segment_addrAdd _ n).trans operand
  unfold execBranch
  simp only [StateM.bind_apply, getCpu]
  cases w.brMode with
  | jpDa => exact jumpIf_segment operand
  | jpX => exact jumpIf_segment (indexed _)
  | jpIr => exact jumpIf_segment (pointer _)
  | jr => exact jumpIf_segment (segment_relPc _ _)
  | callDa => exact execCall_segment operand
  | callX => exact execCall_segment (indexed _)
  | callIr => exact execCall_segment (pointer _)
  | calr => exact execCall_segment (segment_relPc _ _)
  | calr12 => exact execCall_segment (segment_relPc _ _)
  | djnz => exact djnz_segment _
  | ret =>
    show ((if m.cpu.condTrue (nib3 (m.cpu.opcode 0)) then execRet else pure ()) m).2.cpu.pcSegment =
      m.cpu.pcSegment
    split
    · exact execRet_segment nonseg
    · rfl

end Branches

/-! ## The two that load the status -/

/-- The word that the `k`-th pop takes. -/
def Cpu.popAddr (c : Cpu) (k : Nat) : Long :=
  c.pcSegment ||| (c.rw 15 + BitVec.ofNat 16 (2 * k)).setWidth 32

/-- The words that LDPS and IRET read outside segmented mode. -/
def Cpu.statusReads (c : Cpu) (w : CtrlWord) : List Long :=
  if w.exec = .ldps then [c.ldpsBase w, addrAdd (c.ldpsBase w) 2]
  else [c.popAddr 0, c.popAddr 1, c.popAddr 2]

/-- The instruction loads the program status. -/
def CtrlWord.loadsStatus (w : CtrlWord) : Bool := w.exec == .ldps || w.exec == .iret

section Status

variable {m : Machine} {w : CtrlWord}

/-- The `k`-th machine of a row of pops. -/
structure Popped (m : Machine) (k : Nat) (x : Machine) : Prop where
  seg : x.cpu.seg = m.cpu.seg
  pc : x.cpu.pc = m.cpu.pc
  sp : x.cpu.rw 15 = m.cpu.rw 15 + BitVec.ofNat 16 (2 * k)
  access : ∀ kind a, x.violates kind a = m.violates kind a
  fault : x.cpu.fault = (m.cpu.fault ||
    (List.range k).any fun j => m.violates .read (m.cpu.popAddr j))

namespace Popped

variable {x : Machine} {k : Nat}

theorem start (m : Machine) : Popped m 0 m :=
  ⟨rfl, rfl, (BitVec.add_zero _).symm, fun _ _ => rfl, (Bool.or_false _).symm⟩

theorem next (popped : Popped m k x) (nonseg : m.cpu.seg = false) :
    Popped m (k + 1) (popWord x).2 := by
  have off : ¬ x.cpu.seg = true := Bool.not_eq_true _ ▸ popped.seg.trans nonseg
  obtain ⟨-, run⟩ := popWord_stack x
  have here : x.cpu.stackAddr 0 = m.cpu.popAddr k := by
    rw [Cpu.stackAddr_zero, if_neg off, Cpu.pcSegment, popped.pc, popped.sp, Cpu.popAddr,
      Cpu.pcSegment]
  rw [here] at run
  let read := x.cycle .read true (m.cpu.popAddr k)
  have moved : (popWord x).2 = { read with cpu := read.cpu.ww 15 (x.cpu.rw 15 + 2) } := by
    have still : ¬ read.cpu.seg = true := off
    rw [run, Cpu.moveSp, if_neg still]
    rfl
  rw [moved]
  refine ⟨popped.seg, popped.pc, ?_, fun kind a => ?_, ?_⟩
  · have written : (read.cpu.ww 15 (x.cpu.rw 15 + 2)).rw 15 = x.cpu.rw 15 + 2 := by
      simp only [Cpu.ww, Cpu.setR, Cpu.rw, Function.update_self]
    have two : BitVec.ofNat 16 (2 * (k + 1)) = BitVec.ofNat 16 (2 * k) + 2 := by
      rw [Nat.mul_add, BitVec.ofNat_add]
      rfl
    rw [two, ← BitVec.add_assoc, ← popped.sp]
    exact written
  · exact (x.cycle_access .read kind true _ a).2.trans (popped.access kind a)
  · show (x.cpu.fault || x.violates .read (m.cpu.popAddr k)) = _
    rw [popped.fault, popped.access, List.range_succ, List.any_append, Bool.or_assoc]
    simp

end Popped

/-- The status words outside segmented mode: the offset is the whole program counter, and the
fault flag counts the refused reads. -/
theorem execute_status (loads : w.loadsStatus = true) (nonseg : m.cpu.seg = false)
    (system : m.cpu.sysmode = true) :
    (execute w m).2.cpu.pcSegment = 0 ∧
      (execute w m).2.cpu.fault =
        (m.cpu.fault || (m.cpu.statusReads w).any (m.violates .read)) := by
  unfold Cpu.statusReads
  by_cases kind : w.exec = .ldps
  · have run : (execute w m).2 = (loadStatusNonseg (m.cpu.ldpsBase w) m).2 := by
      have taken : execute w m = execLdps w m := by rw [execute, kind]
      rw [taken, execLdps_apply m system, if_neg (Bool.not_eq_true _ ▸ nonseg)]
    let first := memR16 (m.cpu.ldpsBase w) m
    let second := memR16 (addrAdd (m.cpu.ldpsBase w) 2) first.2
    have result : (execute w m).2.cpu =
        ({ second.2.cpu with pc := second.1.setWidth 32 } : Cpu).changeFcw first.1 := by
      rw [run]
      rfl
    rw [result, if_pos kind, Cpu.pcSegment, Cpu.changeFcw_pc, Cpu.changeFcw_fault]
    refine ⟨segment_offset _, ?_⟩
    have again := (m.cycle_access .read .read true (m.cpu.ldpsBase w)
      (addrAdd (m.cpu.ldpsBase w) 2)).2
    show ((m.cpu.fault || _) || (m.cycle .read true (m.cpu.ldpsBase w)).violates .read _) = _
    rw [again, Bool.or_assoc]
    simp
  · have iret : w.exec = .iret := by
      simpa [CtrlWord.loadsStatus, kind] using loads
    have taken : execute w m = execIret m := by rw [execute, iret]
    have second := ((Popped.start m).next nonseg).next nonseg
    have third := second.next nonseg
    rw [taken, execIret_nonseg m system (second.seg.trans nonseg), if_neg kind]
    dsimp only
    rw [Cpu.pcSegment, Cpu.changeFcw_pc, Cpu.changeFcw_fault]
    refine ⟨segment_offset _, ?_⟩
    show (popWord (popWord (popWord m).2).2).2.cpu.fault = _
    rw [third.fault]
    rfl

end Status

/-! ## Instructions -/

section Instructions

variable {w : CtrlWord} {d r : Machine} {fuel : Nat}

/-- How an instruction without a repetition leaves the program counter. -/
theorem runInstruction_once (loaded : d.cpu.Loaded w) (single : w.blockRept = false)
    (returns : runInstruction fuel w d = some r) :
    r.cpu.pc = if (execute w d.started).2.cpu.fault then d.cpu.pcNext
      else (execute w d.started).2.cpu.pc := by
  obtain ⟨k, -, ends, rfl⟩ := (runInstruction_eq_some_iff w fuel d r loaded.fresh).mp returns
  obtain rfl := ends.unique (EndsAfter.zero_iff.mpr
    (single_settles loaded.pooled d.started (.inl single)))
  have quiet := single_quiet loaded.pooled d.started (.inl single)
  obtain ⟨irqReq, counted⟩ := executeElement_cpu w d.started
  have element : elementRun w d.started (0 + 1) = executeElement w d.started :=
    started_nextElement loaded.fresh
  rw [started_nextElement loaded.fresh] at quiet
  have fault : (executeElement w d.started).cpu.fault = (execute w d.started).2.cpu.fault := by
    rw [counted]
  rw [element, Machine.leave, quiet, fault, if_neg Bool.false_ne_true]
  split
  · rfl
  · rw [counted]

theorem single_of_kind (pooled : w ∈ pool) (kind : w.isBlock = false) : w.blockRept = false := by
  cases repeats : w.blockRept with
  | false => rfl
  | true => exact absurd (kind.symm.trans (pool_repeating w pooled repeats).1) Bool.false_ne_true

theorem notBlock_of_loads (loads : w.loadsStatus = true) : w.isBlock = false := by
  unfold CtrlWord.loadsStatus at loads
  unfold CtrlWord.isBlock
  cases kind : w.exec <;> simp [kind] at loads ⊢

/-- An instruction that transfers control. -/
theorem transfers_kind (transfers : w.transfers d.cpu = true) : w.isBlock = false ∧
    (w.exec = .branch ∨ w.loadsStatus = true ∧ d.cpu.sysmode = true) := by
  unfold CtrlWord.transfers at transfers
  unfold CtrlWord.isBlock CtrlWord.loadsStatus
  cases kind : w.exec with
  | branch => exact ⟨rfl, .inl rfl⟩
  | ldps =>
    rw [kind] at transfers
    exact ⟨rfl, .inr ⟨rfl, transfers⟩⟩
  | iret =>
    rw [kind] at transfers
    exact ⟨rfl, .inr ⟨rfl, transfers⟩⟩
  | _ =>
    rw [kind] at transfers
    exact absurd transfers Bool.false_ne_true

theorem pcNext_segment (start : d.cpu.instrStart = d.cpu.pc) :
    d.cpu.pcNext &&& 0x7F0000 = d.cpu.pcSegment := by
  rw [Cpu.pcNext, segment_addrAdd, start, Cpu.pcSegment]

variable (loaded : d.cpu.Loaded w) (start : d.cpu.instrStart = d.cpu.pc)
  (nonseg : d.cpu.seg = false)

include loaded start nonseg

/-- No instruction but the two leaves the segment, a repetition included. -/
theorem runInstruction_segment (returns : runInstruction fuel w d = some r)
    (other : w.loadsStatus = false ∨ d.cpu.sysmode = false) :
    r.cpu.pcSegment = d.cpu.pcSegment := by
  have behind := pcNext_segment start
  cases transfers : w.transfers d.cpu with
  | false =>
    obtain ⟨whole, cut⟩ := runInstruction_pc loaded returns transfers
    by_cases short : d.CutShort w
    · rw [Cpu.pcSegment, (cut short).2, start, Cpu.pcSegment]
    · rw [Cpu.pcSegment, whole short, behind]
  | true =>
    obtain ⟨notBlock, branch | ⟨loads, system⟩⟩ := transfers_kind transfers
    · have once := runInstruction_once loaded (single_of_kind loaded.pooled notBlock) returns
      have taken : execute w d.started = execBranch w d.started := by rw [execute, branch]
      have stays := execBranch_segment w (m := d.started) nonseg
      rw [Cpu.pcSegment, once, taken]
      split
      · exact behind
      · exact stays.trans behind
    · rcases other with no | user
      · exact absurd (no.symm.trans loads) Bool.false_ne_true
      · exact absurd (user.symm.trans system) Bool.false_ne_true

/-- LDPS and IRET leave it when no access of theirs is refused, but for segment 0. -/
theorem runInstruction_status (returns : runInstruction fuel w d = some r)
    (loads : w.loadsStatus = true) (system : d.cpu.sysmode = true) :
    r.cpu.pcSegment = if d.cpu.fault || (d.started.cpu.statusReads w).any (d.violates .read)
      then d.cpu.pcSegment else 0 := by
  have once := runInstruction_once loaded
    (single_of_kind loaded.pooled (notBlock_of_loads loads)) returns
  obtain ⟨zero, fault⟩ := execute_status (m := d.started) loads nonseg system
  rw [Cpu.pcSegment, once, fault]
  show (if (d.cpu.fault || (d.started.cpu.statusReads w).any (d.violates .read)) = true
    then _ else _) &&& _ = _
  split
  · exact pcNext_segment start
  · exact zero

end Instructions

/-! ## Steps -/

/-- The next instruction is an LDPS or IRET of the system mode in a segment other than 0, and
no access of its fetch and its execution is refused. -/
structure Machine.DropsSegment (m : Machine) : Prop where
  awake : m.cpu.halted = false
  system : m.cpu.sysmode = true
  segment : m.cpu.pcSegment ≠ 0
  fetches : (List.range m.fetchedWords).any m.refusesCode = false
  loads : ∃ w, m.decoded = some w ∧ w.loadsStatus = true ∧
    ((fetchDecode m).2.started.cpu.statusReads w).any ((fetchDecode m).2.violates .read) = false

/-- The instruction behind a fetch. -/
theorem stepInstruction_segment {m r : Machine} {fuel : Nat} (nonseg : m.cpu.seg = false)
    (awake : m.cpu.halted = false) (returns : stepInstruction fuel m = some r) :
    r.cpu.pcSegment = m.cpu.pcSegment ↔ ¬m.DropsSegment := by
  obtain ⟨-, spec⟩ := fetchDecode_spec m
  have fcw : (fetchDecode m).2.cpu.fcw = m.cpu.fcw := (fetchDecode_sameStack m).fcw
  have form : (fetchDecode m).2.cpu.seg = false := by rw [Cpu.seg, fcw, ← Cpu.seg, nonseg]
  have mode : (fetchDecode m).2.cpu.sysmode = m.cpu.sysmode := by
    rw [Cpu.sysmode, fcw, Cpu.sysmode]
  have start := spec.instrStart.trans spec.pc.symm
  have segment : (fetchDecode m).2.cpu.pcSegment = m.cpu.pcSegment := by
    rw [Cpu.pcSegment, spec.pc, Cpu.pcSegment]
  cases decodes : m.decoded with
  | none =>
    rw [stepInstruction_illegal decodes] at returns
    obtain rfl := Option.some.inj returns
    refine iff_of_true ?_ fun drops => ?_
    · exact (pcNext_segment start).trans segment
    · obtain ⟨w, known, -⟩ := drops.loads
      cases decodes.symm.trans known
  | some w =>
    rw [stepInstruction_run decodes] at returns
    have loaded : (fetchDecode m).2.cpu.Loaded w :=
      fetchDecode_loaded (Prod.ext ((fetchDecode_spec m).1.trans decodes) rfl)
    by_cases loads : w.loadsStatus = true ∧ m.cpu.sysmode = true
    · have left := runInstruction_status loaded start form returns loads.1 (mode.trans loads.2)
      rw [(fetchDecode_flags m).2, segment] at left
      rw [left]
      split
      · rename_i refused
        refine iff_of_true rfl fun drops => ?_
        obtain ⟨v, known, -, reads⟩ := drops.loads
        obtain rfl : w = v := Option.some.inj (decodes.symm.trans known)
        rw [drops.fetches, reads] at refused
        exact absurd refused Bool.false_ne_true
      · rename_i free
        obtain ⟨fetches, reads⟩ := Bool.or_eq_false_iff.mp ((Bool.not_eq_true _).mp free)
        constructor
        · exact fun zero drops => drops.segment zero.symm
        · intro stays
          by_contra other
          exact stays ⟨awake, loads.2, fun zero => other zero.symm, fetches, w, decodes, loads.1,
            reads⟩
    · have other : w.loadsStatus = false ∨ (fetchDecode m).2.cpu.sysmode = false := by
        rw [mode, ← Bool.not_eq_true, ← Bool.not_eq_true]
        exact not_and_or.mp loads
      refine iff_of_true ?_ fun drops => ?_
      · exact (runInstruction_segment loaded start form returns other).trans segment
      · obtain ⟨v, known, status, -⟩ := drops.loads
        obtain rfl : w = v := Option.some.inj (decodes.symm.trans known)
        exact loads ⟨status, drops.system⟩

/-- An LDPS or IRET is done with one element. -/
theorem Machine.DropsSegment.returns {m : Machine} (drops : m.DropsSegment) :
    ∃ r, stepInstruction 0 m = some r := by
  obtain ⟨w, known, loads, -⟩ := drops.loads
  have loaded : (fetchDecode m).2.cpu.Loaded w :=
    fetchDecode_loaded (Prod.ext ((fetchDecode_spec m).1.trans known) rfl)
  have single := single_of_kind loaded.pooled (notBlock_of_loads loads)
  refine ⟨_, (stepInstruction_run known 0).trans ((runInstruction_eq_some_iff w 0 _ _
    loaded.fresh).mpr ⟨0, Nat.le_refl 0, EndsAfter.zero_iff.mpr ?_, rfl⟩)⟩
  exact single_settles loaded.pooled _ (.inl single)

/-- Outside segmented mode a step that takes no trap keeps the segment of the program counter,
but for the LDPS and IRET that drop it. -/
theorem cpuStep_segment_iff (hook : SysHook) (m : Machine) (nonseg : m.cpu.seg = false)
    (idle : m.beginStep.sampled.cpu.trapSource = none) :
    (∀ fuel r, cpuStep hook fuel m = some r → r.cpu.pcSegment = m.cpu.pcSegment) ↔
      ¬m.beginStep.sampled.DropsSegment := by
  have form : m.beginStep.sampled.cpu.seg = false := by
    have fcw : m.beginStep.sampled.cpu.fcw = m.cpu.fcw :=
      m.beginStep.cpu.sampleLines_sameStack.fcw
    rw [Cpu.seg, fcw]
    exact nonseg
  have pc : m.beginStep.sampled.cpu.pc = m.cpu.pc := m.beginStep.cpu.sampleLines_pc
  have segment : m.beginStep.sampled.cpu.pcSegment = m.cpu.pcSegment := by
    rw [Cpu.pcSegment, pc, Cpu.pcSegment]
  cases halted : m.beginStep.sampled.cpu.halted with
  | true =>
    refine iff_of_true (fun fuel r returns => ?_) fun drops => ?_
    · rw [cpuStep_halted idle halted] at returns
      rw [← Option.some.inj returns, segment]
    · exact absurd (halted.symm.trans drops.awake) Bool.noConfusion
  | false =>
    constructor
    · intro keeps drops
      obtain ⟨r, returns⟩ := drops.returns
      have stays := keeps 0 r ((cpuStep_fetch idle halted 0).trans returns)
      exact (stepInstruction_segment form halted returns).mp (stays.trans segment.symm) drops
    · intro stays fuel r returns
      rw [cpuStep_fetch idle halted] at returns
      exact ((stepInstruction_segment form halted returns).mpr stays).trans segment

/-- An IRET in segment 3, outside segmented mode, with the status 0x4000 and the offset 2 on its
stack. -/
def returning (fcw : Word) : Machine :=
  { (default : Machine) with
    cpu := { (default : Cpu) with
      pc := 0x030000, fcw := fcw
      R := fun r => if r = 15 then 0x1000 else 0 }
    bus := { (default : Bus) with
      flatMem := true
      flatMaxseg := 0xFF
      ram := fun a =>
        if a = 0x030000 then 0x7B else if a = 0x031002 then 0x40 else if a = 0x031005 then 0x02
        else 0 } }

/-- In normal mode the instruction is refused. -/
theorem returning_stays : (returning 0).cpu.pcSegment = 0x030000 ∧
    ∀ fuel r, cpuStep none fuel (returning 0) = some r →
      r.cpu.pcSegment = (returning 0).cpu.pcSegment :=
  ⟨rfl, (cpuStep_segment_iff none (returning 0) rfl rfl).mpr
    fun drops => absurd drops.system (by decide)⟩

/-- In system mode it leaves the segment. -/
theorem returning_leaves : (returning fcwSn).cpu.seg = false ∧
    (returning fcwSn).beginStep.sampled.cpu.trapSource = none ∧
    (returning fcwSn).cpu.pcSegment = 0x030000 ∧
    ∃ r, cpuStep none 0 (returning fcwSn) = some r ∧ r.cpu.pc = 0x000002 := by
  refine ⟨rfl, rfl, rfl, ?_⟩
  have runs : (cpuStep none 0 (returning fcwSn)).map (·.cpu.pc) = some 0x000002 := by
    decide
  exact Option.map_eq_some_iff.mp runs

end C900
