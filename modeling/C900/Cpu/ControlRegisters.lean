import C900.Cpu.Encode

/-!
# Control registers

LDCTL moves a word between a general register and one of six control registers. Two of them,
the segment and the offset of the program status area, are the halves of one field.
-/

namespace C900

/-- The control registers of LDCTL. -/
inductive ControlRegister
  | fcw
  | refresh
  | psapSeg
  | psapOff
  | nspSeg
  | nspOff
  deriving DecidableEq, Repr

namespace ControlRegister

/-- The number of a control register in the instruction. -/
def code : ControlRegister → Reg
  | fcw => 2
  | refresh => 3
  | psapSeg => 4
  | psapOff => 5
  | nspSeg => 6
  | nspOff => 7

/-- The part of a word that a control register keeps. -/
def kept (r : ControlRegister) (v : Word) : Word := if r = psapSeg then v &&& 0x7F00 else v

end ControlRegister

/-! ## The packed field -/

/-- A write to the segment keeps the offset. -/
theorem setSegment_eq (psap : Long) (v : Word) :
    (psap &&& (0x0000FFFF : Long)) ||| ((v &&& (0x7F00 : Word)).setWidth 32 <<< 8) =
      (((v &&& (0x7F00 : Word)) >>> 8) ++ psap.setWidth 16 : Long) := by
  have low : ∀ i : Fin 32, (0x0000FFFF : Long).getLsbD i = decide (i.val < 16) := by decide
  have number : ∀ i : Fin 32, (0x7F00 : Word).getLsbD i =
      (decide (8 ≤ i.val) && decide (i.val < 15)) := by decide
  apply BitVec.eq_of_getLsbD_eq
  intro i bound
  have lowBit := low ⟨i, bound⟩
  have numberBit := number ⟨i - 8, by omega⟩
  dsimp only at lowBit numberBit
  simp only [BitVec.getLsbD_or, BitVec.getLsbD_and, append_bit, lowBit, BitVec.getLsbD_shiftLeft,
    BitVec.getLsbD_setWidth, BitVec.getLsbD_ushiftRight, numberBit]
  by_cases small : i < 16
  · have none : ¬8 ≤ i - 8 := by omega
    simp [small, none]
  · have place : 8 + (i - 16) = i - 8 := by omega
    have inside : i - 8 < 32 := by omega
    have above : ¬i < 8 := by omega
    rw [place, numberBit]
    simp [small, bound, inside, above]

/-- A write to the offset keeps the segment. -/
theorem setOffset_eq (psap : Long) (v : Word) :
    (psap &&& (0xFFFF0000 : Long)) ||| v.setWidth 32 = ((psap >>> 16).setWidth 16 ++ v : Long) := by
  have high : ∀ i : Fin 32, (0xFFFF0000 : Long).getLsbD i = decide (16 ≤ i.val) := by decide
  apply BitVec.eq_of_getLsbD_eq
  intro i bound
  have highBit := high ⟨i, bound⟩
  dsimp only at highBit
  simp only [BitVec.getLsbD_or, BitVec.getLsbD_and, append_bit, highBit, BitVec.getLsbD_setWidth,
    BitVec.getLsbD_ushiftRight]
  by_cases small : i < 16
  · have below : ¬16 ≤ i := by omega
    simp [small, below, bound]
  · have above : 16 ≤ i := by omega
    have place : 16 + (i - 16) = i := by omega
    have inside : i - 16 < 16 := by omega
    simp [small, above, place, inside]

/-- The segment is read with the high byte of the offset. -/
theorem readSegment_append (s o : Word) :
    ((s ++ o : Long) >>> 8).setWidth 16 = loByte s ++ hiByte o := by
  apply BitVec.eq_of_getLsbD_eq
  intro i bound
  rw [BitVec.getLsbD_setWidth, BitVec.getLsbD_ushiftRight, append_bit, BitVec.getLsbD_append, loByte,
    hiByte, BitVec.getLsbD_setWidth, BitVec.getLsbD_setWidth, BitVec.getLsbD_ushiftRight]
  by_cases small : i < 8
  · have low : 8 + i < 16 := by omega
    simp [small, low, bound]
  · have high : ¬8 + i < 16 := by omega
    have place : 8 + i - 16 = i - 8 := by omega
    have inside : i - 8 < 8 := by omega
    simp [small, high, bound, place, inside]

/-- A segment word has no low byte. -/
theorem segment_halves (v : Word) :
    v &&& (0x7F00 : Word) = loByte ((v &&& (0x7F00 : Word)) >>> 8) ++ (0 : Byte) := by
  have empty : loByte (v &&& (0x7F00 : Word)) = 0 := by
    have masked : (0x7F00 : Word).setWidth 8 = 0 := by decide
    rw [loByte, BitVec.setWidth_and, masked]
    exact BitVec.and_zero
  have halves := word_halves (v &&& (0x7F00 : Word))
  rw [empty] at halves
  exact halves.symm

theorem append_low_inj {x y z : Byte} : x ++ y = (x ++ z : Word) ↔ y = z := by
  refine ⟨fun same => ?_, fun same => same ▸ rfl⟩
  have low := congrArg loByte same
  rwa [loByte_append, loByte_append] at low

/-! ## The instruction -/

/-- What LDCTL reads from a control register. -/
def Cpu.controlRegister (c : Cpu) : ControlRegister → Word
  | .fcw => c.fcw
  | .refresh => c.refresh
  | .psapSeg => (c.psap >>> 8).setWidth 16
  | .psapOff => c.psap.setWidth 16
  | .nspSeg => c.nspseg
  | .nspOff => c.nspoff

/-- The register after `LDCTL Rd, ctl`. -/
def Machine.readControl (m : Machine) (operands : Fin 6 → Word) (rd : Reg) (r : ControlRegister) :
    Word :=
  (m.perform (codeWords (C900.instruction 0x7D rd r.code) operands)).cpu.rw rd

/-- The machine after `LDCTL ctl, Rs`. -/
def Machine.writeControl (m : Machine) (operands : Fin 6 → Word) (rs : Reg) (r : ControlRegister) :
    Machine :=
  m.perform (codeWords (C900.instruction 0x7D rs (r.code ||| 8)) operands)

section Instruction

variable (m : Machine) (operands : Fin 6 → Word) (n2 n3 : Reg)

theorem Instruction.low_bits (op : Word) : (op &&& 0x07).toNat = (nib3 op).toNat % 8 := by
  rw [BitVec.toNat_and, nib3, BitVec.toNat_setWidth]
  exact (Nat.and_two_pow_sub_one_eq_mod _ 3).trans (Nat.mod_mod_of_dvd _ (by decide)).symm

/-- The slot of LDCTL is one of the system instructions. -/
theorem lookup_ldctl : rom.lookup (0x7D : Byte).toNat =
    some (.sub sub7D [(0, { name := "LDCTL", exec := .ldctl })]) := by
  have earlier : (romRegister ++ romImmIr ++ romDaX ++ romLong ++ romLoadStore ++ romStack ++
      romBranch ++ romMulDiv ++ romBits ++ romExchange ++ romUnary ++ romMultiple ++
      romBlock).lookup 0x7D = none := by
    rw [List.lookup_eq_none_iff]
    decide +kernel
  show List.lookup 0x7D rom = _
  rw [rom, List.lookup_append, earlier]
  rfl

/-- LDCTL in system mode. -/
theorem perform_ldctl (system : m.cpu.sysmode = true) :
    let f := m.cpu.fetchedWith (codeWords (instruction 0x7D n2 n3) operands)
    (m.perform (codeWords (instruction 0x7D n2 n3) operands)).cpu =
      if f.opcode 0 &&& 0x08 == 0 then f.ldctlRead else f.ldctlWrite := by
  intro f
  have decoded : ∀ n, decodeLookup (instruction 0x7D n2 n3) (operands 1) n =
      some { name := "LDCTL", exec := .ldctl } := by
    intro n
    rw [decodeLookup, Instruction.opcode_eq, lookup_ldctl]
    rfl
  have run : m.perform (codeWords (instruction 0x7D n2 n3) operands) =
      (execute { name := "LDCTL", exec := .ldctl } { m with cpu := f }).2 :=
    m.perform_decoded decoded
  rw [run]
  show (privileged _ { m with cpu := f }).2.cpu = _
  rw [privileged_system _ { m with cpu := f } system]
  rfl

/-- Bit 3 of the instruction is the direction. -/
theorem Instruction.direction (op : Word) : (op &&& 0x08 == 0) = !(nib3 op).getLsbD 3 := by
  have test := bit_test op 0x08 3 (by decide) (by decide)
  have low : (nib3 op).getLsbD 3 = op.getLsbD 3 := by
    rw [nib3, BitVec.getLsbD_setWidth]
    rfl
  rw [low, ← test, bne, Bool.not_not]

theorem readControl_eq (system : m.cpu.sysmode = true) (rd : Reg) (r : ControlRegister) :
    m.readControl operands rd r = m.cpu.controlRegister r := by
  let f := m.cpu.fetchedWith (codeWords (instruction 0x7D rd r.code) operands)
  have low : nib3 (f.opcode 0) = r.code := Instruction.nib3_eq 0x7D rd r.code
  have number : (f.opcode 0 &&& 0x07).toNat = r.code.toNat % 8 := by
    rw [Instruction.low_bits, low]
  have reads : (f.opcode 0 &&& 0x08 == 0) = true := by
    rw [Instruction.direction, low]
    cases r <;> rfl
  have target : nib2 (f.opcode 0) = rd := Instruction.nib2_eq 0x7D rd r.code
  have run : (m.perform (codeWords (instruction 0x7D rd r.code) operands)).cpu = f.ldctlRead := by
    rw [perform_ldctl m operands rd r.code system, if_pos reads]
  rw [Machine.readControl, run, Cpu.ldctlRead]
  rw [target, number]
  cases r <;> exact Function.update_self ..

/-- A control register written on the processor. -/
def Cpu.setControl (c : Cpu) (r : ControlRegister) (v : Word) : Cpu :=
  match r with
  | .fcw => c.changeFcw v
  | .refresh => { c with refresh := v }
  | .psapSeg => { c with psap := (c.psap &&& 0x0000FFFF) ||| ((v &&& 0x7F00).setWidth 32 <<< 8) }
  | .psapOff => { c with psap := (c.psap &&& 0xFFFF0000) ||| v.setWidth 32 }
  | .nspSeg => { c with nspseg := v }
  | .nspOff => { c with nspoff := v }

theorem writeControl_eq (system : m.cpu.sysmode = true) (rs : Reg) (r : ControlRegister) :
    (m.writeControl operands rs r).cpu =
      (m.cpu.fetchedWith (codeWords (instruction 0x7D rs (r.code ||| 8)) operands)).setControl r
        (m.cpu.rw rs) := by
  let f := m.cpu.fetchedWith (codeWords (instruction 0x7D rs (r.code ||| 8)) operands)
  have low : nib3 (f.opcode 0) = r.code ||| 8 := Instruction.nib3_eq 0x7D rs (r.code ||| 8)
  have number : (f.opcode 0 &&& 0x07).toNat = (r.code ||| 8).toNat % 8 := by
    rw [Instruction.low_bits, low]
  have writes : ¬(f.opcode 0 &&& 0x08 == 0) = true := by
    rw [Instruction.direction, low]
    cases r <;> decide
  have source : nib2 (f.opcode 0) = rs := Instruction.nib2_eq 0x7D rs (r.code ||| 8)
  have run : (m.writeControl operands rs r).cpu = f.ldctlWrite := by
    rw [Machine.writeControl, perform_ldctl m operands rs (r.code ||| 8) system, if_neg writes]
  rw [run, Cpu.ldctlWrite]
  rw [source, number]
  cases r <;> rfl

end Instruction

/-! ## Reading back -/

/-- An FCW with the same mode moves no stack pointer. -/
theorem Cpu.changeFcw_same (c : Cpu) {v : Word} (system : (v &&& fcwSn != 0) = c.sysmode)
    (seg : (v &&& fcwSeg != 0) = c.seg) : c.changeFcw v = { c with fcw := v } := by
  rw [c.changeFcw_eq v]
  dsimp only
  rw [system, seg]
  cases c.sysmode <;> simp

/-- The segment and the offset after a write to the segment. -/
theorem Cpu.setControl_psapSeg (c : Cpu) (v : Word) :
    (c.setControl .psapSeg v).controlRegister .psapSeg =
        loByte ((v &&& (0x7F00 : Word)) >>> 8) ++ hiByte (c.controlRegister .psapOff) ∧
      (c.setControl .psapSeg v).controlRegister .psapOff = c.controlRegister .psapOff := by
  have packed : (c.setControl .psapSeg v).psap = _ := setSegment_eq c.psap v
  exact ⟨(congrArg (fun p : Long => (p >>> 8).setWidth 16) packed).trans (readSegment_append _ _),
    (congrArg (BitVec.setWidth 16) packed).trans (low_append _ _)⟩

/-- The segment and the offset after a write to the offset. -/
theorem Cpu.setControl_psapOff (c : Cpu) (v : Word) :
    (c.setControl .psapOff v).controlRegister .psapSeg =
        loByte ((c.psap >>> 16).setWidth 16) ++ hiByte v ∧
      (c.setControl .psapOff v).controlRegister .psapOff = v := by
  have packed : (c.setControl .psapOff v).psap = _ := setOffset_eq c.psap v
  exact ⟨(congrArg (fun p : Long => (p >>> 8).setWidth 16) packed).trans (readSegment_append _ _),
    (congrArg (BitVec.setWidth 16) packed).trans (low_append _ _)⟩

/-- The segment shows the high byte of the offset. -/
theorem Cpu.controlRegister_psapSeg (c : Cpu) : c.controlRegister .psapSeg =
    loByte ((c.psap >>> 16).setWidth 16) ++ hiByte (c.controlRegister .psapOff) := by
  have halves := readSegment_append ((c.psap >>> 16).setWidth 16) (c.psap.setWidth 16)
  rwa [← long_halves] at halves

/-- A control register written by LDCTL is read back, and the others are as before. -/
def ControlExact (m : Machine) (operands : Fin 6 → Word) (rs : Reg) (t : ControlRegister) : Prop :=
  let x := m.writeControl operands rs t
  ∀ rd, x.readControl operands rd t = t.kept (m.cpu.rw rs) ∧
    ∀ u, u ≠ t → x.readControl operands rd u = m.readControl operands rd u

/-- LDCTL writes and reads back exactly as long as the high byte of the offset stays out of
the way: it shows in the segment of the program status area. -/
theorem control_exact_iff (m : Machine) (operands : Fin 6 → Word) (rs : Reg) (t : ControlRegister)
    (system : m.cpu.sysmode = true)
    (keeps : t = .fcw → ∀ mode ∈ [fcwSn, fcwSeg],
      (m.cpu.rw rs &&& mode != 0) = (m.cpu.fcw &&& mode != 0)) :
    ControlExact m operands rs t ↔
      (t = .psapSeg → hiByte (m.cpu.controlRegister .psapOff) = 0) ∧
        (t = .psapOff → hiByte (m.cpu.rw rs) = hiByte (m.cpu.controlRegister .psapOff)) := by
  let f := m.cpu.fetchedWith (codeWords (instruction 0x7D rs (t.code ||| 8)) operands)
  have moveless : t = .fcw → f.changeFcw (m.cpu.rw rs) = { f with fcw := m.cpu.rw rs } := fun fcw =>
    f.changeFcw_same (keeps fcw fcwSn List.mem_cons_self)
      (keeps fcw fcwSeg (List.mem_cons_of_mem _ List.mem_cons_self))
  have written : (m.writeControl operands rs t).cpu = f.setControl t (m.cpu.rw rs) :=
    writeControl_eq m operands system rs t
  have still : (m.writeControl operands rs t).cpu.sysmode = true := by
    rw [written]
    cases t with
    | fcw =>
      show (f.changeFcw (m.cpu.rw rs)).sysmode = true
      rw [moveless rfl]
      exact (keeps rfl fcwSn List.mem_cons_self).trans system
    | _ => exact system
  have reads : ControlExact m operands rs t ↔
      (f.setControl t (m.cpu.rw rs)).controlRegister t = t.kept (m.cpu.rw rs) ∧
        ∀ u, u ≠ t → (f.setControl t (m.cpu.rw rs)).controlRegister u = f.controlRegister u := by
    unfold ControlExact
    simp only [readControl_eq _ operands still, readControl_eq _ operands system, written,
      forall_const]
    rfl
  rw [reads]
  cases t with
  | psapSeg =>
    obtain ⟨segment, offset⟩ := f.setControl_psapSeg (m.cpu.rw rs)
    have kept : ControlRegister.kept .psapSeg (m.cpu.rw rs) =
        loByte ((m.cpu.rw rs &&& (0x7F00 : Word)) >>> 8) ++ (0 : Byte) := segment_halves _
    rw [segment, kept, append_low_inj]
    refine ⟨fun right => ⟨fun _ => right.1, nofun⟩,
      fun clear => ⟨clear.1 rfl, fun u other => ?_⟩⟩
    cases u with
    | psapSeg => exact absurd rfl other
    | psapOff => exact offset
    | _ => rfl
  | psapOff =>
    obtain ⟨segment, offset⟩ := f.setControl_psapOff (m.cpu.rw rs)
    refine ⟨fun right => ⟨nofun, fun _ => ?_⟩,
      fun same => ⟨offset, fun u other => ?_⟩⟩
    · have shown := right.2 .psapSeg nofun
      rwa [segment, f.controlRegister_psapSeg, append_low_inj] at shown
    · cases u with
      | psapSeg =>
        rw [segment, f.controlRegister_psapSeg, append_low_inj]
        exact same.2 rfl
      | psapOff => exact absurd rfl other
      | _ => rfl
  | fcw =>
    have moved : f.setControl .fcw (m.cpu.rw rs) = { f with fcw := m.cpu.rw rs } := moveless rfl
    rw [moved]
    refine iff_of_true ⟨rfl, fun u other => ?_⟩ ⟨nofun, nofun⟩
    cases u with
    | fcw => exact absurd rfl other
    | _ => rfl
  | refresh | nspSeg | nspOff =>
    refine iff_of_true ⟨rfl, fun u other => ?_⟩ ⟨nofun, nofun⟩
    cases u <;> first | rfl | exact absurd rfl other

/-- A machine in system mode whose program status area starts at offset 0x1234, with a segment
in R1 and flags for system mode in R3. -/
def statusArea : Machine :=
  { machineNew with cpu :=
    { (machineNew.cpu.ww 1 0x0500).ww 3 0x40FC with fcw := fcwSn, psap := 0x00001234 } }

/-- The segment 0x0500 is read back as 0x0512. -/
theorem segment_shows_offset :
    (statusArea.writeControl (fun _ => 0) 1 .psapSeg).readControl (fun _ => 0) 2 .psapSeg = 0x0512 ∧
      ¬∀ (m : Machine) (operands : Fin 6 → Word) (rs : Reg) (t : ControlRegister),
        m.cpu.sysmode = true →
        (t = .fcw → ∀ mode ∈ [fcwSn, fcwSeg],
          (m.cpu.rw rs &&& mode != 0) = (m.cpu.fcw &&& mode != 0)) →
        ControlExact m operands rs t := by
  have shown : (statusArea.writeControl (fun _ => 0) 1 .psapSeg).readControl (fun _ => 0) 2 .psapSeg =
      0x0512 := by
    decide
  refine ⟨shown, fun claimed => ?_⟩
  have back := (claimed statusArea (fun _ => 0) 1 .psapSeg (by decide) nofun 2).1
  exact absurd (shown.symm.trans back) (by decide)

/-- New flags are read back. -/
theorem control_exact_iff_fcw : ControlExact statusArea (fun _ => 0) 3 .fcw := by
  have keeps : ∀ mode ∈ [fcwSn, fcwSeg],
      (statusArea.cpu.rw 3 &&& mode != 0) = (statusArea.cpu.fcw &&& mode != 0) :=
    List.forall_mem_cons.mpr ⟨by decide, List.forall_mem_singleton.mpr (by decide)⟩
  exact (control_exact_iff statusArea (fun _ => 0) 3 .fcw (by decide) fun _ => keeps).mpr
    ⟨nofun, nofun⟩

end C900
