import C900.Cpu.Unread

/-!
# Restart after a violation

A repeating block instruction whose element meets a hard violation is left with the program
counter behind it when the element was the first and on it when it was a later one. Either way
the element has moved its pointers and counted down. `TakesUp` says what a restart needs to
process the element again; `takesUp_iff` tells the few instructions that meet it.
-/

namespace C900

/-! ## What an element does -/

/-- A cycle with an effect outside the processor and the unit: an I/O cycle, or a store that the
unit permits. -/
def Event.outward : Event → Bool
  | .mem .write _ _ _ viol => !viol
  | .mem _ _ _ _ _ => false
  | .ioRead .. | .ioWrite .. => true

namespace Machine

variable (m : Machine)

/-- The byte of the table that a translate element looks up. -/
def tableByte : Byte :=
  let index := physRead8 m.bus (m.physOf .read (m.cpu.addrFromReg m.cpu.dstReg))
  physRead8 m.bus
    (m.physOf .read (addrAdd (m.cpu.addrFromReg m.cpu.srcReg) (index.setWidth 32)))

/-- A cycle leaves the translation of others alone. -/
theorem cycle_access (kind other : Access) (wide : Bool) (a b : Long) :
    (m.cycle kind wide a).physOf other b = m.physOf other b ∧
      (m.cycle kind wide a).violates other b = m.violates other b :=
  (m.cycle_sameMap kind wide a).translate (segOf b) (offOf b) _ _ _

end Machine

section Element

variable {w : CtrlWord} (m : Machine)

theorem endTranslateTest_registers (kind : w.exec = .translate) (test : w.ioWrite = false)
    (c : Cpu) (v : Byte) : (c.endTranslateTest w v).R = ((c.loaded w v).advance w).R := by
  have table : w.testsTable = true := by simp [CtrlWord.testsTable, kind, test]
  simp only [Cpu.loaded, table, if_true, Cpu.advance, Cpu.pointers, CtrlWord.step, kind,
    List.foldl_cons, List.foldl_nil]
  rfl

/-- The registers after an element. -/
theorem element_registers (block : w.isBlock = true)
    (allowed : w.exec = .blockIo → m.cpu.sysmode = true) :
    (execute w m).2.cpu.R = ((m.cpu.loaded w m.tableByte).advance w).R := by
  cases table : w.testsTable with
  | false =>
    obtain ⟨v, -, registers⟩ := (block_element m block allowed).registers
    rw [registers]
    unfold Cpu.loaded
    rw [table]
    rfl
  | true =>
    obtain ⟨kind, test⟩ : w.exec = .translate ∧ w.ioWrite = false := by
      simpa [CtrlWord.testsTable] using table
    let first := memR8 (m.cpu.addrFromReg m.cpu.dstReg) m
    let second := memR8 (addrAdd (m.cpu.addrFromReg m.cpu.srcReg) (first.1.setWidth 32)) first.2
    have byte : second.1 = m.tableByte :=
      congrArg (physRead8 m.bus) (m.cycle_access .read .read false _ _).1
    have tested : (execute w m).2.cpu = second.2.cpu.endTranslateTest w second.1 := by
      simp only [execute, kind, execTranslate, test, Bool.false_eq_true, if_false]
      rfl
    have fields : second.2.cpu.R = m.cpu.R ∧ second.2.cpu.opcode = m.cpu.opcode ∧
        second.2.cpu.seg = m.cpu.seg := ⟨rfl, rfl, rfl⟩
    obtain ⟨operands, form⟩ := loaded_fixed second.2.cpu w m.tableByte
    obtain ⟨operandsM, formM⟩ := loaded_fixed m.cpu w m.tableByte
    rw [tested, byte, endTranslateTest_registers kind test]
    refine advance_congr w ?_ ?_ ?_
    · funext s
      exact (loaded_rw second.2.cpu w m.tableByte s).trans (loaded_rw m.cpu w m.tableByte s).symm
    · rw [operands, operandsM]
      exact fields.2.1
    · rw [form, formM]
      exact fields.2.2

/-- The cycles of `x` behind those of `m` have an effect outside. -/
def Machine.Acts (m x : Machine) (acts : Bool) : Prop :=
  ∃ events, x.trace = events ++ m.trace ∧ events.any Event.outward = acts

theorem Machine.Acts.unique {m x : Machine} {p q : Bool} (first : m.Acts x p)
    (second : m.Acts x q) : p = q := by
  obtain ⟨events, trace, acts⟩ := first
  obtain ⟨others, same, actsToo⟩ := second
  rw [trace] at same
  rw [← acts, ← actsToo, List.append_cancel_right same]

theorem compare_acts (kind : w.exec = .blockCompare) : m.Acts (execute w m).2 false := by
  refine ⟨[m.memEvent .read (w.width != .byte) (m.cpu.addrFromReg m.cpu.srcReg)], ?_, rfl⟩
  have trace : (execute w m).2.trace =
      (memReadElement w (m.cpu.addrFromReg m.cpu.srcReg) m).2.trace := by
    simp only [execute, kind]
    rfl
  rw [trace, memReadElement_machine]
  rfl

theorem blockIo_acts (kind : w.exec = .blockIo) (system : m.cpu.sysmode = true) :
    m.Acts (execute w m).2 true := by
  let port := m.cpu.rw (m.cpu.ioPortReg w)
  let place := m.cpu.addrFromReg (m.cpu.ioAddrReg w)
  let isByte := w.width == .byte
  cases direction : w.ioWrite with
  | true =>
    let read := memReadElement w place m
    let data := if isByte then byteOut (loByte read.1) w.ioSpec else read.1
    have trace : (execute w m).2.trace = (ioWriteCycle port data isByte w.ioSpec read.2).2.trace := by
      simp only [execute, kind, execBlockIo, privileged_system _ m system, StateM.bind_apply,
        direction, if_true]
      rfl
    refine ⟨[.ioWrite port data isByte w.ioSpec, m.memEvent .read (w.width != .byte) place], ?_,
      rfl⟩
    have written : (ioWriteCycle port data isByte w.ioSpec read.2).2.trace =
        .ioWrite port data isByte w.ioSpec :: (ioWrite read.2 port data w.ioSpec).trace := rfl
    rw [trace, written, ioWrite_trace, memReadElement_machine]
    rfl
  | false =>
    let read := ioReadCycle port isByte w.ioSpec m
    let data := if isByte then (byteIn read.1 w.ioSpec).setWidth 16 else read.1
    have trace : (execute w m).2.trace = (memWriteElement w place data read.2).2.trace := by
      simp only [execute, kind, execBlockIo, privileged_system _ m system, StateM.bind_apply,
        direction, Bool.false_eq_true, if_false]
      rfl
    refine ⟨[read.2.memEvent .write (w.width != .byte) place,
      .ioRead port isByte w.ioSpec read.1], ?_, by simp [Event.outward]⟩
    have input : read.2.trace = .ioRead port isByte w.ioSpec read.1 ::
        (ioRead m port w.ioSpec).2.trace := rfl
    have stored : (memWriteElement w place data read.2).2.trace =
        read.2.memEvent .write (w.width != .byte) place :: read.2.trace := by
      unfold memWriteElement
      cases w.width <;> rfl
    rw [trace, stored, input, ioRead_trace]
    rfl

theorem translate_acts (kind : w.exec = .translate) : m.Acts (execute w m).2
    (w.ioWrite && !m.violates .write (m.cpu.addrFromReg m.cpu.dstReg)) := by
  let place := m.cpu.addrFromReg m.cpu.dstReg
  let first := memR8 place m
  let table := addrAdd (m.cpu.addrFromReg m.cpu.srcReg) (first.1.setWidth 32)
  let second := memR8 table first.2
  have reads : second.2.trace = [first.2.memEvent .read false table, m.memEvent .read false place] ++
      m.trace := rfl
  cases direction : w.ioWrite with
  | true =>
    have trace : (execute w m).2.trace = second.2.memEvent .write false place :: second.2.trace := by
      simp only [execute, kind, execTranslate, direction, if_true]
      rfl
    have refused : second.2.violates .write place = m.violates .write place :=
      (first.2.cycle_access .read .write false table place).2.trans
        (m.cycle_access .read .write false place place).2
    refine ⟨second.2.memEvent .write false place :: [first.2.memEvent .read false table,
      m.memEvent .read false place], by rw [trace, reads]; rfl, ?_⟩
    simp [Machine.memEvent, Event.outward, refused, place]
  | false =>
    have trace : (execute w m).2.trace = second.2.trace := by
      simp only [execute, kind, execTranslate, direction, Bool.false_eq_true, if_false]
      rfl
    exact ⟨_, trace.trans reads, rfl⟩

end Element

/-! ## The place of an instruction -/

namespace Cpu

variable (c : Cpu) (w : CtrlWord)

/-- The registers of a pointer. -/
def pointerRegs (r : Reg) : List Reg := if c.seg then [pairReg r, c.offsetReg r] else [c.offsetReg r]

/-- The registers that tell how far a block instruction is: the count and the pointers, the table
pointer of a translate included. -/
def placeRegs : List Reg :=
  c.cntReg :: (c.pointers w ++ if w.exec = .translate then [c.srcReg] else []).flatMap c.pointerRegs

theorem offsetReg_mem_placeRegs {r : Reg} (moved : r ∈ c.pointers w) :
    c.offsetReg r ∈ c.placeRegs w := by
  refine List.mem_cons_of_mem _ (List.mem_flatMap.mpr ⟨r, List.mem_append_left _ moved, ?_⟩)
  unfold pointerRegs
  split
  · exact List.mem_cons_of_mem _ (List.mem_singleton_self _)
  · exact List.mem_singleton_self _

theorem pointersAt_eq_count (s : Reg) :
    c.pointersAt w s = ((c.pointers w).map c.offsetReg).count s := by
  rw [pointersAt, List.count, List.countP_map]
  refine List.countP_congr fun r _ => ?_
  simp

/-- A register after an element of which the table byte is `v`. -/
theorem advanced_rw (v : Byte) (s : Reg) : ((c.loaded w v).advance w).rw s =
    (c.loaded w v).rw s +
      (BitVec.ofNat 16 (c.pointersAt w s) * w.step - if c.cntReg = s then 1 else 0) := by
  obtain ⟨operands, form⟩ := loaded_fixed c w v
  have field : (c.loaded w v).cntReg = c.cntReg := by rw [cntReg, cntReg, operands]
  rw [advance_rw, pointersAt_congr w operands form, field, BitVec.sub_eq_add_neg,
    BitVec.sub_eq_add_neg, BitVec.add_assoc]

theorem loaded_low (v : Byte) (s : Reg) : loByte ((c.loaded w v).rw s) = loByte (c.rw s) := by
  rw [loaded_rw]
  split
  · rename_i high
    obtain ⟨-, one⟩ := (Bool.and_eq_true ..).mp high
    rw [show s = 1 by simpa using one]
    exact BitVec.setWidth_append_eq_right
  · rfl

end Cpu

/-- A small change that the low byte does not show is none. -/
theorem change_eq_zero {step : Word} {n : Nat} (few : n ≤ 2)
    (unit : step = 1 ∨ step = -1 ∨ step = 2 ∨ step = -2) (counts : Bool)
    (kept : loByte (BitVec.ofNat 16 n * step - if counts then 1 else 0) = 0) :
    if counts then n = 1 ∧ step = 1 else n = 0 := by
  have cases : n = 0 ∨ n = 1 ∨ n = 2 := by omega
  rcases cases with rfl | rfl | rfl <;> rcases unit with rfl | rfl | rfl | rfl <;>
    cases counts <;> revert kept <;> decide

/-- An element leaves every register of its place as it is. -/
theorem place_kept_iff {w : CtrlWord} (decoded : w ∈ pool) (repeats : w.blockRept = true) (c : Cpu)
    (v : Byte) : (∀ s ∈ c.placeRegs w, ((c.loaded w v).advance w).rw s = c.rw s) ↔
      w.step = 1 ∧ (c.pointers w).map c.offsetReg = [c.cntReg] ∧
        (w.testsTable = true → 1 ∈ c.placeRegs w → v = hiByte (c.rw 1)) := by
  obtain ⟨-, moves⟩ := pool_repeating w decoded repeats
  have unit : w.step = 1 ∨ w.step = -1 ∨ w.step = 2 ∨ w.step = -2 := by
    rcases moves with one | back | ⟨-, two⟩
    · exact .inl one
    · exact .inr (.inl back)
    · exact .inr (.inr two)
  have few : ∀ s, c.pointersAt w s ≤ 2 := fun s =>
    Nat.le_trans (pointersAt_le c w s) (by split <;> decide)
  have unchanged : w.step = 1 → (c.pointers w).map c.offsetReg = [c.cntReg] → ∀ s,
      BitVec.ofNat 16 (c.pointersAt w s) * w.step - (if c.cntReg = s then 1 else 0) = 0#16 := by
    intro forward only s
    rw [forward, Cpu.pointersAt_eq_count, only, List.count_singleton]
    by_cases here : c.cntReg = s
    · simp [here]
    · simp [here]
  constructor
  · intro kept
    have still : ∀ s ∈ c.placeRegs w,
        if c.cntReg = s then c.pointersAt w s = 1 ∧ w.step = 1 else c.pointersAt w s = 0 := by
      intro s place
      have low := congrArg loByte (kept s place)
      rw [Cpu.advanced_rw] at low
      have sum : ∀ x y : Word, loByte (x + y) = loByte x + loByte y := fun x y =>
        BitVec.setWidth_add x y (by decide)
      rw [sum, Cpu.loaded_low, BitVec.add_right_eq_self] at low
      have change := change_eq_zero (few s) unit (decide (c.cntReg = s)) (by simpa using low)
      simpa using change
    obtain ⟨single, forward⟩ : c.pointersAt w c.cntReg = 1 ∧ w.step = 1 := by
      have count := still c.cntReg List.mem_cons_self
      rwa [if_pos rfl] at count
    have all : ∀ s ∈ (c.pointers w).map c.offsetReg, s = c.cntReg := by
      intro s member
      obtain ⟨r, moved, rfl⟩ := List.mem_map.mp member
      by_contra other
      have none := still _ (c.offsetReg_mem_placeRegs w moved)
      rw [if_neg fun same => other same.symm, Cpu.pointersAt_eq_count] at none
      exact absurd (List.count_pos_iff.mpr member) (by omega)
    have only : (c.pointers w).map c.offsetReg = [c.cntReg] := by
      have copies := List.eq_replicate_of_mem all
      rw [Cpu.pointersAt_eq_count, copies, List.count_replicate_self] at single
      rw [copies, single]
      rfl
    refine ⟨forward, only, fun table place => ?_⟩
    have high := kept 1 place
    have none := unchanged forward only 1
    rw [Cpu.advanced_rw, none, BitVec.add_zero, loaded_rw, table] at high
    have halves : v ++ loByte (c.rw 1) = hiByte (c.rw 1) ++ loByte (c.rw 1) := by
      rw [word_halves]
      exact high
    exact (BitVec.append_left_inj _).mp halves
  · rintro ⟨forward, only, byte⟩ s place
    rw [Cpu.advanced_rw, unchanged forward only, BitVec.add_zero, loaded_rw]
    split
    · rename_i high
      obtain ⟨table, one⟩ := (Bool.and_eq_true ..).mp high
      obtain rfl : s = 1 := by simpa using one
      rw [byte table place, word_halves]
    · rfl

/-! ## The restart -/

namespace Machine

/-- Element `k + 1` of the instruction is the first to meet a hard violation. -/
structure FaultsAt (w : CtrlWord) (d : Machine) (k : Nat) : Prop where
  reached : EndsAfter w (d.started.nextElement w) k
  clean : ∀ j ≤ k, (elementRun w d.started j).cpu.fault = false
  fault : (elementRun w d.started (k + 1)).cpu.fault = true

/-- From `after`, a restart of the instruction takes up with element `k + 1`: the program counter
is on the instruction, the count and the pointers are those that the element started from, and
the element has not stored anything nor accessed a port. -/
structure TakesUp (w : CtrlWord) (d : Machine) (k : Nat) (after : Machine) : Prop where
  pc : after.cpu.pc = d.cpu.instrStart
  place : ∀ s ∈ d.cpu.placeRegs w, after.cpu.rw s = (elementRun w d.started k).cpu.rw s
  untouched : (elementRun w d.started k).Acts after false

/-- An element on `m` leaves the place of its instruction and the outside as they are: a form
with a single pointer that moves forwards by a byte, and that keeps its offset in the count
register. -/
structure Retraces (w : CtrlWord) (m : Machine) : Prop where
  kind : w.exec = .blockCompare ∨ w.exec = .translate ∧
    (w.ioWrite = true → m.violates .write (m.cpu.addrFromReg m.cpu.dstReg) = true)
  forward : w.step = 1
  counted : (m.cpu.pointers w).map m.cpu.offsetReg = [m.cpu.cntReg]
  loaded : w.testsTable = true → 1 ∈ m.cpu.placeRegs w → m.tableByte = hiByte (m.cpu.rw 1)

end Machine

section Restart

variable {w : CtrlWord} {d : Machine} {k : Nat}

/-- The fault comes from an access, so the instruction was allowed. -/
theorem Machine.FaultsAt.allowed (faults : d.FaultsAt w k) (kind : w.exec = .blockIo) :
    (elementRun w d.started k).cpu.sysmode = true := by
  cases mode : (elementRun w d.started k).cpu.sysmode with
  | true => rfl
  | false =>
    have asks : w.isPrivileged = true := by rw [CtrlWord.isPrivileged, kind]
    obtain ⟨irqReq, counted⟩ := executeElement_cpu w (elementRun w d.started k).clearRepeat
    have trapped := execute_privileged asks (elementRun w d.started k).clearRepeat mode
    have fault := faults.fault
    rw [elementRun_succ, Machine.nextElement, counted, trapped] at fault
    exact absurd ((faults.clean k (Nat.le_refl k)).symm.trans fault) Bool.false_ne_true

theorem Machine.FaultsAt.allowedAtStart (faults : d.FaultsAt w k) (decoded : w ∈ pool)
    (kind : w.exec = .blockIo) : d.started.cpu.sysmode = true := by
  cases mode : d.started.cpu.sysmode with
  | true => rfl
  | false =>
    have settled := single_settles decoded d.started (.inr ⟨kind, mode⟩)
    obtain rfl := faults.reached.unique (EndsAfter.zero_iff.mpr settled)
    exact absurd (mode.symm.trans (faults.allowed kind)) Bool.false_ne_true

/-- The registers and the cycles that the faulting element has left. -/
theorem Machine.FaultsAt.element (faults : d.FaultsAt w k) (block : w.isBlock = true) :
    (elementRun w d.started (k + 1)).cpu.R =
      (((elementRun w d.started k).cpu.loaded w (elementRun w d.started k).tableByte).advance w).R ∧
    (elementRun w d.started (k + 1)).trace =
      (execute w (elementRun w d.started k).clearRepeat).2.trace := by
  generalize before : elementRun w d.started k = m
  have allowed : w.exec = .blockIo → m.clearRepeat.cpu.sysmode = true := before ▸ faults.allowed
  rw [elementRun_succ, before]
  refine ⟨?_, Machine.takeWarning_trace _⟩
  obtain ⟨irqReq, counted⟩ := executeElement_cpu w m.clearRepeat
  rw [Machine.nextElement, counted]
  refine (element_registers m.clearRepeat block allowed).trans ?_
  obtain ⟨operands, form⟩ := loaded_fixed m.cpu w m.tableByte
  obtain ⟨operandsC, formC⟩ := loaded_fixed m.clearRepeat.cpu w m.tableByte
  refine advance_congr w ?_ (operandsC.trans operands.symm) (formC.trans form.symm)
  funext s
  exact (loaded_rw m.clearRepeat.cpu w m.tableByte s).trans (loaded_rw m.cpu w m.tableByte s).symm

/-- The element kept the outside as it was, by the class of the instruction. -/
theorem acts_false_iff {m x : Machine} (trace : x.trace = (execute w m.clearRepeat).2.trace)
    (allowed : w.exec = .blockIo → m.cpu.sysmode = true) {s : Reg} (block : w.isBlock = true)
    (single : (m.cpu.pointers w).map m.cpu.offsetReg = [s]) :
    m.Acts x false ↔ w.exec = .blockCompare ∨ w.exec = .translate ∧
      (w.ioWrite = true → m.violates .write (m.cpu.addrFromReg m.cpu.dstReg) = true) := by
  have same : ∀ p, m.clearRepeat.Acts (execute w m.clearRepeat).2 p → m.Acts x p := by
    rintro p ⟨events, cycles, acts⟩
    exact ⟨events, trace.trans cycles, acts⟩
  unfold CtrlWord.isBlock at block
  cases kind : w.exec with
  | blockCompare =>
    exact ⟨fun _ => .inl rfl, fun _ => same false (compare_acts m.clearRepeat kind)⟩
  | blockIo =>
    have acts := same true (blockIo_acts m.clearRepeat kind (allowed kind))
    refine ⟨fun still => absurd (acts.unique still).symm Bool.false_ne_true, ?_⟩
    rintro (other | ⟨other, -⟩) <;> cases other
  | translate =>
    have acts := same _ (translate_acts m.clearRepeat kind)
    change m.Acts x (w.ioWrite && !m.violates .write (m.cpu.addrFromReg m.cpu.dstReg)) at acts
    constructor
    · intro still
      have none := acts.unique still
      refine .inr ⟨rfl, fun stores => ?_⟩
      simpa [stores] using none
    · rintro (other | ⟨-, refused⟩)
      · cases other
      · have none : (w.ioWrite && !m.violates .write (m.cpu.addrFromReg m.cpu.dstReg)) = false := by
          cases stores : w.ioWrite with
          | true => simp [refused stores]
          | false => rfl
        rwa [none] at acts
  | blockTransfer | blockString =>
    have two : (m.cpu.pointers w).length = 2 := by simp [Cpu.pointers, kind]
    have one := congrArg List.length single
    rw [List.length_map, two] at one
    exact absurd one (Nat.succ_ne_self 1)
  | _ => rw [kind] at block; exact absurd block Bool.false_ne_true

theorem reducedLength_le (op : Word) (seg bit1 bit2 : Bool) :
    reducedLength op seg bit1 bit2 ≤ decodeLength op seg := by
  unfold reducedLength
  dsimp only
  split_ifs <;> omega

/-- The address behind an instruction is not its own. -/
theorem Cpu.Loaded.pcNext_ne {c : Cpu} (loaded : c.Loaded w) : c.pcNext ≠ c.instrStart := by
  have least := reducedLength_pos (c.opcode 0) c.seg (c.opcode 1 &&& 0x8000 != 0)
    (c.opcode 2 &&& 0x8000 != 0)
  have most := Nat.le_trans (reducedLength_le (c.opcode 0) c.seg (c.opcode 1 &&& 0x8000 != 0)
    (c.opcode 2 &&& 0x8000 != 0)) (decodeLength_bounds _ _).2
  rw [← loaded.reducedLength] at least most
  intro same
  rw [Cpu.pcNext, long_halves c.instrStart, addrAdd_append, BitVec.append_right_inj,
    BitVec.add_right_eq_self] at same
  have none := congrArg BitVec.toNat same
  rw [BitVec.toNat_setWidth, BitVec.toNat_ofNat, BitVec.toNat_ofNat] at none
  omega

/-- The place of an instruction depends on the operand fields and the address form. -/
theorem placeRegs_congr {c e : Cpu} (operands : c.opcode = e.opcode) (form : c.seg = e.seg) :
    c.placeRegs w = e.placeRegs w := by
  have pointers : c.pointers w = e.pointers w := by
    simp only [Cpu.pointers, Cpu.srcReg, Cpu.dstReg, Cpu.ioAddrReg, operands]
  have registers : c.pointerRegs = e.pointerRegs := by
    funext r
    simp only [Cpu.pointerRegs, Cpu.offsetReg, form]
  simp only [Cpu.placeRegs, Cpu.cntReg, Cpu.srcReg, pointers, registers, operands]

/-- After a hard violation a restart takes up with the faulting element only if that is not the
first one, and the element left its instruction's place and the outside as they were. -/
theorem takesUp_iff {hook : SysHook} {m after : Machine} {fuel : Nat}
    (runs : m.instruction hook = some (w, d)) (repeats : w.blockRept = true)
    (faults : d.FaultsAt w k) (returns : cpuStep hook fuel m = some after) :
    d.TakesUp w k after ↔ k ≠ 0 ∧ (elementRun w d.started k).Retraces w := by
  have decoded := instruction_pool runs
  have block := (pool_repeating w decoded repeats).1
  obtain ⟨x, fetched⟩ := instruction_fetched runs
  have loaded := fetchDecode_loaded fetched
  rw [cpuStep_of_instruction runs] at returns
  obtain ⟨l, -, ends, left⟩ :=
    (runInstruction_eq_some_iff w fuel d after loaded.fresh).mp returns
  obtain rfl := ends.unique faults.reached
  have gone : after = (elementRun w d.started (l + 1)).abort (d.faultPc w l) := by
    rw [left, Machine.leave, if_pos faults.fault]
  obtain ⟨registers, trace⟩ := faults.element block
  have allowed := faults.allowed
  have place : d.cpu.placeRegs w = (elementRun w d.started l).cpu.placeRegs w := by
    obtain ⟨operands, form, -⟩ :=
      elementRun_form d.started (faults.allowedAtStart decoded) block l
    exact (placeRegs_congr operands form).symm
  have pc : after.cpu.pc = d.cpu.instrStart ↔ l ≠ 0 := by
    have start := elementRun_instrStart (w := w) d.started (l + 1)
    rw [gone]
    show d.faultPc w l = d.cpu.instrStart ↔ l ≠ 0
    unfold Machine.faultPc
    by_cases first : l = 0
    · rw [if_pos first]
      exact ⟨fun same => absurd same loaded.pcNext_ne, fun other => absurd first other⟩
    · rw [if_neg first]
      exact ⟨fun _ => first, fun _ => start⟩
  have kept : (∀ s ∈ d.cpu.placeRegs w,
      after.cpu.rw s = (elementRun w d.started l).cpu.rw s) ↔ w.step = 1 ∧
        ((elementRun w d.started l).cpu.pointers w).map (elementRun w d.started l).cpu.offsetReg =
          [(elementRun w d.started l).cpu.cntReg] ∧
        (w.testsTable = true → 1 ∈ (elementRun w d.started l).cpu.placeRegs w →
          (elementRun w d.started l).tableByte = hiByte ((elementRun w d.started l).cpu.rw 1)) := by
    rw [place, ← place_kept_iff decoded repeats]
    have moved : ∀ s, after.cpu.rw s = (((elementRun w d.started l).cpu.loaded w
        (elementRun w d.started l).tableByte).advance w).rw s := by
      intro s
      rw [gone]
      exact congrFun registers s
    exact forall₂_congr fun s _ => by rw [moved]
  have cycles : after.trace = (execute w (elementRun w d.started l).clearRepeat).2.trace := by
    rw [gone]
    exact trace
  constructor
  · rintro ⟨onIt, same, untouched⟩
    obtain ⟨forward, counted, byte⟩ := kept.mp same
    exact ⟨pc.mp onIt, (acts_false_iff cycles allowed block counted).mp untouched, forward, counted,
      byte⟩
  · rintro ⟨later, kind, forward, counted, byte⟩
    exact ⟨pc.mpr later, kept.mpr ⟨forward, counted, byte⟩,
      (acts_false_iff cycles allowed block counted).mpr kind⟩

end Restart

/-- LDIRB of two bytes from 0x80 to `dest`, in a segment of 256 bytes. -/
def copyPastLimit (dest : Word) : Machine :=
  { (default : Machine) with
    cpu := { (default : Cpu) with
      fcw := 0x4000, R := fun r => if r = 2 then 0x80 else if r = 3 then dest else 2 }
    mmu := { (default : Mmu) with mode := modeMsen ||| modeTrns }
    bus := { (default : Bus) with
      rom := fun a => [0xBA, 0x21, 0x04, 0x30].getD a.toNat 0 } }

/-- The copy loses the byte that its first element, or its second one, cannot store. -/
theorem copyPastLimit_loses :
    (∃ w d after, (copyPastLimit 0x100).instruction none = some (w, d) ∧ w.blockRept = true ∧
      d.FaultsAt w 0 ∧ cpuStep none 2 (copyPastLimit 0x100) = some after ∧
      ¬ d.TakesUp w 0 after) ∧
    ∃ w d after, (copyPastLimit 0xFF).instruction none = some (w, d) ∧ w.blockRept = true ∧
      d.FaultsAt w 1 ∧ cpuStep none 2 (copyPastLimit 0xFF) = some after ∧
      ¬ d.TakesUp w 1 after := by
  constructor
  · refine ⟨_, _, _, rfl, rfl, ⟨EndsAfter.zero_iff.mpr ?_, ?_, ?_⟩, rfl, ?_⟩
    · decide +kernel
    · intro j first
      obtain rfl := Nat.le_zero.mp first
      decide +kernel
    · decide +kernel
    · intro takes
      exact absurd (takes.place 4 (by decide +kernel)) (by decide +kernel)
  · refine ⟨_, _, _, rfl, rfl,
      ⟨EndsAfter.succ_iff.mpr ⟨?_, EndsAfter.zero_iff.mpr ?_⟩, ?_, ?_⟩, rfl, ?_⟩
    · decide +kernel
    · decide +kernel
    · intro j early
      rcases Nat.le_one_iff_eq_zero_or_eq_one.mp early with rfl | rfl
      · decide +kernel
      · decide +kernel
    · decide +kernel
    · intro takes
      exact absurd (takes.place 4 (by decide +kernel)) (by decide +kernel)

/-- TRTIRB with its table pointer in R1, in the upper half of a segment that grows downwards. -/
def searchDownwards : Machine :=
  { (default : Machine) with
    cpu := { (default : Cpu) with
      fcw := 0x4000, pc := 0xFF00, R := fun r => if r = 1 then 0xFF80 else 0xFF40 }
    mmu := { (default : Mmu) with
      mode := modeMsen ||| modeTrns
      desc := fun _ => { base := 0x0900, limit := 0xFF, attr := aDirw } }
    bus := { (default : Bus) with
      ram := fun a => if a = 0x09FF00 then 0xB8 else if a = 0x09FF01 then 0x16
        else if a = 0x09FF02 then 0x02 else if a = 0x09FF03 then 0x20 else 0 } }

theorem takesUp_iff_searchDownwards : ∃ w d after,
    searchDownwards.instruction none = some (w, d) ∧ d.FaultsAt w 1 ∧
      cpuStep none 2 searchDownwards = some after ∧ d.TakesUp w 1 after := by
  obtain ⟨w, d, runs, repeats, faults, retraces⟩ : ∃ w d,
      searchDownwards.instruction none = some (w, d) ∧ w.blockRept = true ∧ d.FaultsAt w 1 ∧
        (elementRun w d.started 1).Retraces w := by
    refine ⟨_, _, rfl, rfl, ⟨EndsAfter.succ_iff.mpr ⟨?_, EndsAfter.zero_iff.mpr ?_⟩, ?_, ?_⟩,
      .inr ⟨rfl, nofun⟩, ?_, ?_, fun _ _ => ?_⟩
    · decide +kernel
    · decide +kernel
    · intro j early
      rcases Nat.le_one_iff_eq_zero_or_eq_one.mp early with rfl | rfl
      · decide +kernel
      · decide +kernel
    · decide +kernel
    · decide +kernel
    · decide +kernel
    · decide +kernel
  have returns : ∃ after, cpuStep none 2 searchDownwards = some after := ⟨_, rfl⟩
  obtain ⟨after, returns⟩ := returns
  exact ⟨w, d, after, runs, faults, returns,
    (takesUp_iff runs repeats faults returns).mpr ⟨by decide, retraces⟩⟩

end C900
