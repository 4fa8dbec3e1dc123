import C900.Cpu.LoadAddress
import C900.Cpu.Report

/-!
# Pushing from memory and popping into it

PUSH, PUSHL, POP and POPL of a memory operand beside their two-instruction counterparts: a load
into a register and a push of it, a pop into a register and a store of it. On the memory both are
`copyWords` from one address to another, and the two differ when these addresses do.
-/

namespace C900

/-! ## Copying words -/

/-- Read one or two words. -/
def readWords (long : Bool) (source : Long) : Exec (List Word) :=
  if long then do
    let hi ← memR16 source
    let lo ← memR16 (addrAdd source 2)
    return [hi, lo]
  else do
    let v ← memR16 source
    return [v]

/-- Write words from an address on. -/
def writeWords (dest : Long) : List Word → Exec Unit
  | [] => pure ()
  | v :: rest => do
    memW16 dest v
    writeWords (addrAdd dest 2) rest

/-- Read one or two words and write them elsewhere. -/
def copyWords (long : Bool) (source dest : Long) : Exec Unit := do
  let words ← readWords long source
  writeWords dest words

/-- Two machines agree on what a memory access depends on. -/
structure SameMemory (x y : Machine) : Prop where
  mmu : y.mmu = x.mmu
  bus : y.bus = x.bus
  mode : y.cpu.sysmode = x.cpu.sysmode

namespace SameMemory

variable {x y : Machine}

/-- A change of the processor that keeps its mode. -/
theorem withCpu (same : SameMemory x y) {d : Cpu} (mode : d.sysmode = y.cpu.sysmode) :
    SameMemory x { y with cpu := d } :=
  ⟨same.mmu, same.bus, mode.trans same.mode⟩

theorem translate (same : SameMemory x y) (kind : Access) (a : Long) :
    y.translate kind a = x.translate kind a := by
  rw [Machine.translate, Machine.translate, same.mmu, same.mode]

theorem read (same : SameMemory x y) (a : Long) :
    (memR16 a y).1 = (memR16 a x).1 ∧ SameMemory (memR16 a x).2 (memR16 a y).2 := by
  have translation := same.translate .read a
  constructor
  · show physRead16 y.bus (y.translate .read a).1 = physRead16 x.bus (x.translate .read a).1
    rw [same.bus, translation]
  · exact ⟨congrArg (fun t => t.2.2) translation, same.bus, same.mode⟩

theorem write (same : SameMemory x y) (a : Long) (v : Word) :
    SameMemory (memW16 a v x).2 (memW16 a v y).2 := by
  have translation := same.translate .write a
  refine ⟨congrArg (fun t => t.2.2) translation, ?_, same.mode⟩
  show (if (y.translate .write a).2.1 then y.bus
      else physWrite16 y.bus (y.translate .write a).1 v) =
    if (x.translate .write a).2.1 then x.bus else physWrite16 x.bus (x.translate .write a).1 v
  rw [same.bus, translation]

theorem readWords (same : SameMemory x y) (long : Bool) (source : Long) :
    (readWords long source y).1 = (readWords long source x).1 ∧
      SameMemory (readWords long source x).2 (readWords long source y).2 := by
  obtain ⟨high, first⟩ := same.read source
  cases long with
  | false => exact ⟨congrArg (fun v => [v]) high, first⟩
  | true =>
    obtain ⟨low, second⟩ := first.read (addrAdd source 2)
    exact ⟨congrArg₂ (fun hi lo => [hi, lo]) high low, second⟩

theorem writeWords (same : SameMemory x y) (dest : Long) (words : List Word) :
    SameMemory (writeWords dest words x).2 (writeWords dest words y).2 := by
  induction words generalizing dest x y with
  | nil => exact same
  | cons v rest inductionHypothesis => exact inductionHypothesis (same.write dest v) _

end SameMemory

/-! ## Processors that form the same addresses -/

/-- The registers of a pointer. -/
def Cpu.addressRegs (c : Cpu) (r : Reg) : List Reg :=
  if c.seg then [pairReg r, pairReg r + 1] else [r]

/-- The processors differ in the registers `T` at most, as far as addresses go. -/
structure Cpu.Agrees (T : List Reg) (c d : Cpu) : Prop where
  mode : d.sysmode = c.sysmode
  seg : d.seg = c.seg
  segment : d.pcSegment = c.pcSegment
  registers : ∀ r, r ∉ T → d.rw r = c.rw r

namespace Cpu.Agrees

variable {T : List Reg} {c d : Cpu}

theorem refl (T : List Reg) (c : Cpu) : c.Agrees T c := ⟨rfl, rfl, rfl, fun _ _ => rfl⟩

theorem trans {e : Cpu} (first : c.Agrees T d) (second : d.Agrees T e) : c.Agrees T e :=
  ⟨second.mode.trans first.mode, second.seg.trans first.seg, second.segment.trans first.segment,
    fun r free => (second.registers r free).trans (first.registers r free)⟩

/-- Processors that agree in all registers. -/
theorem weaken (agrees : c.Agrees [] d) : c.Agrees T d :=
  ⟨agrees.mode, agrees.seg, agrees.segment, fun r _ => agrees.registers r List.not_mem_nil⟩

theorem fetchedWith (agrees : c.Agrees T d) (words : Fin 6 → Word) :
    c.Agrees T (d.fetchedWith words) :=
  ⟨agrees.mode, agrees.seg, (d.fetchedWith_pcSegment words).trans agrees.segment, agrees.registers⟩

theorem fault (agrees : c.Agrees T d) {e : Cpu} (same : d.SameButFault e) : c.Agrees T e := by
  obtain ⟨fault, rfl⟩ := same
  exact ⟨agrees.mode, agrees.seg, agrees.segment, agrees.registers⟩

/-- A register that does not count. -/
theorem ww (agrees : c.Agrees T d) {r : Reg} (mem : r ∈ T) (v : Word) : c.Agrees T (d.ww r v) := by
  refine ⟨agrees.mode, agrees.seg, agrees.segment, fun q free => ?_⟩
  have other : q ≠ r := fun same => free (same ▸ mem)
  exact (Function.update_of_ne other _ _).trans (agrees.registers q free)

/-- A register that gets the same value. -/
theorem wwSame (agrees : c.Agrees T d) (r : Reg) (v : Word) : (c.ww r v).Agrees T (d.ww r v) := by
  refine ⟨agrees.mode, agrees.seg, agrees.segment, fun q free => ?_⟩
  show Function.update d.R r v q = Function.update c.R r v q
  rw [Function.update_apply, Function.update_apply]
  split_ifs
  · rfl
  · exact agrees.registers q free

theorem addrToReg (agrees : c.Agrees T d) (r : Reg) (a : Long) :
    (c.addrToReg r a).Agrees T (d.addrToReg r a) := by
  unfold Cpu.addrToReg
  rw [agrees.seg]
  split_ifs
  · exact (agrees.wwSame _ _).wwSame _ _
  · exact agrees.wwSame _ _

section

variable (agrees : c.Agrees T d) {r : Reg} (free : ∀ q ∈ c.addressRegs r, q ∉ T)

include agrees free

theorem addrFromReg : d.addrFromReg r = c.addrFromReg r := by
  unfold addressRegs at free
  unfold Cpu.addrFromReg
  rw [agrees.seg, agrees.segment]
  cases form : c.seg with
  | true =>
    rw [form, if_pos rfl, List.forall_mem_cons, List.forall_mem_singleton] at free
    have high : d.R (pairReg r) = c.R (pairReg r) := agrees.registers _ free.1
    have low : d.R (pairReg r + 1) = c.R (pairReg r + 1) := agrees.registers _ free.2
    rw [if_pos rfl, if_pos rfl, rl, rl, high, low]
  | false =>
    rw [form, if_neg Bool.false_ne_true, List.forall_mem_singleton] at free
    rw [if_neg Bool.false_ne_true, if_neg Bool.false_ne_true, agrees.registers r free]

theorem reserveAddr (n : Long) : d.reserveAddr r n = c.reserveAddr r n := by
  rw [Cpu.reserveAddr, Cpu.reserveAddr, agrees.addrFromReg free, agrees.seg]

theorem reserve (n : Long) : (c.reserve r n).Agrees T (d.reserve r n) := by
  have address := agrees.reserveAddr free n
  unfold Cpu.reserve
  rw [address, agrees.seg]
  split_ifs
  · exact agrees.addrToReg _ _
  · exact agrees.wwSame _ _

theorem release (n : Long) : (c.release r n).Agrees T (d.release r n) := by
  have address := agrees.addrFromReg free
  unfold Cpu.release
  rw [address, agrees.seg]
  split_ifs
  · exact agrees.addrToReg _ _
  · exact agrees.wwSame _ _

end

end Cpu.Agrees

/-! ## Memory operands -/

/-- A memory operand of the stack forms. -/
inductive MemOperand where
  | ir (pointer : Reg)
  | da
  | x (index : Reg) (nonzero : index ≠ 0)

namespace MemOperand

/-- The register field of the instruction. -/
def field : MemOperand → Reg
  | .ir s | .x s _ => s
  | .da => 0

/-- The opcode of an instruction that has one slot for indirect operands and one for direct and
indexed operands. -/
def opcode (o : MemOperand) (indirect direct : Byte) : Byte :=
  match o with
  | .ir _ => indirect
  | .da | .x .. => direct

/-- PUSH and PUSHL of the operand on the stack of a register. -/
def push (o : MemOperand) (long : Bool) (sp : Reg) : Word :=
  instruction (if long then o.opcode 0x11 0x51 else o.opcode 0x13 0x53) sp o.field

/-- POP and POPL. -/
def pop (o : MemOperand) (long : Bool) (sp : Reg) : Word :=
  instruction (if long then o.opcode 0x15 0x55 else o.opcode 0x17 0x57) sp o.field

/-- LD and LDL of a register from the operand. -/
def load (o : MemOperand) (long : Bool) (t : Reg) : Word :=
  instruction (if long then o.opcode 0x14 0x54 else o.opcode 0x21 0x61) o.field t

/-- LD and LDL of the operand from a register. -/
def store (o : MemOperand) (long : Bool) (t : Reg) : Word :=
  instruction (if long then o.opcode 0x1D 0x5D else o.opcode 0x2F 0x6F) o.field t

/-- The registers that the address of the operand comes from. -/
def regs (o : MemOperand) (c : Cpu) : List Reg :=
  match o with
  | .ir s => c.addressRegs s
  | .da => []
  | .x s _ => [s]

/-- The address of the operand, with the operand words of the instruction. -/
def address (o : MemOperand) (c : Cpu) (words : Fin 6 → Word) : Long :=
  match o with
  | .ir s => c.addrFromReg s
  | .da => ({ c with opcode := words } : Cpu).segAddrOp 1
  | .x s _ => addrAdd (({ c with opcode := words } : Cpu).segAddrOp 1) ((c.rw s).setWidth 32)

/-- The address that the stack forms use: those of two words take the even register of an indirect
operand. -/
def stackAddress (o : MemOperand) (long : Bool) (c : Cpu) (words : Fin 6 → Word) : Long :=
  match o, long with
  | .ir s, true => c.addrFromReg (Cpu.pairReg s)
  | _, _ => o.address c words

end MemOperand

/-- PUSH and PUSHL of a register. -/
def pushReg (long : Bool) (sp t : Reg) : Word := instruction (if long then 0x91 else 0x93) sp t

/-- POP and POPL of a register. -/
def popReg (long : Bool) (sp t : Reg) : Word := instruction (if long then 0x95 else 0x97) sp t

/-- The registers that a transfer of one or two words takes. -/
def transferRegs (long : Bool) (t : Reg) : List Reg :=
  if long then [Cpu.pairReg t, Cpu.pairReg t + 1] else [t]

/-- The bytes of one or two words. -/
def transferBytes (long : Bool) : Long := if long then 4 else 2

theorem segAddrOp_agrees {T : List Reg} {c d : Cpu} (agrees : c.Agrees T d) {words others : Fin 6 → Word}
    (first : others 1 = words 1) (second : others 2 = words 2) :
    ({ d with opcode := others } : Cpu).segAddrOp 1 = ({ c with opcode := words } : Cpu).segAddrOp 1 := by
  have seg : ({ d with opcode := others } : Cpu).seg = ({ c with opcode := words } : Cpu).seg := agrees.seg
  have segment : ({ d with opcode := others } : Cpu).pcSegment =
      ({ c with opcode := words } : Cpu).pcSegment := agrees.segment
  have next : (1 + 1 : Fin 6) = 2 := rfl
  unfold Cpu.segAddrOp
  rw [seg, segment, next]
  dsimp only
  rw [first, second]

theorem MemOperand.address_agrees {T : List Reg} {c d : Cpu} (agrees : c.Agrees T d) (o : MemOperand)
    (free : ∀ q ∈ o.regs c, q ∉ T) {words others : Fin 6 → Word} (first : others 1 = words 1)
    (second : others 2 = words 2) : o.address d others = o.address c words := by
  cases o with
  | ir s => exact agrees.addrFromReg free
  | da => exact segAddrOp_agrees agrees first second
  | x s nonzero =>
    have index : d.rw s = c.rw s := agrees.registers s (free s List.mem_cons_self)
    rw [address, address, segAddrOp_agrees agrees first second, index]

/-! ## Decoding -/

namespace MemOperand

/-- The source select of an operand. -/
def src : MemOperand → SrcSel
  | .ir _ => .ir
  | .da => .da
  | .x .. => .x

/-- The destination select of an operand. -/
def dst : MemOperand → DstSel
  | .ir _ => .ir
  | .da => .da
  | .x .. => .x

/-- The operand has a register. -/
def indexed : MemOperand → Bool
  | .ir _ | .x .. => true
  | .da => false

theorem push_decode (o : MemOperand) (long : Bool) (sp : Reg) (next : Word) :
    ∃ w, (∀ n, decodeLookup (o.push long sp) next n = some w) ∧ w.exec = .stack ∧
      w.stkMode = (if long then .pushLSrc else .pushSrc) ∧ w.src2 = o.src ∧ w.src2Nib = .nib3 := by
  cases o with
  | ir s =>
    cases long <;> exact ⟨_, fun n => Instruction.decode_ctrl next rfl, rfl, rfl, rfl, rfl⟩
  | da =>
    cases long <;> exact ⟨_, fun n => (Instruction.decode_fork3 next rfl).trans
      (congrArg some (if_pos rfl)), rfl, rfl, rfl, rfl⟩
  | x s nonzero =>
    cases long <;> exact ⟨_, fun n => (Instruction.decode_fork3 next rfl).trans
      (congrArg some (if_neg nonzero)), rfl, rfl, rfl, rfl⟩

theorem pop_decode (o : MemOperand) (long : Bool) (sp : Reg) (next : Word) :
    ∃ w, (∀ n, decodeLookup (o.pop long sp) next n = some w) ∧ w.exec = .stack ∧
      w.stkMode = (if long then .popLDst else .popDst) ∧ w.dst = o.dst ∧ w.dstNib = .nib3 := by
  cases o with
  | ir s =>
    cases long <;> exact ⟨_, fun n => Instruction.decode_ctrl next rfl, rfl, rfl, rfl, rfl⟩
  | da =>
    cases long <;> exact ⟨_, fun n => (Instruction.decode_fork3 next rfl).trans
      (congrArg some (if_pos rfl)), rfl, rfl, rfl, rfl⟩
  | x s nonzero =>
    cases long <;> exact ⟨_, fun n => (Instruction.decode_fork3 next rfl).trans
      (congrArg some (if_neg nonzero)), rfl, rfl, rfl, rfl⟩

/-- The width of one or two words. -/
def width (long : Bool) : Width := if long then .long else .word

/-- The control word of a load of register nibble 3 from the operand. -/
structure Loads (o : MemOperand) (long : Bool) (w : CtrlWord) : Prop where
  exec : w.exec = .unified
  op : w.aluOp = .ld
  src : w.src2 = o.src
  nib : o.indexed = false ∨ w.src2Nib = .nib2
  dst : w.dst = .reg
  dstNib : w.dstNib = .nib3
  wide : w.width = width long

/-- The control word of a store of register nibble 3 to the operand. -/
structure Stores (o : MemOperand) (long : Bool) (w : CtrlWord) : Prop where
  exec : w.exec = .unified
  src : w.src2 = .reg
  srcNib : w.src2Nib = .nib3
  dst : w.dst = o.dst
  nib : o.indexed = false ∨ w.dstNib = .nib2
  wide : w.width = width long

theorem load_decode (o : MemOperand) (long : Bool) (t : Reg) (next : Word) (loadable : o ≠ .ir 0) :
    ∃ w, (∀ n, decodeLookup (o.load long t) next n = some w) ∧ o.Loads long w := by
  cases o with
  | ir s =>
    have nonzero : s ≠ 0 := fun zero => loadable (congrArg _ zero)
    cases long <;> exact ⟨_, fun n => (Instruction.decode_fork2 next rfl).trans
      (congrArg some (if_neg nonzero)), rfl, rfl, rfl, .inr rfl, rfl, rfl, rfl⟩
  | da =>
    cases long <;> exact ⟨_, fun n => (Instruction.decode_fork2 next rfl).trans
      (congrArg some (if_pos rfl)), rfl, rfl, rfl, .inl rfl, rfl, rfl, rfl⟩
  | x s nonzero =>
    cases long <;> exact ⟨_, fun n => (Instruction.decode_fork2 next rfl).trans
      (congrArg some (if_neg nonzero)), rfl, rfl, rfl, .inr rfl, rfl, rfl, rfl⟩

theorem store_decode (o : MemOperand) (long : Bool) (t : Reg) (next : Word) :
    ∃ w, (∀ n, decodeLookup (o.store long t) next n = some w) ∧ o.Stores long w := by
  cases o with
  | ir s =>
    cases long <;> exact ⟨_, fun n => Instruction.decode_ctrl next rfl, rfl, rfl, rfl, rfl,
      .inr rfl, rfl⟩
  | da =>
    cases long <;> exact ⟨_, fun n => (Instruction.decode_fork2 next rfl).trans
      (congrArg some (if_pos rfl)), rfl, rfl, rfl, rfl, .inl rfl, rfl⟩
  | x s nonzero =>
    cases long <;> exact ⟨_, fun n => (Instruction.decode_fork2 next rfl).trans
      (congrArg some (if_neg nonzero)), rfl, rfl, rfl, rfl, .inr rfl, rfl⟩

end MemOperand

theorem pushReg_decode (long : Bool) (sp t : Reg) (next : Word) :
    ∃ w, (∀ n, decodeLookup (pushReg long sp t) next n = some w) ∧ w.exec = .stack ∧
      w.stkMode = (if long then .pushL else .push) := by
  cases long <;> exact ⟨_, fun n => Instruction.decode_ctrl next rfl, rfl, rfl⟩

theorem popReg_decode (long : Bool) (sp t : Reg) (next : Word) :
    ∃ w, (∀ n, decodeLookup (popReg long sp t) next n = some w) ∧ w.exec = .stack ∧
      w.stkMode = (if long then .popL else .pop) := by
  cases long <;> exact ⟨_, fun n => Instruction.decode_ctrl next rfl, rfl, rfl⟩

/-! ## Addresses in the control words -/

namespace MemOperand

variable {o : MemOperand} {w : CtrlWord} {c : Cpu}

/-- The source address, with the operand's register in the nibble that the control word names. -/
theorem usrcAddr_eq (src : w.src2 = o.src)
    (register : o.indexed = false ∨ c.unib w.src2Nib = o.field) :
    c.usrcAddr w = o.address c c.opcode := by
  unfold Cpu.usrcAddr
  rw [src]
  cases o with
  | da => rfl
  | ir s | x s =>
    have number := register.resolve_left (by simp [indexed])
    dsimp only [MemOperand.src]
    rw [number]
    rfl

theorem udstAddr_eq (dst : w.dst = o.dst)
    (register : o.indexed = false ∨ c.unib w.dstNib = o.field) :
    c.udstAddr w = o.address c c.opcode := by
  unfold Cpu.udstAddr
  rw [dst]
  cases o with
  | da => rfl
  | ir s | x s =>
    have number := register.resolve_left (by simp [indexed])
    dsimp only [MemOperand.dst]
    rw [number]
    rfl

end MemOperand

/-! ## The stack forms with a memory operand -/

theorem Cpu.reserve_sysmode (c : Cpu) (r : Reg) (n : Long) :
    (c.reserve r n).sysmode = c.sysmode := by
  unfold reserve addrToReg
  split_ifs <;> rfl

theorem Cpu.release_sysmode (c : Cpu) (r : Reg) (n : Long) :
    (c.release r n).sysmode = c.sysmode := by
  unfold release addrToReg
  split_ifs <;> rfl

theorem Cpu.release_opcode (c : Cpu) (r : Reg) (n : Long) : (c.release r n).opcode = c.opcode := by
  unfold release addrToReg
  split_ifs <;> rfl

theorem notNil {c : Cpu} {r : Reg} : ∀ q ∈ c.addressRegs r, q ∉ ([] : List Reg) :=
  fun _ _ => List.not_mem_nil

theorem execute_stack {w : CtrlWord} (exec : w.exec = .stack) : execute w = execStack w := by
  unfold execute
  rw [exec]

theorem readWords_cpu (long : Bool) (source : Long) (m : Machine) :
    m.cpu.SameButFault (readWords long source m).2.cpu := by
  cases long with
  | false => exact memR16_cpu source m
  | true => exact (memR16_cpu source m).trans (memR16_cpu _ _)

theorem writeWords_cpu (dest : Long) (words : List Word) (m : Machine) :
    m.cpu.SameButFault (writeWords dest words m).2.cpu := by
  induction words generalizing dest m with
  | nil => exact .refl m.cpu
  | cons v rest inductionHypothesis =>
    exact (memW16_cpu dest m v).trans (inductionHypothesis _ (memW16 dest v m).2)

section Runs

variable {w : CtrlWord} {f : Machine} {sp data : Reg} {long : Bool}
  (pointer : nib2 (f.cpu.opcode 0) = sp) (field : nib3 (f.cpu.opcode 0) = data)

include pointer field

theorem execStack_pushMem (mode : w.stkMode = if long then .pushLSrc else .pushSrc) {source : Long}
    (operand : (if long ∧ w.src2 = .ir then f.cpu.addrFromReg (Cpu.pairReg data)
      else f.cpu.usrcAddr w) = source) : (execStack w f).2 =
      let v := readWords long source f
      (writeWords (f.cpu.reserveAddr sp (transferBytes long)) v.1
        { v.2 with cpu := v.2.cpu.reserve sp (transferBytes long) }).2 := by
  subst pointer field operand
  unfold execStack
  rw [mode]
  cases long with
  | false => rfl
  | true =>
    by_cases indirect : w.src2 = .ir
    · simp only [indirect]
      rfl
    · simp only [indirect]
      rfl

theorem execStack_popMem (mode : w.stkMode = if long then .popLDst else .popDst) {dest : Long}
    (operand : (if long ∧ w.dst = .ir then
        (f.cpu.release sp (transferBytes long)).addrFromReg (Cpu.pairReg data)
      else (f.cpu.release sp (transferBytes long)).udstAddr w) = dest) : (execStack w f).2 =
      let v := readWords long (f.cpu.addrFromReg sp)
        { f with cpu := f.cpu.release sp (transferBytes long) }
      (writeWords dest v.1 v.2).2 := by
  subst pointer field operand
  unfold execStack
  rw [mode]
  cases long with
  | false => rfl
  | true =>
    by_cases indirect : w.dst = .ir
    · simp only [indirect]
      rfl
    · simp only [indirect]
      rfl

end Runs

/-- The machine behind the fetch of an instruction with these fields. -/
theorem MemOperand.stackAddress_eq (o : MemOperand) (long : Bool) {c d : Cpu} (agrees : c.Agrees [] d)
    (operands : Fin 6 → Word) {others : Fin 6 → Word} (first : others 1 = operands 1)
    (second : others 2 = operands 2) {p : Prop} [Decidable p] (indirect : p ↔ ∃ s, o = .ir s) :
    (if long ∧ p then d.addrFromReg (Cpu.pairReg o.field) else o.address d others) =
      o.stackAddress long c operands := by
  have address := o.address_agrees agrees (fun _ _ => List.not_mem_nil) first second
  cases o with
  | ir s =>
    have holds : p := indirect.mpr ⟨s, rfl⟩
    cases long with
    | false => exact (if_neg (by simp)).trans address
    | true => exact (if_pos ⟨rfl, holds⟩).trans (agrees.addrFromReg notNil)
  | da | x =>
    have fails : ¬p := fun holds => by
      obtain ⟨s, same⟩ := indirect.mp holds
      cases same
    cases long <;> exact (if_neg fun both => fails both.2).trans address

theorem MemOperand.src_ir (o : MemOperand) : o.src = .ir ↔ ∃ s, o = .ir s := by
  cases o <;> simp [src]

theorem MemOperand.dst_ir (o : MemOperand) : o.dst = .ir ↔ ∃ s, o = .ir s := by
  cases o <;> simp [dst]

/-- PUSH copies the operand to the stack. -/
theorem push_effect (m : Machine) (o : MemOperand) (long : Bool) (sp : Reg) (operands : Fin 6 → Word) :
    let x := m.perform (codeWords (o.push long sp) operands)
    SameMemory (copyWords long (o.stackAddress long m.cpu operands)
        (m.cpu.reserveAddr sp (transferBytes long)) m).2 x ∧
      (m.cpu.reserve sp (transferBytes long)).Agrees [] x.cpu := by
  let words := codeWords (o.push long sp) operands
  let f : Machine := { m with cpu := m.cpu.fetchedWith words }
  obtain ⟨w, decoded, exec, mode, src, nib⟩ := o.push_decode long sp (words 1)
  have executed : m.perform words = (execStack w f).2 := by
    rw [← execute_stack exec]
    exact m.perform_decoded decoded
  have pointer : nib2 (f.cpu.opcode 0) = sp := Instruction.nib2_eq ..
  have field : nib3 (f.cpu.opcode 0) = o.field := Instruction.nib3_eq ..
  have agrees : m.cpu.Agrees [] f.cpu := (Cpu.Agrees.refl [] m.cpu).fetchedWith words
  have start : SameMemory m f := ⟨rfl, rfl, rfl⟩
  have operand : (if long ∧ w.src2 = .ir then f.cpu.addrFromReg (Cpu.pairReg o.field)
      else f.cpu.usrcAddr w) = o.stackAddress long m.cpu operands := by
    have register : f.cpu.unib w.src2Nib = o.field := by rw [nib]; exact field
    rw [MemOperand.usrcAddr_eq src (.inr register), src]
    exact o.stackAddress_eq long agrees operands rfl rfl o.src_ir
  let source := o.stackAddress long m.cpu operands
  let n := transferBytes long
  let v := readWords long source f
  have target : f.cpu.reserveAddr sp n = m.cpu.reserveAddr sp n := agrees.reserveAddr notNil n
  obtain ⟨value, after⟩ := start.readWords long source
  have copied := (after.withCpu (v.2.cpu.reserve_sysmode sp n)).writeWords
    (m.cpu.reserveAddr sp n) v.1
  have run := execStack_pushMem pointer field mode operand
  dsimp only at run ⊢
  rw [executed, run, target]
  constructor
  · rw [show v.1 = (readWords long source m).1 from value] at copied
    rw [value]
    exact copied
  · have moved : (m.cpu.reserve sp n).Agrees [] (v.2.cpu.reserve sp n) :=
      (agrees.fault (readWords_cpu long source f)).reserve notNil n
    exact moved.fault (writeWords_cpu _ _ _)

/-- POP copies the stack to the operand, whose address is formed behind the move of the pointer. -/
theorem pop_effect (m : Machine) (o : MemOperand) (long : Bool) (sp : Reg) (operands : Fin 6 → Word) :
    let x := m.perform (codeWords (o.pop long sp) operands)
    let moved := m.cpu.release sp (transferBytes long)
    SameMemory (copyWords long (m.cpu.addrFromReg sp) (o.stackAddress long moved operands) m).2 x ∧
      moved.Agrees [] x.cpu := by
  let words := codeWords (o.pop long sp) operands
  let f : Machine := { m with cpu := m.cpu.fetchedWith words }
  let n := transferBytes long
  obtain ⟨w, decoded, exec, mode, dst, nib⟩ := o.pop_decode long sp (words 1)
  have executed : m.perform words = (execStack w f).2 := by
    rw [← execute_stack exec]
    exact m.perform_decoded decoded
  have pointer : nib2 (f.cpu.opcode 0) = sp := Instruction.nib2_eq ..
  have field : nib3 (f.cpu.opcode 0) = o.field := Instruction.nib3_eq ..
  have agrees : m.cpu.Agrees [] f.cpu := (Cpu.Agrees.refl [] m.cpu).fetchedWith words
  have moved : (m.cpu.release sp n).Agrees [] (f.cpu.release sp n) := agrees.release notNil n
  have operand : (if long ∧ w.dst = .ir then
      (f.cpu.release sp n).addrFromReg (Cpu.pairReg o.field)
      else (f.cpu.release sp n).udstAddr w) =
        o.stackAddress long (m.cpu.release sp n) operands := by
    have register : (f.cpu.release sp n).unib w.dstNib = o.field := by
      rw [nib, ← field, Cpu.unib, Cpu.release_opcode]
    rw [MemOperand.udstAddr_eq dst (.inr register), dst, Cpu.release_opcode]
    exact o.stackAddress_eq long moved operands rfl rfl o.dst_ir
  let start : Machine := { f with cpu := f.cpu.release sp n }
  have same : SameMemory m start := ⟨rfl, rfl, f.cpu.release_sysmode sp n⟩
  have source : f.cpu.addrFromReg sp = m.cpu.addrFromReg sp := agrees.addrFromReg notNil
  let v := readWords long (m.cpu.addrFromReg sp) start
  obtain ⟨value, after⟩ := same.readWords long (m.cpu.addrFromReg sp)
  have copied := after.writeWords (o.stackAddress long (m.cpu.release sp n) operands) v.1
  have run := execStack_popMem pointer field mode operand
  dsimp only at run ⊢
  rw [executed, run, source]
  constructor
  · rw [show v.1 = (readWords long (m.cpu.addrFromReg sp) m).1 from value] at copied
    rw [show (readWords long (m.cpu.addrFromReg sp) start).1 = _ from value]
    exact copied
  · exact (moved.fault (readWords_cpu long _ start)).fault (writeWords_cpu _ _ _)

/-! ## The register forms -/

/-- Load registers with words, first to first. -/
def Cpu.putWords (c : Cpu) : List Reg → List Word → Cpu
  | r :: rs, v :: vs => (c.ww r v).putWords rs vs
  | _, _ => c

theorem Cpu.Agrees.putWords {T : List Reg} {c d : Cpu} (agrees : c.Agrees T d) {rs : List Reg}
    (within : ∀ r ∈ rs, r ∈ T) (vs : List Word) : c.Agrees T (d.putWords rs vs) := by
  induction rs generalizing d vs with
  | nil => exact agrees
  | cons r rest inductionHypothesis =>
    cases vs with
    | nil => exact agrees
    | cons v vs =>
      exact inductionHypothesis (agrees.ww (within r List.mem_cons_self) v)
        (fun q member => within q (List.mem_cons_of_mem _ member)) vs

theorem Cpu.putWords_sysmode (c : Cpu) (rs : List Reg) (vs : List Word) :
    (c.putWords rs vs).sysmode = c.sysmode := by
  induction rs generalizing c vs with
  | nil => rfl
  | cons r rest inductionHypothesis =>
    cases vs with
    | nil => rfl
    | cons v vs => exact inductionHypothesis (c.ww r v) vs

/-- The words that were read are in the registers. -/
theorem Cpu.putWords_rw (c : Cpu) (long : Bool) (t : Reg) (source : Long) (m : Machine) :
    (transferRegs long t).map (c.putWords (transferRegs long t) (readWords long source m).1).rw =
      (readWords long source m).1 := by
  cases long with
  | false => exact congrArg (fun v => [v]) (Function.update_self ..)
  | true =>
    have distinct : pairReg t ≠ pairReg t + 1 := by simp
    exact congrArg₂ (fun hi lo => [hi, lo])
      ((Function.update_of_ne distinct _ _).trans (Function.update_self ..)) (Function.update_self ..)

/-- The two words of a long read. -/
theorem long_words (hi lo : Word) :
    ((hi.setWidth 64 <<< 16 ||| lo.setWidth 64 : Quad)).setWidth 32 = hi ++ lo := by
  apply BitVec.eq_of_getLsbD_eq
  intro i bound
  rw [append_bit, BitVec.getLsbD_setWidth, BitVec.getLsbD_or, BitVec.getLsbD_shiftLeft,
    BitVec.getLsbD_setWidth, BitVec.getLsbD_setWidth]
  have wide : i < 64 := by omega
  by_cases low : i < 16
  · simp [bound, wide, low]
  · have beyond : lo.getLsbD i = false := BitVec.getLsbD_of_ge lo i (by omega)
    have inside : i - 16 < 64 := by omega
    simp [bound, wide, low, beyond, inside]

theorem word_quad (v : Word) : (v.setWidth 64).setWidth 16 = v := by
  rw [BitVec.setWidth_setWidth_of_le _ (by decide), BitVec.setWidth_eq]

theorem quad_words (hi lo : Word) : ((((hi ++ lo : Long).setWidth 64) >>> 16).setWidth 16 = hi) ∧
    ((hi ++ lo : Long).setWidth 64).setWidth 16 = lo := by
  constructor
  · apply BitVec.eq_of_getLsbD_eq
    intro i bound
    rw [BitVec.getLsbD_setWidth, BitVec.getLsbD_ushiftRight, BitVec.getLsbD_setWidth, append_bit]
    have inside : 16 + i < 64 := by omega
    simp [bound, inside]
  · rw [BitVec.setWidth_setWidth_of_le _ (by decide), low_append]

/-- A load computes nothing and touches no flag. -/
theorem Cpu.unifiedCompute_load (c : Cpu) {o : MemOperand} {long : Bool} {w : CtrlWord}
    (loads : o.Loads long w) (b : Quad) :
    c.unifiedCompute w b = c.writeReg (nib3 (c.opcode 0)) b (MemOperand.width long) := by
  have flags : c.applyFlags ⟨b, 0, 0⟩ = c := by
    have all : ~~~(0 : Word) = BitVec.allOnes 16 := by decide
    have whole : c.fcw &&& ~~~(0 : Word) ||| ((0 : Word) &&& 0) = c.fcw := by
      rw [all, BitVec.and_allOnes, BitVec.and_self]
      exact BitVec.or_zero
    show { c with fcw := _ } = c
    rw [whole]
  unfold unifiedCompute
  rw [loads.op, loads.dst, loads.dstNib, loads.wide, aluExec]
  dsimp only
  rw [flags]
  rfl

section Runs

variable {w : CtrlWord} {f : Machine} {sp data : Reg} {long : Bool}
  (field : nib3 (f.cpu.opcode 0) = data)

include field

theorem execStack_pushReg (pointer : nib2 (f.cpu.opcode 0) = sp)
    (mode : w.stkMode = if long then .pushL else .push) : (execStack w f).2 =
      let moved : Machine := { f with cpu := f.cpu.reserve sp (transferBytes long) }
      (writeWords (f.cpu.reserveAddr sp (transferBytes long))
        ((transferRegs long data).map moved.cpu.rw) moved).2 := by
  subst pointer field
  unfold execStack
  rw [mode]
  cases long <;> rfl

theorem execStack_popReg (pointer : nib2 (f.cpu.opcode 0) = sp)
    (mode : w.stkMode = if long then .popL else .pop) : (execStack w f).2 =
      let v := readWords long (f.cpu.addrFromReg sp)
        { f with cpu := f.cpu.release sp (transferBytes long) }
      { v.2 with cpu := v.2.cpu.putWords (transferRegs long data) v.1 } := by
  subst pointer field
  unfold execStack
  rw [mode]
  cases long <;> rfl

theorem execUnified_loadWords {o : MemOperand} (loads : o.Loads long w) : (execUnified w f).2 =
    let v := readWords long (f.cpu.usrcAddr w) f
    { v.2 with cpu := v.2.cpu.putWords (transferRegs long data) v.1 } := by
  have isMem : w.src2.isMem = true := by
    rw [loads.src]
    cases o <;> rfl
  have toRegister : ¬w.dst.isMem = true := by
    rw [loads.dst]
    exact Bool.false_ne_true
  have notFlags : ¬w.dst = .flagsOnly := by
    rw [loads.dst]
    decide
  have run : (execUnified w f).2 = let b := memReadW (f.cpu.usrcAddr w) w.width f
      { b.2 with cpu := b.2.cpu.unifiedCompute w b.1 } := by
    unfold execUnified
    rw [StateM.bind_apply]
    dsimp only [getCpu]
    rw [if_pos isMem, StateM.bind_apply, if_neg toRegister, if_neg notFlags]
    rfl
  subst field
  rw [run]
  dsimp only
  rw [Cpu.unifiedCompute_load _ loads, loads.wide]
  let source := f.cpu.usrcAddr w
  cases long with
  | false =>
    let v := memR16 source f
    show { v.2 with cpu := v.2.cpu.ww (nib3 (v.2.cpu.opcode 0)) ((v.1.setWidth 64).setWidth 16) } = _
    rw [word_quad]
    rfl
  | true =>
    let hi := memR16 source f
    let lo := memR16 (addrAdd source 2) hi.2
    let both : Quad := hi.1.setWidth 64 <<< 16 ||| lo.1.setWidth 64
    have value : both.setWidth 32 = hi.1 ++ lo.1 := long_words hi.1 lo.1
    show { lo.2 with cpu := lo.2.cpu.wl (nib3 (lo.2.cpu.opcode 0)) (both.setWidth 32) } = _
    rw [value, Cpu.wl, high_append, low_append]
    rfl

theorem execUnified_storeWords {o : MemOperand} (stores : o.Stores long w) : (execUnified w f).2 =
    (writeWords (f.cpu.udstAddr w) ((transferRegs long data).map f.cpu.rw) f).2 := by
  have fromRegister : ¬w.src2.isMem = true := by
    rw [stores.src]
    exact Bool.false_ne_true
  have isMem : w.dst.isMem = true := by
    rw [stores.dst]
    cases o <;> rfl
  have run : (execUnified w f).2 =
      (memWriteW (f.cpu.udstAddr w) (f.cpu.uregRead w.src2Nib w.width) w.width f).2 := by
    unfold execUnified
    rw [StateM.bind_apply]
    dsimp only [getCpu]
    rw [if_neg fromRegister, if_pos isMem, stores.src]
    rfl
  subst field
  rw [run, stores.srcNib, stores.wide]
  let dest := f.cpu.udstAddr w
  let data := nib3 (f.cpu.opcode 0)
  cases long with
  | false =>
    show (memW16 dest (((f.cpu.rw data).setWidth 64).setWidth 16) f).2 = _
    rw [word_quad]
    rfl
  | true =>
    let hi := f.cpu.rw (Cpu.pairReg data)
    let lo := f.cpu.rw (Cpu.pairReg data + 1)
    show (memW16 (addrAdd dest 2) (((hi ++ lo : Long).setWidth 64).setWidth 16)
      (memW16 dest ((((hi ++ lo : Long).setWidth 64) >>> 16).setWidth 16) f).2).2 = _
    rw [(quad_words hi lo).1, (quad_words hi lo).2]
    rfl

end Runs

theorem execute_unified {w : CtrlWord} (exec : w.exec = .unified) : execute w = execUnified w := by
  unfold execute
  rw [exec]

/-- LD leaves the words of the operand in the register. -/
theorem load_effect (m : Machine) {o : MemOperand} (long : Bool) (t : Reg) (loadable : o ≠ .ir 0)
    (operands : Fin 6 → Word) :
    let x := m.perform (codeWords (o.load long t) operands)
    let v := readWords long (o.address m.cpu operands) m
    SameMemory v.2 x ∧ m.cpu.Agrees (transferRegs long t) x.cpu ∧
      (transferRegs long t).map x.cpu.rw = v.1 := by
  let words := codeWords (o.load long t) operands
  let f : Machine := { m with cpu := m.cpu.fetchedWith words }
  obtain ⟨w, decoded, loads⟩ := o.load_decode long t (words 1) loadable
  have executed : m.perform words = (execUnified w f).2 := by
    rw [← execute_unified loads.exec]
    exact m.perform_decoded decoded
  have field : nib3 (f.cpu.opcode 0) = t := Instruction.nib3_eq ..
  have number : nib2 (f.cpu.opcode 0) = o.field := Instruction.nib2_eq ..
  have agrees : m.cpu.Agrees [] f.cpu := (Cpu.Agrees.refl [] m.cpu).fetchedWith words
  have register : o.indexed = false ∨ f.cpu.unib w.src2Nib = o.field :=
    loads.nib.imp_right fun nib => by rw [nib]; exact number
  have source : f.cpu.usrcAddr w = o.address m.cpu operands := by
    rw [MemOperand.usrcAddr_eq loads.src register]
    exact o.address_agrees agrees (fun _ _ => List.not_mem_nil) rfl rfl
  have start : SameMemory m f := ⟨rfl, rfl, rfl⟩
  obtain ⟨value, after⟩ := start.readWords long (o.address m.cpu operands)
  have run := execUnified_loadWords field loads
  rw [source] at run
  let v := readWords long (o.address m.cpu operands) f
  have within : m.cpu.Agrees (transferRegs long t) v.2.cpu :=
    ((Cpu.Agrees.refl _ m.cpu).fetchedWith words).fault (readWords_cpu long _ f)
  dsimp only at run ⊢
  rw [executed, run]
  refine ⟨after.withCpu (v.2.cpu.putWords_sysmode _ _), within.putWords (fun _ member => member) v.1, ?_⟩
  rw [← value]
  exact v.2.cpu.putWords_rw long t _ f

/-- LD writes the register to the operand. -/
theorem store_effect (m : Machine) (o : MemOperand) (long : Bool) (t : Reg)
    (operands : Fin 6 → Word) :
    let x := m.perform (codeWords (o.store long t) operands)
    SameMemory (writeWords (o.address m.cpu operands) ((transferRegs long t).map m.cpu.rw) m).2 x ∧
      m.cpu.Agrees [] x.cpu := by
  let words := codeWords (o.store long t) operands
  let f : Machine := { m with cpu := m.cpu.fetchedWith words }
  obtain ⟨w, decoded, stores⟩ := o.store_decode long t (words 1)
  have executed : m.perform words = (execUnified w f).2 := by
    rw [← execute_unified stores.exec]
    exact m.perform_decoded decoded
  have field : nib3 (f.cpu.opcode 0) = t := Instruction.nib3_eq ..
  have number : nib2 (f.cpu.opcode 0) = o.field := Instruction.nib2_eq ..
  have agrees : m.cpu.Agrees [] f.cpu := (Cpu.Agrees.refl [] m.cpu).fetchedWith words
  have register : o.indexed = false ∨ f.cpu.unib w.dstNib = o.field :=
    stores.nib.imp_right fun nib => by rw [nib]; exact number
  have dest : f.cpu.udstAddr w = o.address m.cpu operands := by
    rw [MemOperand.udstAddr_eq stores.dst register]
    exact o.address_agrees agrees (fun _ _ => List.not_mem_nil) rfl rfl
  have start : SameMemory m f := ⟨rfl, rfl, rfl⟩
  have run := execUnified_storeWords field stores
  dsimp only
  rw [executed, run, dest]
  exact ⟨start.writeWords _ _, agrees.fault (writeWords_cpu _ _ f)⟩

/-- PUSH of a register. -/
theorem pushReg_effect (m : Machine) (long : Bool) (sp t : Reg) (operands : Fin 6 → Word) :
    let x := m.perform (codeWords (pushReg long sp t) operands)
    let moved := m.cpu.reserve sp (transferBytes long)
    SameMemory (writeWords (m.cpu.reserveAddr sp (transferBytes long))
        ((transferRegs long t).map moved.rw) m).2 x ∧ moved.Agrees [] x.cpu := by
  let words := codeWords (pushReg long sp t) operands
  let f : Machine := { m with cpu := m.cpu.fetchedWith words }
  let n := transferBytes long
  obtain ⟨w, decoded, exec, mode⟩ := pushReg_decode long sp t (words 1)
  have executed : m.perform words = (execStack w f).2 := by
    rw [← execute_stack exec]
    exact m.perform_decoded decoded
  have pointer : nib2 (f.cpu.opcode 0) = sp := Instruction.nib2_eq ..
  have field : nib3 (f.cpu.opcode 0) = t := Instruction.nib3_eq ..
  have agrees : m.cpu.Agrees [] f.cpu := (Cpu.Agrees.refl [] m.cpu).fetchedWith words
  have moved : (m.cpu.reserve sp n).Agrees [] (f.cpu.reserve sp n) := agrees.reserve notNil n
  have target : f.cpu.reserveAddr sp n = m.cpu.reserveAddr sp n := agrees.reserveAddr notNil n
  have values : (transferRegs long t).map (f.cpu.reserve sp n).rw =
      (transferRegs long t).map (m.cpu.reserve sp n).rw :=
    List.map_congr_left fun r _ => moved.registers r List.not_mem_nil
  have start : SameMemory m f := ⟨rfl, rfl, rfl⟩
  have run := execStack_pushReg field pointer mode
  dsimp only at run ⊢
  rw [executed, run, target, values]
  exact ⟨(start.withCpu (f.cpu.reserve_sysmode sp n)).writeWords _ _,
    moved.fault (writeWords_cpu _ _ _)⟩

/-- POP of a register. -/
theorem popReg_effect (m : Machine) (long : Bool) (sp t : Reg) (operands : Fin 6 → Word) :
    let x := m.perform (codeWords (popReg long sp t) operands)
    let v := readWords long (m.cpu.addrFromReg sp) m
    SameMemory v.2 x ∧
      (m.cpu.release sp (transferBytes long)).Agrees (transferRegs long t) x.cpu ∧
      (transferRegs long t).map x.cpu.rw = v.1 := by
  let words := codeWords (popReg long sp t) operands
  let f : Machine := { m with cpu := m.cpu.fetchedWith words }
  let n := transferBytes long
  obtain ⟨w, decoded, exec, mode⟩ := popReg_decode long sp t (words 1)
  have executed : m.perform words = (execStack w f).2 := by
    rw [← execute_stack exec]
    exact m.perform_decoded decoded
  have pointer : nib2 (f.cpu.opcode 0) = sp := Instruction.nib2_eq ..
  have field : nib3 (f.cpu.opcode 0) = t := Instruction.nib3_eq ..
  have agrees : m.cpu.Agrees [] f.cpu := (Cpu.Agrees.refl [] m.cpu).fetchedWith words
  have source : f.cpu.addrFromReg sp = m.cpu.addrFromReg sp := agrees.addrFromReg notNil
  let moved : Machine := { f with cpu := f.cpu.release sp n }
  have start : SameMemory m moved := ⟨rfl, rfl, f.cpu.release_sysmode sp n⟩
  obtain ⟨value, after⟩ := start.readWords long (m.cpu.addrFromReg sp)
  let v := readWords long (m.cpu.addrFromReg sp) moved
  have within : (m.cpu.release sp n).Agrees (transferRegs long t) v.2.cpu :=
    (agrees.release notNil n).weaken.fault (readWords_cpu long _ moved)
  have run := execStack_popReg field pointer mode
  dsimp only at run ⊢
  rw [executed, run, source]
  refine ⟨after.withCpu (v.2.cpu.putWords_sysmode _ _), within.putWords (fun _ member => member) v.1, ?_⟩
  rw [← value]
  exact v.2.cpu.putWords_rw long t _ moved

end C900
