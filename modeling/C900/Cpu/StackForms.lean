import C900.Cpu.StackOperand

/-!
# One instruction or two

PUSH, PUSHL, POP and POPL of a memory operand against a load and a push, a pop and a store. Both
ways copy the same words; where the addresses of the operand differ, a flat memory with one byte
set tells the copies apart.
-/

namespace C900

/-! ## Machines that do not translate -/

/-- The unit translates no access. -/
def Machine.Untranslated (m : Machine) : Prop := ∀ sn, m.mmu.translates sn = false

theorem Machine.Untranslated.translate {m : Machine} (untranslated : m.Untranslated)
    (kind : Access) (a : Long) :
    m.translate kind a = (identityAddr (segOf a) (offOf a), false, m.mmu) := by
  rw [Machine.translate, mmuTranslate, untranslated]
  rfl

/-- A cycle that the unit permits. -/
theorem Machine.Untranslated.cycle {m x : Machine} (untranslated : m.Untranslated) (kind : Access)
    (wide : Bool) (a : Long) (trace : x.trace = (m.cycle kind wide a).trace)
    (mmu : x.mmu = (m.cycle kind wide a).mmu) : x.Untranslated ∧ m.Adds x false := by
  have translation := untranslated.translate kind a
  have same : x.mmu = m.mmu := mmu.trans (congrArg (fun t => t.2.2) translation)
  refine ⟨fun sn => by rw [same]; exact untranslated sn, [m.memEvent kind wide a], trace, ?_⟩
  have permitted : m.violates kind a = false := congrArg (fun t => t.2.1) translation
  rw [List.any_cons, List.any_nil, Bool.or_false, Machine.memEvent, permitted]
  rfl

/-- A program without privilege is permitted everything. -/
theorem PlainProgram.permitted {rept : Bool} {α : Type} {x : Exec α}
    (program : PlainProgram rept x) {m : Machine} (untranslated : m.Untranslated) :
    (x m).2.Untranslated ∧ m.Adds (x m).2 false := by
  refine program.preserves (fun s t => s.Untranslated → t.Untranslated ∧ s.Adds t false)
    (fun s start => ⟨start, [], rfl, rfl⟩) (fun s t u first second start => ?_)
    (fun β y operation s start => ?_) m untranslated
  · obtain ⟨middle, adds⟩ := first start
    obtain ⟨last, more⟩ := second middle
    exact ⟨last, adds.trans more⟩
  · cases operation with
    | get => exact ⟨start, [], rfl, rfl⟩
    | modify f keeps => exact ⟨start, [], rfl, rfl⟩
    | fetch a => exact start.cycle .fetch true a rfl rfl
    | readWord a => exact start.cycle .read true a rfl rfl
    | readByte a => exact start.cycle .read false a rfl rfl
    | writeWord a v => exact start.cycle .write true a rfl rfl
    | writeByte a v => exact start.cycle .write false a rfl rfl

/-- An instruction of the stack or of the unified engine is permitted everything. -/
theorem Machine.Untranslated.perform {m : Machine} (untranslated : m.Untranslated)
    (words : Fin 6 → Word) {w : CtrlWord}
    (decoded : ∀ n, decodeLookup (words 0) (words 1) n = some w)
    (exec : w.exec = .stack ∨ w.exec = .unified) :
    (m.perform words).Untranslated ∧ m.Adds (m.perform words) false := by
  let loaded : Machine := { m with cpu := m.cpu.fetchedWith words }
  have program : PlainProgram false (execute w) := by
    rcases exec with stack | unified
    · rw [execute_stack stack]
      exact execStack_built w
    · rw [execute_unified unified]
      exact execUnified_built w
  rw [m.perform_decoded decoded]
  exact program.permitted (m := loaded) untranslated

/-! ## Flat memory -/

/-- The byte of a flat memory at an internal address. -/
def flatPlace (a : Long) : Long := busAddress (identityAddr (segOf a) (offOf a))

/-- A machine that does not translate and has memory everywhere. -/
structure Machine.Flat (m : Machine) (ram : Long → Byte) : Prop where
  untranslated : m.Untranslated
  flatMem : m.bus.flatMem = true
  flatMaxseg : m.bus.flatMaxseg = 0xFF
  ram : m.bus.ram = ram

/-- A word at a place. -/
def storedWord (ram : Long → Byte) (a : Long) (v : Word) : Long → Byte :=
  Function.update (Function.update ram a (hiByte v)) (a + 1) (loByte v)

section

variable {m : Machine} {ram : Long → Byte} (flat : m.Flat ram) (a : Long)

include flat

theorem Machine.Flat.isRamWord (p : Long) : m.bus.isRamWord p = true := by
  have low : busAddress p >>> 16 ≤ (0xFF : Byte).setWidth 32 := by
    rw [BitVec.le_def, BitVec.toNat_ushiftRight, busAddress_toNat, Nat.shiftRight_eq_div_pow]
    show p.toNat % 2 ^ 24 / 2 ^ 16 ≤ 255
    omega
  rw [Bus.isRamWord, if_pos flat.flatMem, Bus.flatMapped, flat.flatMaxseg]
  exact decide_eq_true low

theorem Machine.Flat.read :
    (memR16 a m).1 = wordAt ram (flatPlace a) ∧ (memR16 a m).2.Flat ram := by
  have translation := flat.untranslated.translate .read a
  have after := flat.untranslated.cycle (x := (memR16 a m).2) .read true a rfl rfl
  refine ⟨?_, after.1, flat.flatMem, flat.flatMaxseg, flat.ram⟩
  show physRead16 m.bus (m.translate .read a).1 = _
  rw [translation, physRead16_ram (flat.isRamWord _), flat.ram]
  rfl

theorem Machine.Flat.write (v : Word) :
    (memW16 a v m).2.Flat (storedWord ram (flatPlace a) v) := by
  have translation := flat.untranslated.translate .write a
  have after := flat.untranslated.cycle (x := (memW16 a v m).2) .write true a rfl rfl
  have bus : (memW16 a v m).2.bus = m.bus.setRamWord (flatPlace a) v := by
    show (if (m.translate .write a).2.1 then m.bus
      else physWrite16 m.bus (m.translate .write a).1 v) = _
    rw [translation]
    exact physWrite16_ram (flat.isRamWord _) v
  refine ⟨after.1, ?_, ?_, ?_⟩
  · rw [bus]
    exact flat.flatMem
  · rw [bus]
    exact flat.flatMaxseg
  · rw [bus, ← flat.ram]
    rfl

/-- A copy of two words. -/
theorem Machine.Flat.copy (source dest : Long) :
    (copyWords true source dest m).2.Flat
      (storedWord (storedWord ram (flatPlace dest) (wordAt ram (flatPlace source)))
        (flatPlace (addrAdd dest 2)) (wordAt ram (flatPlace (addrAdd source 2)))) := by
  obtain ⟨high, first⟩ := flat.read source
  obtain ⟨low, second⟩ := first.read (addrAdd source 2)
  have stored := (second.write dest (wordAt ram (flatPlace source))).write (addrAdd dest 2)
    (wordAt ram (flatPlace (addrAdd source 2)))
  rw [← high, ← low] at stored
  rw [← high, ← low]
  exact stored

end

/-! ## Where the bytes of a copy land -/

/-- A segment number has seven bits. -/
theorem segOf_toNat_lt (a : Long) : (segOf a).toNat < 128 := by
  have masked : (segOf a).toNat = (a >>> 16).toNat % 2 ^ 7 % 2 ^ 8 := by
    rw [segOf, BitVec.toNat_setWidth, BitVec.toNat_and]
    exact congrArg (· % 2 ^ 8) (Nat.and_two_pow_sub_one_eq_mod _ 7)
  omega

theorem flatPlace_toNat (a : Long) :
    (flatPlace a).toNat = (segOf a).toNat * 65536 + (offOf a).toNat := by
  have segment := segOf_toNat_lt a
  have offset := (offOf a).isLt
  have masked : (segOf a &&& 0x7F).toNat = (segOf a).toNat := by
    rw [BitVec.toNat_and]
    exact (Nat.and_two_pow_sub_one_eq_mod _ 7).trans (Nat.mod_eq_of_lt segment)
  have shifted : ((segOf a &&& 0x7F).setWidth 32 <<< 16).toNat = (segOf a).toNat <<< 16 := by
    rw [BitVec.toNat_shiftLeft, BitVec.toNat_setWidth, masked, Nat.shiftLeft_eq]
    omega
  have low : ((offOf a).setWidth 32).toNat = (offOf a).toNat := by
    rw [BitVec.toNat_setWidth]
    omega
  rw [flatPlace, busAddress_toNat, identityAddr, BitVec.toNat_or, shifted, low,
    ← Nat.shiftLeft_add_eq_or_of_lt offset, Nat.shiftLeft_eq]
  omega

/-- The bytes of the second word lie elsewhere. -/
theorem flatPlace_apart (a : Long) : flatPlace a ≠ flatPlace a + 1 ∧
    flatPlace a ≠ flatPlace (addrAdd a 2) ∧ flatPlace a ≠ flatPlace (addrAdd a 2) + 1 := by
  have first := flatPlace_toNat a
  have second := flatPlace_toNat (addrAdd a 2)
  have next : (offOf (addrAdd a 2)).toNat = ((offOf a).toNat + 2) % 65536 := by
    rw [offOf_addrAdd, BitVec.toNat_add]
    rfl
  have segment := (segOf a).isLt
  have offset := (offOf a).isLt
  rw [segOf_addrAdd, next] at second
  have one : (1 : Long).toNat = 1 := rfl
  refine ⟨fun same => ?_, fun same => ?_, fun same => ?_⟩
  all_goals replace same := congrArg BitVec.toNat same
  · rw [BitVec.toNat_add, one] at same
    omega
  · omega
  · rw [BitVec.toNat_add, one] at same
    omega

/-- The bytes of a word. -/
theorem wordAt_bytes (ram : Long → Byte) (a : Long) :
    hiByte (wordAt ram a) = ram a ∧ loByte (wordAt ram a) = ram (a + 1) := by
  have bit (i : Nat) : (wordAt ram a).getLsbD i =
      if i < 8 then (ram (a + 1)).getLsbD i else (ram a).getLsbD (i - 8) := BitVec.getLsbD_append
  constructor <;> apply BitVec.eq_of_getLsbD_eq <;> intro i bound
  · have above : ¬8 + i < 8 := by omega
    have place : 8 + i - 8 = i := by omega
    rw [hiByte, BitVec.getLsbD_setWidth, BitVec.getLsbD_ushiftRight, bit, if_neg above, place,
      decide_eq_true bound, Bool.true_and]
  · rw [loByte, BitVec.getLsbD_setWidth, bit, if_pos bound, decide_eq_true bound, Bool.true_and]

/-- The first byte of a copy lands at the destination. -/
theorem storedWord_first (ram : Long → Byte) (a : Long) (v w : Word) :
    storedWord (storedWord ram (flatPlace a) v) (flatPlace (addrAdd a 2)) w (flatPlace a) =
      hiByte v := by
  obtain ⟨low, second, last⟩ := flatPlace_apart a
  unfold storedWord
  rw [Function.update_of_ne last, Function.update_of_ne second, Function.update_of_ne low,
    Function.update_self]

/-- Memory with one byte set. -/
def markedAt (mark : Long) : Long → Byte := fun a => if a = mark then 1 else 0

/-- A copy of the mark: it lands at the destination, and every other byte keeps its value or
becomes zero. -/
theorem copy_mark (source dest p : Long) (other : p ≠ flatPlace dest) :
    let ram := markedAt (flatPlace source)
    let copied := storedWord (storedWord ram (flatPlace dest) (wordAt ram (flatPlace source)))
      (flatPlace (addrAdd dest 2)) (wordAt ram (flatPlace (addrAdd source 2)))
    copied p = 1 → p = flatPlace source := by
  intro ram copied set
  obtain ⟨low, second, last⟩ := flatPlace_apart source
  have clear {q : Long} (elsewhere : flatPlace source ≠ q) : ram q ≠ 1 := by
    show (if q = flatPlace source then (1 : Byte) else 0) ≠ 1
    rw [if_neg (Ne.symm elsewhere)]
    decide
  have lowByte := (wordAt_bytes ram (flatPlace source)).2
  obtain ⟨highSecond, lowSecond⟩ := wordAt_bytes ram (flatPlace (addrAdd source 2))
  dsimp only [copied, storedWord] at set
  rw [lowByte, highSecond, lowSecond] at set
  -- the byte is one of the three that hold zero, or none of the copy
  by_cases fourth : p = flatPlace (addrAdd dest 2) + 1
  · rw [fourth, Function.update_self] at set
    exact absurd set (clear last)
  rw [Function.update_of_ne fourth] at set
  by_cases third : p = flatPlace (addrAdd dest 2)
  · rw [third, Function.update_self] at set
    exact absurd set (clear second)
  rw [Function.update_of_ne third] at set
  by_cases behind : p = flatPlace dest + 1
  · rw [behind, Function.update_self] at set
    exact absurd set (clear low)
  rw [Function.update_of_ne behind, Function.update_of_ne other] at set
  by_contra elsewhere
  exact clear (Ne.symm elsewhere) set

/-! ## The two ways -/

/-- The directions of the stack forms. -/
inductive StackForm where
  | push
  | pop

namespace StackForm

/-- The processor whose registers give the operand's address: a pop moves the pointer first. -/
def addressing (form : StackForm) (long : Bool) (sp : Reg) (c : Cpu) : Cpu :=
  match form with
  | .push => c
  | .pop => c.release sp (transferBytes long)

/-- The processor with the pointer moved. -/
def moved (form : StackForm) (long : Bool) (sp : Reg) (c : Cpu) : Cpu :=
  match form with
  | .push => c.reserve sp (transferBytes long)
  | .pop => c.release sp (transferBytes long)

/-- The copy between the operand and the stack. -/
def copy (form : StackForm) (long : Bool) (sp : Reg) (c : Cpu) (operand : Long) : Exec Unit :=
  match form with
  | .push => copyWords long operand (c.reserveAddr sp (transferBytes long))
  | .pop => copyWords long (c.addrFromReg sp) operand

end StackForm

namespace MemOperand

variable (o : MemOperand) (form : StackForm) (long : Bool) (sp t : Reg) (operands rest : Fin 6 → Word)

/-- The stack form with the memory operand. -/
def once (m : Machine) : Machine :=
  match form with
  | .push => m.perform (codeWords (o.push long sp) operands)
  | .pop => m.perform (codeWords (o.pop long sp) operands)

/-- The two instructions that go through a register: a load and a push, or a pop and a store. -/
def twice (m : Machine) : Machine :=
  match form with
  | .push =>
    (m.perform (codeWords (o.load long t) operands)).perform (codeWords (pushReg long sp t) rest)
  | .pop =>
    (m.perform (codeWords (popReg long sp t) rest)).perform (codeWords (o.store long t) operands)

/-- The register has nothing to do with the stack pointer and with the operand. -/
def Unrelated (c : Cpu) : Prop :=
  (∀ q ∈ c.addressRegs sp, q ∉ transferRegs long t) ∧ ∀ q ∈ o.regs c, q ∉ transferRegs long t

/-- There is a load for the operand: with register 0 the code of the indirect form means an
immediate operand. -/
def Loadable : Prop := form = .push → o ≠ .ir 0

end MemOperand

/-- A move of the pointer changes its own registers only. -/
theorem Cpu.reserve_rw (c : Cpu) {sp r : Reg} (n : Long) (other : r ∉ c.addressRegs sp) :
    (c.reserve sp n).rw r = c.rw r := by
  unfold addressRegs at other
  unfold reserve addrToReg
  cases form : c.seg with
  | true =>
    rw [form, if_pos rfl, List.mem_cons, List.mem_singleton, not_or] at other
    rw [if_pos rfl, if_pos rfl]
    exact (Function.update_of_ne other.2 _ _).trans (Function.update_of_ne other.1 _ _)
  | false =>
    rw [form, if_neg Bool.false_ne_true, List.mem_singleton] at other
    exact Function.update_of_ne other _ _

/-- The registers of a pointer depend on the mode. -/
theorem Cpu.addressRegs_mode {c d : Cpu} (mode : d.seg = c.seg) (r : Reg) :
    d.addressRegs r = c.addressRegs r := by
  rw [addressRegs, addressRegs, mode]

theorem MemOperand.regs_mode (o : MemOperand) {c d : Cpu} (mode : d.seg = c.seg) :
    o.regs d = o.regs c := by
  cases o with
  | ir s => exact Cpu.addressRegs_mode mode s
  | da | x => rfl

theorem Cpu.release_seg (c : Cpu) (r : Reg) (n : Long) : (c.release r n).seg = c.seg := by
  unfold release addrToReg
  split_ifs <;> rfl

theorem SameMemory.trans {x y z : Machine} (first : SameMemory x y) (second : SameMemory y z) :
    SameMemory x z :=
  ⟨second.mmu.trans first.mmu, second.bus.trans first.bus, second.mode.trans first.mode⟩

section

variable (m : Machine) (o : MemOperand) (form : StackForm) (long : Bool) (sp t : Reg)
  (operands rest : Fin 6 → Word)

/-- The memory and the pointer behind the stack form. -/
theorem MemOperand.once_effect : SameMemory (form.copy long sp m.cpu
      (o.stackAddress long (form.addressing long sp m.cpu) operands) m).2
      (o.once form long sp operands m) ∧
    (form.moved long sp m.cpu).Agrees [] (o.once form long sp operands m).cpu := by
  cases form with
  | push => exact push_effect m o long sp operands
  | pop => exact pop_effect m o long sp operands

variable (unrelated : o.Unrelated long sp t m.cpu) (loadable : o.Loadable form)

include unrelated loadable

/-- The memory and the pointer behind the two instructions. -/
theorem MemOperand.twice_effect : SameMemory (form.copy long sp m.cpu
      (o.address (form.addressing long sp m.cpu) operands) m).2
      (o.twice form long sp t operands rest m) ∧
    (form.moved long sp m.cpu).Agrees (transferRegs long t)
      (o.twice form long sp t operands rest m).cpu := by
  obtain ⟨pointer, operand⟩ := unrelated
  cases form with
  | push =>
    obtain ⟨read, agrees, value⟩ := load_effect m long t (loadable rfl) operands
    let y := m.perform (codeWords (o.load long t) operands)
    obtain ⟨written, moved⟩ := pushReg_effect y long sp t rest
    have target := agrees.reserveAddr pointer (transferBytes long)
    have kept : (transferRegs long t).map (y.cpu.reserve sp (transferBytes long)).rw =
        (transferRegs long t).map y.cpu.rw := by
      refine List.map_congr_left fun r member => y.cpu.reserve_rw _ fun related => ?_
      rw [Cpu.addressRegs_mode agrees.seg] at related
      exact pointer r related member
    rw [target, kept, value] at written
    exact ⟨(read.writeWords _ _).trans written,
      (agrees.reserve pointer _).trans moved.weaken⟩
  | pop =>
    obtain ⟨read, agrees, value⟩ := popReg_effect m long sp t rest
    let y := m.perform (codeWords (popReg long sp t) rest)
    obtain ⟨written, kept⟩ := store_effect y o long t operands
    have free : ∀ q ∈ o.regs (m.cpu.release sp (transferBytes long)), q ∉ transferRegs long t := by
      rw [o.regs_mode (m.cpu.release_seg sp _)]
      exact operand
    have target : o.address y.cpu operands =
        o.address (m.cpu.release sp (transferBytes long)) operands :=
      o.address_agrees agrees free rfl rfl
    rw [target, value] at written
    exact ⟨(read.writeWords _ _).trans written, agrees.trans kept.weaken⟩

end

/-! ## Where the two ways agree -/

namespace MemOperand

/-- A long form takes its indirect operand from the even register of the pair, which holds
another address than the register of the instruction. -/
def OtherPointer (o : MemOperand) (long : Bool) (c : Cpu) : Prop :=
  long = true ∧ c.seg = false ∧ ∃ s, o = .ir s ∧ c.rw (Cpu.pairReg s) ≠ c.rw s

/-- Where the unit permits every access, the two ways leave the same memory and the same stack
pointer. -/
def SameEffect (o : MemOperand) (form : StackForm) (long : Bool) (sp t : Reg)
    (operands rest : Fin 6 → Word) (m : Machine) : Prop :=
  m.Adds (o.once form long sp operands m) false →
    m.Adds (o.twice form long sp t operands rest m) false →
      (o.once form long sp operands m).bus = (o.twice form long sp t operands rest m).bus ∧
        ∀ r ∈ m.cpu.addressRegs sp, (o.once form long sp operands m).cpu.rw r =
          (o.twice form long sp t operands rest m).cpu.rw r

end MemOperand

/-- In segmented mode both registers of a pair name the same pointer. -/
theorem Cpu.addrFromReg_even {c : Cpu} (segmented : c.seg = true) (s : Reg) :
    c.addrFromReg (pairReg s) = c.addrFromReg s := by
  have again : pairReg (pairReg s) = pairReg s := by
    rw [pairReg, pairReg, BitVec.and_assoc]
    rfl
  rw [c.addrFromReg_pair segmented, c.addrFromReg_pair segmented, again]

theorem MemOperand.stackAddress_same {o : MemOperand} {long : Bool} {c : Cpu}
    (same : ¬o.OtherPointer long c) (operands : Fin 6 → Word) :
    o.stackAddress long c operands = o.address c operands := by
  cases long with
  | false => cases o <;> rfl
  | true =>
    cases o with
    | da | x => rfl
    | ir s =>
      show c.addrFromReg (Cpu.pairReg s) = c.addrFromReg s
      cases mode : c.seg with
      | true => exact Cpu.addrFromReg_even mode s
      | false =>
        have value : c.rw (Cpu.pairReg s) = c.rw s := by
          by_contra other
          exact same ⟨rfl, mode, s, rfl, other⟩
        rw [Cpu.addrFromReg, Cpu.addrFromReg, mode, if_neg Bool.false_ne_true,
          if_neg Bool.false_ne_true, value]

section

variable {o : MemOperand} {form : StackForm} {long : Bool} {sp t : Reg} {operands rest : Fin 6 → Word}

/-- The ways agree where the addresses do. -/
theorem MemOperand.sameEffect {m : Machine} (unrelated : o.Unrelated long sp t m.cpu)
    (loadable : o.Loadable form) (same : ¬o.OtherPointer long (form.addressing long sp m.cpu)) :
    o.SameEffect form long sp t operands rest m := by
  intro _ _
  obtain ⟨first, pointer⟩ := o.once_effect m form long sp operands
  obtain ⟨second, others⟩ := o.twice_effect m form long sp t operands rest unrelated loadable
  rw [MemOperand.stackAddress_same same] at first
  refine ⟨first.bus.trans second.bus.symm, fun r member => ?_⟩
  exact (pointer.registers r List.not_mem_nil).trans
    (others.registers r (unrelated.1 r member)).symm

/-- A machine whose memory holds one mark. -/
def markedMachine (c : Cpu) (mark : Long) : Machine :=
  { (default : Machine) with
    cpu := c
    mmu := { (default : Mmu) with mode := 0 }
    bus := { (default : Bus) with
      flatMem := true, flatMaxseg := 0xFF, ram := markedAt (flatPlace mark) } }

theorem markedMachine_flat (c : Cpu) (mark : Long) :
    (markedMachine c mark).Flat (markedAt (flatPlace mark)) := by
  refine ⟨fun sn => ?_, rfl, rfl, rfl⟩
  have off : (markedMachine c mark).mmu.mode = 0 := rfl
  rw [Mmu.translates, off]
  rfl

/-- The byte at the destination of a copy of the mark. -/
theorem copy_lands (c : Cpu) (source dest : Long) :
    (copyWords true source dest (markedMachine c source)).2.bus.ram (flatPlace dest) = 1 := by
  have copied := ((markedMachine_flat c source).copy source dest).ram
  rw [copied, storedWord_first, (wordAt_bytes _ _).1]
  exact if_pos rfl

/-- Two copies of the mark to different places differ. -/
theorem copies_to_differ (c : Cpu) (source dest other : Long)
    (apart : flatPlace dest ≠ flatPlace other) :
    (copyWords true source dest (markedMachine c source)).2.bus ≠
      (copyWords true source other (markedMachine c source)).2.bus := by
  intro same
  have first := copy_lands c source dest
  have second := copy_lands c source other
  have ends (d : Long) : (copyWords true source d (markedMachine c source)).2.bus.ram = _ :=
    ((markedMachine_flat c source).copy source d).ram
  rw [same, ends other] at first
  rw [← same, ends dest] at second
  exact apart ((copy_mark source other _ apart first).trans
    (copy_mark source dest _ (Ne.symm apart) second).symm)

/-- Copies from the mark and from elsewhere differ at the destination. -/
theorem copies_from_differ (c : Cpu) (source other dest : Long)
    (apart : flatPlace source ≠ flatPlace other) :
    (copyWords true source dest (markedMachine c source)).2.bus ≠
      (copyWords true other dest (markedMachine c source)).2.bus := by
  intro same
  have first := copy_lands c source dest
  rw [same, ((markedMachine_flat c source).copy other dest).ram, storedWord_first,
    (wordAt_bytes _ _).1] at first
  have zero : markedAt (flatPlace source) (flatPlace other) = 0 := if_neg (Ne.symm apart)
  rw [zero] at first
  exact absurd first (by decide)

end

/-- The accesses of the two ways, where the unit does not translate. -/
theorem MemOperand.once_permitted (o : MemOperand) (form : StackForm) (long : Bool) (sp : Reg)
    (operands : Fin 6 → Word) {m : Machine} (untranslated : m.Untranslated) :
    m.Adds (o.once form long sp operands m) false := by
  cases form with
  | push =>
    obtain ⟨w, decoded, exec, -⟩ := o.push_decode long sp (operands 1)
    exact (untranslated.perform (codeWords (o.push long sp) operands) decoded
      (.inl exec)).2
  | pop =>
    obtain ⟨w, decoded, exec, -⟩ := o.pop_decode long sp (operands 1)
    exact (untranslated.perform (codeWords (o.pop long sp) operands) decoded
      (.inl exec)).2

theorem MemOperand.twice_permitted (o : MemOperand) {form : StackForm} (loadable : o.Loadable form)
    (long : Bool) (sp t : Reg) (operands rest : Fin 6 → Word) {m : Machine}
    (untranslated : m.Untranslated) : m.Adds (o.twice form long sp t operands rest m) false := by
  cases form with
  | push =>
    obtain ⟨w, decoded, loads⟩ := o.load_decode long t (operands 1) (loadable rfl)
    obtain ⟨v, decodedPush, exec, -⟩ := pushReg_decode long sp t (rest 1)
    obtain ⟨middle, first⟩ := untranslated.perform (codeWords (o.load long t) operands)
      decoded (.inr loads.exec)
    exact first.trans (middle.perform (codeWords (pushReg long sp t) rest) decodedPush
      (.inl exec)).2
  | pop =>
    obtain ⟨v, decodedPop, exec, -⟩ := popReg_decode long sp t (rest 1)
    obtain ⟨w, decoded, stores⟩ := o.store_decode long t (operands 1)
    obtain ⟨middle, first⟩ := untranslated.perform (codeWords (popReg long sp t) rest)
      decodedPop (.inl exec)
    exact first.trans (middle.perform (codeWords (o.store long t) operands) decoded
      (.inr stores.exec)).2

/-- Addresses of the same segment with different offsets. -/
theorem flatPlace_ne {a b : Long} (segment : segOf a = segOf b) (offset : offOf a ≠ offOf b) :
    flatPlace a ≠ flatPlace b := by
  intro same
  have first := flatPlace_toNat a
  have second := flatPlace_toNat b
  rw [same, second, segment] at first
  exact offset (BitVec.eq_of_toNat_eq (Nat.add_left_cancel first).symm)

/-- A stack form with a memory operand does what the two instructions through a register do, unless
it is a long form of non-segmented mode whose operand is behind an odd register: it then takes the
address from the even register of the pair. -/
theorem stackForms_agree_iff (o : MemOperand) (form : StackForm) (long : Bool) (sp t : Reg)
    (operands rest : Fin 6 → Word) (c : Cpu) (unrelated : o.Unrelated long sp t c)
    (loadable : o.Loadable form) :
    (∀ m : Machine, m.cpu = c → o.SameEffect form long sp t operands rest m) ↔
      ¬o.OtherPointer long (form.addressing long sp c) := by
  constructor
  · rintro same ⟨rfl, mode, s, rfl, other⟩
    let d := form.addressing true sp c
    have apart : flatPlace (d.addrFromReg (Cpu.pairReg s)) ≠ flatPlace (d.addrFromReg s) := by
      obtain ⟨segment, offset⟩ := d.segOf_addrFromReg (by simp [d, mode]) (Cpu.pairReg s)
      obtain ⟨segment', offset'⟩ := d.segOf_addrFromReg (by simp [d, mode]) s
      refine flatPlace_ne (segment.trans segment'.symm) ?_
      rw [offset, offset']
      exact other
    let mark := match form with
      | .push => d.addrFromReg (Cpu.pairReg s)
      | .pop => c.addrFromReg sp
    let m := markedMachine c mark
    have untranslated : m.Untranslated := (markedMachine_flat c mark).untranslated
    obtain ⟨bus, -⟩ := same m rfl
      (MemOperand.once_permitted (.ir s) form true sp operands untranslated)
      (MemOperand.twice_permitted (.ir s) loadable true sp t operands rest untranslated)
    obtain ⟨first, -⟩ := MemOperand.once_effect m (.ir s) form true sp operands
    obtain ⟨second, -⟩ := MemOperand.twice_effect m (.ir s) form true sp t operands rest unrelated
      loadable
    have equal := (first.bus.symm.trans bus).trans second.bus
    cases form with
    | push => exact copies_from_differ c _ _ _ apart equal
    | pop => exact copies_to_differ c _ _ _ apart equal
  · rintro same m rfl
    exact MemOperand.sameEffect unrelated loadable same

/-- Non-segmented system mode with different values in registers 2 and 3. -/
def oddPointer : Cpu :=
  { (default : Cpu) with
    fcw := 0x4000
    R := fun r => if r = 2 then 0x1000 else if r = 3 then 0x2000 else if r = 15 then 0x8000 else 0 }

/-- PUSH @R15,@R3 of one word is LD R4,@R3 and PUSH @R15,R4. -/
theorem stackForms_agree_word : (MemOperand.ir 3).address oddPointer (fun _ => 0) = 0x2000 ∧
    ∀ m : Machine, m.cpu = oddPointer →
      (MemOperand.ir 3).SameEffect .push false 15 4 (fun _ => 0) (fun _ => 0) m :=
  ⟨by decide, (stackForms_agree_iff (.ir 3) .push false 15 4 (fun _ => 0) (fun _ => 0) oddPointer
    ⟨by decide, by decide⟩ fun _ same => absurd (MemOperand.ir.inj same) (by decide)).mpr
      fun other => absurd other.1 (by decide)⟩

/-- PUSHL @R15,@R3 takes the long behind register 2; LDL RR4,@R3 takes the one behind register 3.
The operand is apart from the stack. -/
theorem oddPointer_differs :
    (MemOperand.ir 3).Unrelated true 15 4 oddPointer ∧
      (MemOperand.ir 3).address oddPointer (fun _ => 0) = 0x2000 ∧
      oddPointer.reserveAddr 15 4 = 0x7FFC ∧
      ¬(MemOperand.ir 3).SameEffect .push true 15 4 (fun _ => 0) (fun _ => 0)
        (markedMachine oddPointer 0x1000) := by
  have unrelated : (MemOperand.ir 3).Unrelated true 15 4 oddPointer := ⟨by decide, by decide⟩
  have loadable : (MemOperand.ir 3).Loadable .push :=
    fun _ same => absurd (MemOperand.ir.inj same) (by decide)
  have even : (MemOperand.ir 3).stackAddress true oddPointer (fun _ => 0) = 0x1000 := by decide
  have odd : (MemOperand.ir 3).address oddPointer (fun _ => 0) = 0x2000 := by decide
  have stack : oddPointer.reserveAddr 15 4 = 0x7FFC := by decide
  refine ⟨unrelated, odd, stack, fun same => ?_⟩
  let m := markedMachine oddPointer 0x1000
  have untranslated : m.Untranslated := (markedMachine_flat oddPointer 0x1000).untranslated
  obtain ⟨bus, -⟩ := same (MemOperand.once_permitted _ .push true 15 _ untranslated)
    (MemOperand.twice_permitted _ loadable true 15 4 _ _ untranslated)
  obtain ⟨first, -⟩ := MemOperand.once_effect m (.ir 3) .push true 15 (fun _ => 0)
  obtain ⟨second, -⟩ := MemOperand.twice_effect m (.ir 3) .push true 15 4 (fun _ => 0) (fun _ => 0)
    unrelated loadable
  have equal : (copyWords true ((MemOperand.ir 3).stackAddress true oddPointer fun _ => 0)
      (oddPointer.reserveAddr 15 4) m).2.bus =
        (copyWords true ((MemOperand.ir 3).address oddPointer fun _ => 0)
          (oddPointer.reserveAddr 15 4) m).2.bus :=
    (first.bus.symm.trans bus).trans second.bus
  have apart : flatPlace 0x1000 ≠ flatPlace 0x2000 := by decide
  rw [even, odd, stack] at equal
  exact copies_from_differ oddPointer 0x1000 0x2000 0x7FFC apart equal

end C900
