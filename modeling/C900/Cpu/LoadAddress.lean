import C900.Cpu.Encode

/-!
# LDA and the loads and stores of the same form

`AddressForm.place` says where the operand of an addressing form is: a segment, and an offset that
wraps inside it. The loads and stores of each form access that place, and so do the indirect ones
through the register that LDA has loaded.
-/

namespace C900

/-! ## Places -/

/-- A segment and an offset in it. -/
abbrev Place : Type := Byte × Word

/-- An offset beside a place. -/
def Place.move (p : Place) (n : Word) : Place := (p.1, p.2 + n)

/-- The place of an address. -/
def placeOf (a : Long) : Place := (segOf a, offOf a)

theorem placeOf_addrAdd (a n : Long) : placeOf (addrAdd a n) = (placeOf a).move (n.setWidth 16) := by
  rw [placeOf, segOf_addrAdd, offOf_addrAdd]
  rfl

theorem placeOf_addrSub (a n : Long) :
    placeOf (addrSub a n) = (placeOf a).move (-n.setWidth 16) := by
  rw [placeOf, segOf_addrSub, offOf_addrSub, BitVec.sub_eq_add_neg]
  rfl

/-- A displacement of either sign moves the offset. -/
theorem placeOf_displaced (a : Long) (disp : Word) :
    placeOf (displaced a disp) = (placeOf a).move disp := by
  unfold displaced
  split
  · have same : (disp.signExtend 32).setWidth 16 = disp := by
      apply BitVec.eq_of_getLsbD_eq
      intro i bound
      have inside : i < 32 := by omega
      rw [BitVec.getLsbD_setWidth, BitVec.getLsbD_signExtend]
      simp [bound, inside]
    have low : -((-disp.signExtend 32 : Long).setWidth 16) = disp := by
      rw [BitVec.setWidth_neg_of_le (by decide), BitVec.neg_neg, same]
    rw [placeOf_addrSub, low]
  · rw [placeOf_addrAdd, BitVec.setWidth_setWidth_of_le _ (by decide), BitVec.setWidth_eq]

namespace Cpu

variable (c : Cpu)

/-- The place that a pointer register names. -/
def pointer (r : Reg) : Place :=
  if c.seg then (((c.rw (pairReg r) >>> 8) &&& 0x7F).setWidth 8, c.rw (pairReg r + 1))
  else (segOf c.pc, c.rw r)

/-- The place that the operand words name. -/
def direct (words : Fin 6 → Word) : Place :=
  if c.seg then (((words 1 >>> 8) &&& 0x7F).setWidth 8,
    if words 1 &&& 0x8000 != 0 then words 2 else words 1 &&& 0xFF)
  else (segOf c.pc, words 1)

theorem placeOf_internalAddr (hi lo : Word) :
    placeOf (internalAddr hi lo) = (((hi >>> 8) &&& 0x7F).setWidth 8, lo) := by
  rw [placeOf, internalAddr, segOf_append, offOf_append, Cpu.Target.seven_seven]

theorem placeOf_addrFromReg (r : Reg) : placeOf (c.addrFromReg r) = c.pointer r := by
  cases form : c.seg with
  | true =>
    rw [c.addrFromReg_pair form, placeOf_internalAddr, pointer, if_pos form]
  | false =>
    obtain ⟨segment, offset⟩ := c.segOf_addrFromReg form r
    rw [placeOf, segment, offset, pointer, if_neg (Bool.not_eq_true _ ▸ form)]

theorem placeOf_segAddrOp : placeOf (c.segAddrOp 1) = c.direct c.opcode := by
  cases form : c.seg with
  | true =>
    rw [segAddrOp, if_pos form, direct, if_pos form]
    dsimp only
    split_ifs
    · rw [Cpu.Target.operand_split, placeOf_internalAddr]
      rfl
    · rw [Cpu.Target.operand_split, placeOf_internalAddr]
  | false =>
    obtain ⟨segment, offset⟩ := segOf_pcSegment c (c.opcode 1)
    rw [segAddrOp, if_neg (Bool.not_eq_true _ ▸ form), placeOf, segment, offset, direct,
      if_neg (Bool.not_eq_true _ ▸ form)]

/-- The segment number that a register pair gets from an address. -/
theorem segOf_packed (a : Long) :
    ((((a >>> 8).setWidth 16 &&& (0x7F00 : Word)) >>> 8) &&& 0x7F).setWidth 8 = segOf a := by
  have bits : ∀ i : Fin 16, (0x7F00 : Word).getLsbD i = (decide (8 ≤ i.val) && decide (i.val < 15)) := by
    decide
  have seven : ∀ i : Fin 8, (0x7F : Word).getLsbD i = decide (i.val < 7) := by decide
  rw [segOf_high]
  apply BitVec.eq_of_getLsbD_eq
  intro i bound
  have bit := bits ⟨8 + i, by omega⟩
  have sevenBit := seven ⟨i, bound⟩
  dsimp only at bit sevenBit
  simp only [BitVec.getLsbD_setWidth, BitVec.getLsbD_and, BitVec.getLsbD_ushiftRight, bit, sevenBit]
  have inside : i < 16 := by omega
  have above : 8 + i < 16 := by omega
  have place : 8 + (8 + i) = 16 + i := by omega
  by_cases low : i < 7
  · have stop : 8 + i < 15 := by omega
    simp [bound, inside, above, place, low, stop]
  · simp [low]

/-- An address comes back from a register, or its offset where there is one segment. -/
theorem pointer_addrToReg (r : Reg) (a : Long) (here : c.seg = false → segOf a = segOf c.pc) :
    (c.addrToReg r a).pointer r = placeOf a := by
  have distinct : pairReg r ≠ pairReg r + 1 := by simp
  cases form : c.seg with
  | true =>
    rw [addrToReg, if_pos form, pointer]
    refine (if_pos form).trans (Prod.ext ?_ ?_)
    · refine Eq.trans ?_ (segOf_packed a)
      show ((Function.update (Function.update c.R _ _) _ _ (pairReg r) >>> 8) &&& 0x7F).setWidth 8 = _
      rw [Function.update_of_ne distinct, Function.update_self]
    · exact Function.update_self ..
  | false =>
    have nonseg : ¬c.seg = true := by simp [form]
    rw [addrToReg, if_neg nonseg, pointer]
    exact (if_neg nonseg).trans (Prod.ext (here form).symm (Function.update_self ..))

end Cpu

/-! ## The forms of LDA -/

/-- An addressing form of LDA. -/
inductive AddressForm where
  | pcRel
  | da
  | x (index : Reg) (nonzero : index ≠ 0)
  | based (base : Reg) (nonzero : base ≠ 0)
  | bx (base : Reg)

namespace AddressForm

/-- Nibble 2 of the instruction. -/
def field : AddressForm → Reg
  | .pcRel | .da => 0
  | .x r _ | .based r _ | .bx r => r

/-- The opcode of an instruction that has one slot for PC-relative and based, one for direct and
indexed, and one for based-indexed operands. -/
def opcode (form : AddressForm) (relative direct twice : Byte) : Byte :=
  match form with
  | .pcRel | .based .. => relative
  | .da | .x .. => direct
  | .bx _ => twice

/-- LDA of a register. -/
def lda (form : AddressForm) (t : Reg) : Word :=
  instruction (form.opcode 0x34 0x76 0x74) form.field t

/-- LDB, LD and LDL of a register. -/
def load (form : AddressForm) (width : Width) (t : Reg) : Word :=
  match width with
  | .byte => instruction (form.opcode 0x30 0x60 0x70) form.field t
  | .word => instruction (form.opcode 0x31 0x61 0x71) form.field t
  | .long => instruction (form.opcode 0x35 0x54 0x75) form.field t

/-- The stores of a register. -/
def store (form : AddressForm) (width : Width) (t : Reg) : Word :=
  match width with
  | .byte => instruction (form.opcode 0x32 0x6E 0x72) form.field t
  | .word => instruction (form.opcode 0x33 0x6F 0x73) form.field t
  | .long => instruction (form.opcode 0x37 0x5D 0x77) form.field t

/-- The operand of a form in the instruction with these words. -/
def place (form : AddressForm) (c : Cpu) (words : Fin 6 → Word) : Place :=
  match form with
  | .pcRel => (segOf c.pc, offOf c.pc + 4 + words 1)
  | .da => c.direct words
  | .x index _ => (c.direct words).move (c.rw index)
  | .based base _ => (c.pointer base).move (words 1)
  | .bx base => (c.pointer base).move (c.rw (nib1 (words 1)))

/-- The source select of a form. -/
def src : AddressForm → SrcSel
  | .pcRel => .pcRel
  | .da => .da
  | .x .. => .x
  | .based .. => .based
  | .bx _ => .bx

/-- The destination select of a form. -/
def dst : AddressForm → DstSel
  | .pcRel => .pcRel
  | .da => .da
  | .x .. => .x
  | .based .. => .based
  | .bx _ => .bx

end AddressForm

/-- LDB, LD and LDL through a register. -/
def loadIndirect (width : Width) (pointer t : Reg) : Word :=
  match width with
  | .byte => instruction 0x20 pointer t
  | .word => instruction 0x21 pointer t
  | .long => instruction 0x14 pointer t

/-- The stores through a register. -/
def storeIndirect (width : Width) (pointer t : Reg) : Word :=
  match width with
  | .byte => instruction 0x2E pointer t
  | .word => instruction 0x2F pointer t
  | .long => instruction 0x1D pointer t

/-! ## Decoding -/

namespace AddressForm

/-- The form takes a register from nibble 2. -/
def indexed : AddressForm → Bool
  | .pcRel | .da => false
  | .x .. | .based .. | .bx _ => true

/-- One of five control words. -/
def pick (form : AddressForm) (relative based direct x bx : CtrlWord) : CtrlWord :=
  match form with
  | .pcRel => relative
  | .based .. => based
  | .da => direct
  | .x .. => x
  | .bx _ => bx

/-- The control word of a form in three slots. -/
theorem decode_form (form : AddressForm) {relative direct twice : Byte} {w1 w2 w3 w4 w5 : CtrlWord}
    (t : Reg) (next : Word) (n : Nat)
    (slot1 : rom.lookup relative.toNat = some (.fork2 w1 w2))
    (slot2 : rom.lookup direct.toNat = some (.fork2 w3 w4))
    (slot3 : rom.lookup twice.toNat = some (.ctrl w5)) :
    decodeLookup (instruction (form.opcode relative direct twice) form.field t) next n =
      some (form.pick w1 w2 w3 w4 w5) := by
  cases form with
  | pcRel => exact (Instruction.decode_fork2 next slot1).trans (congrArg some (if_pos rfl))
  | based base nonzero =>
    exact (Instruction.decode_fork2 next slot1).trans (congrArg some (if_neg nonzero))
  | da => exact (Instruction.decode_fork2 next slot2).trans (congrArg some (if_pos rfl))
  | x index nonzero =>
    exact (Instruction.decode_fork2 next slot2).trans (congrArg some (if_neg nonzero))
  | bx base => exact Instruction.decode_ctrl next slot3

/-- The control word is LDA's in this form. -/
structure IsLda (form : AddressForm) (w : CtrlWord) : Prop where
  exec : w.exec = .lea
  src : w.src2 = form.src
  nib : form.indexed = false ∨ w.src2Nib = .nib2

/-- The control word is a load's in this form. -/
structure IsLoad (form : AddressForm) (width : Width) (w : CtrlWord) : Prop where
  exec : w.exec = .unified
  src : w.src2 = form.src
  nib : form.indexed = false ∨ w.src2Nib = .nib2
  dst : w.dst = .reg
  wide : w.width = width

/-- The control word is a store's in this form. -/
structure IsStore (form : AddressForm) (width : Width) (w : CtrlWord) : Prop where
  exec : w.exec = .unified
  src : w.src2 = .reg
  dst : w.dst = form.dst
  nib : form.indexed = false ∨ w.dstNib = .nib2
  wide : w.width = width

theorem lda_decode (form : AddressForm) (t : Reg) (next : Word) :
    ∃ w, (∀ n, decodeLookup (form.lda t) next n = some w) ∧ form.IsLda w := by
  refine ⟨_, fun n => form.decode_form t next n rfl rfl rfl, ?_⟩
  cases form <;> exact ⟨rfl, rfl, by first | exact .inl rfl | exact .inr rfl⟩

theorem load_decode (form : AddressForm) (width : Width) (t : Reg) (next : Word) :
    ∃ w, (∀ n, decodeLookup (form.load width t) next n = some w) ∧ form.IsLoad width w := by
  cases width with
  | byte =>
    refine ⟨_, fun n => form.decode_form t next n rfl rfl rfl, ?_⟩
    cases form <;> exact ⟨rfl, rfl, by first | exact .inl rfl | exact .inr rfl, rfl, rfl⟩
  | word =>
    refine ⟨_, fun n => form.decode_form t next n rfl rfl rfl, ?_⟩
    cases form <;> exact ⟨rfl, rfl, by first | exact .inl rfl | exact .inr rfl, rfl, rfl⟩
  | long =>
    refine ⟨_, fun n => form.decode_form t next n rfl rfl rfl, ?_⟩
    cases form <;> exact ⟨rfl, rfl, by first | exact .inl rfl | exact .inr rfl, rfl, rfl⟩

theorem store_decode (form : AddressForm) (width : Width) (t : Reg) (next : Word) :
    ∃ w, (∀ n, decodeLookup (form.store width t) next n = some w) ∧ form.IsStore width w := by
  cases width with
  | byte =>
    refine ⟨_, fun n => form.decode_form t next n rfl rfl rfl, ?_⟩
    cases form <;> exact ⟨rfl, rfl, rfl, by first | exact .inl rfl | exact .inr rfl, rfl⟩
  | word =>
    refine ⟨_, fun n => form.decode_form t next n rfl rfl rfl, ?_⟩
    cases form <;> exact ⟨rfl, rfl, rfl, by first | exact .inl rfl | exact .inr rfl, rfl⟩
  | long =>
    refine ⟨_, fun n => form.decode_form t next n rfl rfl rfl, ?_⟩
    cases form <;> exact ⟨rfl, rfl, rfl, by first | exact .inl rfl | exact .inr rfl, rfl⟩

/-! ## Addresses -/

/-- The address of the operand, the same in the three switches of the source. -/
def address (form : AddressForm) (c : Cpu) : Long :=
  match form with
  | .pcRel => displaced c.pc (c.opcode 1)
  | .da => c.segAddrOp 1
  | .x index _ => addrAdd (c.segAddrOp 1) ((c.rw index).setWidth 32)
  | .based base _ => displaced (c.addrFromReg base) (c.opcode 1)
  | .bx base => addrAdd (c.addrFromReg base) ((c.rw c.bxIndex).setWidth 32)

variable {form : AddressForm} {w : CtrlWord} {c : Cpu} (field : nib2 (c.opcode 0) = form.field)

include field

theorem usrcAddr_eq (src : w.src2 = form.src) (nib : form.indexed = false ∨ w.src2Nib = .nib2) :
    c.usrcAddr w = form.address c := by
  have register : form.indexed = true → c.unib w.src2Nib = form.field := by
    intro indexed
    rw [nib.resolve_left (by simp [indexed])]
    exact field
  unfold Cpu.usrcAddr
  rw [src]
  cases form with
  | pcRel | da => rfl
  | x | based | bx =>
    dsimp only [AddressForm.src]
    rw [register rfl]
    rfl

theorem udstAddr_eq (dst : w.dst = form.dst) (nib : form.indexed = false ∨ w.dstNib = .nib2) :
    c.udstAddr w = form.address c := by
  have register : form.indexed = true → c.unib w.dstNib = form.field := by
    intro indexed
    rw [nib.resolve_left (by simp [indexed])]
    exact field
  unfold Cpu.udstAddr
  rw [dst]
  cases form with
  | pcRel | da => rfl
  | x | based | bx =>
    dsimp only [AddressForm.dst]
    rw [register rfl]
    rfl

end AddressForm

theorem Cpu.fetchedWith_pointer (c : Cpu) (words : Fin 6 → Word) (r : Reg) :
    (c.fetchedWith words).pointer r = c.pointer r := by
  rw [pointer, pointer, c.fetchedWith_segOf words]
  rfl

theorem Cpu.fetchedWith_direct (c : Cpu) (words : Fin 6 → Word) :
    (c.fetchedWith words).direct words = c.direct words := by
  rw [direct, direct, c.fetchedWith_segOf words]
  rfl

namespace AddressForm

variable (form : AddressForm) (c : Cpu) (words : Fin 6 → Word)

/-- The place of the operand of a fetched instruction. -/
theorem placeOf_address (behind : form = .pcRel → offOf (c.fetchedWith words).pc = offOf c.pc + 4) :
    placeOf (form.address (c.fetchedWith words)) = form.place c words := by
  have narrow : ∀ v : Word, (v.setWidth 32).setWidth 16 = v := by
    intro v
    rw [BitVec.setWidth_setWidth_of_le _ (by decide), BitVec.setWidth_eq]
  have named : placeOf ((c.fetchedWith words).segAddrOp 1) = c.direct words := by
    rw [Cpu.placeOf_segAddrOp]
    exact c.fetchedWith_direct words
  have pointed : ∀ r, placeOf ((c.fetchedWith words).addrFromReg r) = c.pointer r := by
    intro r
    rw [Cpu.placeOf_addrFromReg, c.fetchedWith_pointer]
  cases form with
  | pcRel =>
    rw [address, placeOf_displaced, placeOf, behind rfl, c.fetchedWith_segOf]
    rfl
  | da => exact named
  | x index nonzero =>
    rw [address, placeOf_addrAdd, named, narrow]
    rfl
  | based base nonzero =>
    rw [address, placeOf_displaced, pointed]
    rfl
  | bx base =>
    rw [address, placeOf_addrAdd, pointed, narrow]
    rfl

/-- With one segment the operand is in that of the program counter. -/
theorem place_nonseg (nonseg : c.seg = false) : (form.place c words).1 = segOf c.pc := by
  have plain : ¬c.seg = true := by simp [nonseg]
  have named : (c.direct words).1 = segOf c.pc := by rw [Cpu.direct, if_neg plain]
  have pointed : ∀ r, (c.pointer r).1 = segOf c.pc := by
    intro r
    rw [Cpu.pointer, if_neg plain]
  cases form with
  | pcRel => rfl
  | da | x => exact named
  | based | bx => exact pointed _

end AddressForm

/-! ## The accesses -/

/-- A load into a register reads its operand. -/
theorem execUnified_load (m : Machine) {w : CtrlWord} (src : w.src2.isMem = true) (dst : w.dst = .reg) :
    Cycling (execUnified w) m (places .read (segOf (m.cpu.usrcAddr w)) (offOf (m.cpu.usrcAddr w))
      w.width) := by
  unfold execUnified
  refine .listed ?_ (.bind .get (.ite (fun _ => .bind (.memReadW _ _ _)
    (.ite (fun toMemory => ?_) fun _ => .ite (fun flagsOnly => ?_) fun _ => .modify _))
    fun register => absurd src register))
  · exact List.append_nil _
  · rw [dst] at toMemory
    exact absurd toMemory Bool.false_ne_true
  · rw [dst] at flagsOnly
    exact absurd flagsOnly (by decide)

/-- A store of a register writes its operand. -/
theorem execUnified_store (m : Machine) {w : CtrlWord} (src : w.src2.isMem = false)
    (dst : w.dst.isMem = true) :
    Cycling (execUnified w) m (places .write (segOf (m.cpu.udstAddr w)) (offOf (m.cpu.udstAddr w))
      w.width) := by
  unfold execUnified
  refine .listed ?_ (.bind .get (.ite (fun fromMemory => ?_) fun _ =>
    .ite (fun _ => .memWriteW _ _ _ _) fun register => absurd dst register))
  · rfl
  · exact absurd (src.symm.trans fromMemory) Bool.false_ne_true

/-- The access of an instruction: a load into a register reads its operand, a store writes it. -/
def transferKind (stores : Bool) : Access := if stores then .write else .read

namespace AddressForm

/-- LDB, LD and LDL, or the stores. -/
def transfer (form : AddressForm) (stores : Bool) (width : Width) (t : Reg) : Word :=
  if stores then form.store width t else form.load width t

end AddressForm

/-- The same through a register. -/
def transferIndirect (stores : Bool) (width : Width) (pointer t : Reg) : Word :=
  if stores then storeIndirect width pointer t else loadIndirect width pointer t

namespace AddressForm

/-- The first words of the PC-relative forms stand before one operand word. -/
theorem relative_behind {form : AddressForm} (c : Cpu) (operands : Fin 6 → Word) {op : Word}
    (relative : form = .pcRel → decodeLength op c.seg = 2) (pcRel : form = .pcRel) :
    offOf (c.fetchedWith (codeWords op operands)).pc = offOf c.pc + 4 :=
  c.fetchedWith_offOf _ (relative pcRel)

theorem lda_length (form : AddressForm) (t : Reg) (segmented : Bool) (pcRel : form = .pcRel) :
    decodeLength (form.lda t) segmented = 2 := by
  subst pcRel
  exact Instruction.length_relative _ _ _ (by decide) (by decide) segmented

theorem transfer_length (form : AddressForm) (stores : Bool) (width : Width) (d : Reg)
    (segmented : Bool) (pcRel : form = .pcRel) :
    decodeLength (form.transfer stores width d) segmented = 2 := by
  subst pcRel
  cases stores <;> cases width <;>
    exact Instruction.length_relative _ _ _ (by decide) (by decide) segmented

theorem field_transfer (form : AddressForm) (stores : Bool) (width : Width) (d : Reg) :
    nib2 (form.transfer stores width d) = form.field := by
  cases stores <;> cases width <;> exact Instruction.nib2_eq ..

end AddressForm

/-- The loads through a register. -/
theorem loadIndirect_decode (width : Width) {pointer : Reg} (nonzero : pointer ≠ 0) (t : Reg)
    (next : Word) : ∃ w, (∀ n, decodeLookup (loadIndirect width pointer t) next n = some w) ∧
      w.exec = .unified ∧ w.src2 = .ir ∧ w.src2Nib = .nib2 ∧ w.dst = .reg ∧ w.width = width := by
  have second : ∀ zero other : CtrlWord,
      some (if pointer = 0 then zero else other) = some other := fun _ _ => by rw [if_neg nonzero]
  cases width with
  | byte => exact ⟨_, fun n => (Instruction.decode_fork2 next rfl).trans (second _ _), rfl, rfl, rfl, rfl, rfl⟩
  | word => exact ⟨_, fun n => (Instruction.decode_fork2 next rfl).trans (second _ _), rfl, rfl, rfl, rfl, rfl⟩
  | long => exact ⟨_, fun n => (Instruction.decode_fork2 next rfl).trans (second _ _), rfl, rfl, rfl, rfl, rfl⟩

/-- The stores through a register. -/
theorem storeIndirect_decode (width : Width) (pointer t : Reg) (next : Word) :
    ∃ w, (∀ n, decodeLookup (storeIndirect width pointer t) next n = some w) ∧
      w.exec = .unified ∧ w.src2 = .reg ∧ w.dst = .ir ∧ w.dstNib = .nib2 ∧ w.width = width := by
  cases width with
  | byte => exact ⟨_, fun n => Instruction.decode_ctrl next rfl, rfl, rfl, rfl, rfl, rfl⟩
  | word => exact ⟨_, fun n => Instruction.decode_ctrl next rfl, rfl, rfl, rfl, rfl, rfl⟩
  | long => exact ⟨_, fun n => Instruction.decode_ctrl next rfl, rfl, rfl, rfl, rfl, rfl⟩

theorem transferIndirect_nib2 (stores : Bool) (width : Width) (pointer t : Reg) :
    nib2 (transferIndirect stores width pointer t) = pointer := by
  cases stores <;> cases width <;> exact Instruction.nib2_eq ..

namespace Machine

variable (m : Machine)

/-- The cycles of an instruction are those of its handler. -/
theorem perform_cycles {words : Fin 6 → Word} {w : CtrlWord} {list : List (Access × Byte × Word)}
    (decoded : ∀ n, decodeLookup (words 0) (words 1) n = some w)
    (run : Cycling (execute w) { m with cpu := m.cpu.fetchedWith words } list) :
    m.cycles (m.perform words) = list := by
  rw [m.perform_decoded decoded]
  exact run.cycles

theorem execute_unified {w : CtrlWord} (exec : w.exec = .unified) : execute w = execUnified w := by
  unfold execute
  rw [exec]

variable (form : AddressForm) (stores : Bool) (width : Width) (operands : Fin 6 → Word)

/-- The direct forms access the place of their operand. -/
theorem transfer_cycles (d : Reg) :
    m.cycles (m.perform (codeWords (form.transfer stores width d) operands)) =
      places (transferKind stores) (form.place m.cpu operands).1 (form.place m.cpu operands).2
        width := by
  let words := codeWords (form.transfer stores width d) operands
  let loaded : Machine := { m with cpu := m.cpu.fetchedWith words }
  have field : nib2 (loaded.cpu.opcode 0) = form.field := form.field_transfer stores width d
  have place : placeOf (form.address loaded.cpu) = form.place m.cpu operands :=
    form.placeOf_address m.cpu words
      (form.relative_behind m.cpu operands (form.transfer_length stores width d m.cpu.seg))
  rw [← place]
  cases stores with
  | false =>
    obtain ⟨w, decoded, load⟩ := form.load_decode width d (words 1)
    have isMem : w.src2.isMem = true := by
      rw [load.src]
      cases form <;> rfl
    have run := execUnified_load loaded isMem load.dst
    rw [AddressForm.usrcAddr_eq field load.src load.nib, load.wide,
      ← execute_unified load.exec] at run
    exact m.perform_cycles decoded run
  | true =>
    obtain ⟨w, decoded, store⟩ := form.store_decode width d (words 1)
    have fromReg : w.src2.isMem = false := by rw [store.src]; rfl
    have isMem : w.dst.isMem = true := by
      rw [store.dst]
      cases form <;> rfl
    have run := execUnified_store loaded fromReg isMem
    rw [AddressForm.udstAddr_eq field store.dst store.nib, store.wide,
      ← execute_unified store.exec] at run
    exact m.perform_cycles decoded run

/-- LDA accesses nothing and loads the place of its operand. -/
theorem lda_pointer (t : Reg) :
    m.cycles (m.perform (codeWords (form.lda t) operands)) = [] ∧
      (m.perform (codeWords (form.lda t) operands)).cpu.pointer t =
        form.place m.cpu operands := by
  let words := codeWords (form.lda t) operands
  let loaded : Machine := { m with cpu := m.cpu.fetchedWith words }
  obtain ⟨w, decoded, lda⟩ := form.lda_decode t (words 1)
  have field : nib2 (loaded.cpu.opcode 0) = form.field := Instruction.nib2_eq ..
  have place : placeOf (form.address loaded.cpu) = form.place m.cpu operands :=
    form.placeOf_address m.cpu words
      (form.relative_behind m.cpu operands (form.lda_length t m.cpu.seg))
  have run : execute w = modifyCpu (·.loadAddress w) := by
    unfold execute
    rw [lda.exec]
  have loads : loaded.cpu.loadAddress w = loaded.cpu.addrToReg t (form.address loaded.cpu) := by
    have register : nib3 (loaded.cpu.opcode 0) = t := Instruction.nib3_eq ..
    have address := AddressForm.usrcAddr_eq field lda.src lda.nib
    unfold Cpu.loadAddress
    rw [address, register, lda.src]
    cases form <;> rfl
  constructor
  · refine m.perform_cycles decoded ?_
    rw [run]
    exact .modify _
  · have inSegment : loaded.cpu.seg = false →
        segOf (form.address loaded.cpu) = segOf loaded.cpu.pc := by
      intro nonseg
      have own := form.place_nonseg m.cpu operands nonseg
      rw [← place] at own
      exact own.trans (m.cpu.fetchedWith_segOf words).symm
    have back := (loaded.cpu.pointer_addrToReg t _ inSegment).trans place
    have executed : m.perform words = (execute w loaded).2 := m.perform_decoded decoded
    rw [← loads] at back
    rw [run] at executed
    exact (congrArg (fun x : Machine => x.cpu.pointer t) executed).trans back

/-- The indirect forms access the place that their pointer names. The loads have no form for R0. -/
theorem indirect_cycles {t : Reg} (pointer : stores = false → t ≠ 0) (d : Reg) :
    m.cycles (m.perform (codeWords (transferIndirect stores width t d) operands)) =
      places (transferKind stores) (m.cpu.pointer t).1 (m.cpu.pointer t).2 width := by
  let words := codeWords (transferIndirect stores width t d) operands
  let loaded : Machine := { m with cpu := m.cpu.fetchedWith words }
  have field : nib2 (loaded.cpu.opcode 0) = t := transferIndirect_nib2 stores width t d
  have place : placeOf (loaded.cpu.addrFromReg t) = m.cpu.pointer t := by
    rw [Cpu.placeOf_addrFromReg, Cpu.fetchedWith_pointer]
  rw [← place]
  cases stores with
  | false =>
    obtain ⟨w, decoded, exec, src, nib, dst, wide⟩ := loadIndirect_decode width (pointer rfl) d (words 1)
    have address : loaded.cpu.usrcAddr w = loaded.cpu.addrFromReg t := by
      rw [Cpu.usrcAddr, src, nib, ← field]
      rfl
    have isMem : w.src2.isMem = true := by rw [src]; rfl
    have run := execUnified_load loaded isMem dst
    rw [address, wide, ← execute_unified exec] at run
    exact m.perform_cycles decoded run
  | true =>
    obtain ⟨w, decoded, exec, src, dst, nib, wide⟩ := storeIndirect_decode width t d (words 1)
    have address : loaded.cpu.udstAddr w = loaded.cpu.addrFromReg t := by
      rw [Cpu.udstAddr, dst, nib, ← field]
      rfl
    have fromReg : w.src2.isMem = false := by rw [src]; rfl
    have isMem : w.dst.isMem = true := by rw [dst]; rfl
    have run := execUnified_store loaded fromReg isMem
    rw [address, wide, ← execute_unified exec] at run
    exact m.perform_cycles decoded run

end Machine

/-- A load or a store through the register that LDA has loaded accesses the place that the direct
form accesses, whatever the form: the offset is a sum that wraps inside the segment. -/
theorem loadAddress_agrees (m : Machine) (form : AddressForm) (stores : Bool) (width : Width)
    (operands rest : Fin 6 → Word) {t : Reg} (pointer : stores = false → t ≠ 0) (d : Reg) :
    let loaded := m.perform (codeWords (form.lda t) operands)
    let through := loaded.perform (codeWords (transferIndirect stores width t d) rest)
    let direct := m.perform (codeWords (form.transfer stores width d) operands)
    m.cycles loaded = [] ∧ loaded.cycles through = m.cycles direct ∧
      m.cycles direct = places (transferKind stores) (form.place m.cpu operands).1
        (form.place m.cpu operands).2 width := by
  obtain ⟨silent, named⟩ := m.lda_pointer form operands t
  have direct := m.transfer_cycles form stores width operands d
  have through := (m.perform (codeWords (form.lda t) operands)).indirect_cycles stores width rest
    pointer d
  rw [named] at through
  exact ⟨silent, through.trans direct.symm, direct⟩

/-- A long operand 260 bytes below 05:0100 is at 05:FFFC, and so it is through RR4. -/
theorem loadAddress_agrees_wrap :
    let operands : Fin 6 → Word := fun _ => 0xFEFC
    let loaded := taggedPointer.perform (codeWords ((AddressForm.based 2 (by decide)).lda 4) operands)
    loaded.cycles (loaded.perform (codeWords (transferIndirect false .long 4 6) operands)) =
      [(.read, 5, 0xFFFC), (.read, 5, 0xFFFE)] := by
  obtain ⟨-, through, direct⟩ := loadAddress_agrees taggedPointer (.based 2 (by decide)) false .long
    (fun _ => 0xFEFC) (fun _ => 0xFEFC) (show false = false → (4 : Reg) ≠ 0 by decide) 6
  exact (through.trans direct).trans (by decide)

end C900
