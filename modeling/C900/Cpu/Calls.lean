import C900.Cpu.Halt

/-!
# Nested calls and their returns

The CALL forms push the address behind them and go to their target; RET takes the address
back. `InFrames` says what holds between the two at any depth: the stack pointer lies below
the frames of the open calls, each frame is in memory, and nothing else of the program
has changed. A call opens a frame and a return closes the newest one.
-/

namespace C900

/-! ## Addresses inside a segment -/

/-- The segment half of an address. -/
def segmentHalf (a : Long) : Word := (a >>> 16).setWidth 16

/-- An address of 23 bits. -/
def IsInternal (a : Long) : Prop := a &&& 0x7FFFFF = a

theorem long_split (a : Long) : a = segmentHalf a ++ a.setWidth 16 := long_halves a

theorem segmentHalf_append (s o : Word) : segmentHalf (s ++ o) = s := high_append s o

theorem isInternal_iff (a : Long) : IsInternal a ↔ segmentHalf a &&& 0x7F = segmentHalf a := by
  have masks : (0x7FFFFF : Long) = (0x7F : Word) ++ (0xFFFF : Word) := by decide
  have whole : a.setWidth 16 &&& (0xFFFF : Word) = a.setWidth 16 := BitVec.and_allOnes
  have masked : a &&& 0x7FFFFF = (segmentHalf a &&& 0x7F) ++ a.setWidth 16 := by
    conv_lhs => rw [long_split a, masks, BitVec.and_append, whole]
  unfold IsInternal
  rw [masked]
  constructor
  · intro same
    rw [← segmentHalf_append (segmentHalf a &&& 0x7F) (a.setWidth 16)]
    exact congrArg segmentHalf same
  · intro same
    rw [same]
    exact (long_split a).symm

/-- The segment bits of an address. -/
theorem segmentPart (a : Long) : a &&& 0x7F0000 = (segmentHalf a &&& 0x7F) ++ (0 : Word) := by
  have masks : (0x7F0000 : Long) = (0x7F : Word) ++ (0 : Word) := by decide
  have none : a.setWidth 16 &&& (0 : Word) = 0 := BitVec.and_zero
  conv_lhs => rw [long_split a, masks, BitVec.and_append, none]

theorem segmentHalf_addrAdd (a n : Long) : segmentHalf (addrAdd a n) = segmentHalf a := by
  conv_lhs => rw [long_split a, addrAdd_append, segmentHalf_append]

theorem segmentHalf_addrSub (a n : Long) : segmentHalf (addrSub a n) = segmentHalf a := by
  conv_lhs => rw [long_split a, addrSub_append, segmentHalf_append]

/-- An offset in the segment of the program counter. -/
theorem Cpu.pcSegment_or (c : Cpu) (v : Word) :
    c.pcSegment ||| v.setWidth 32 = (segmentHalf c.pc &&& 0x7F) ++ v := by
  have low : v.setWidth 32 = (0 : Word) ++ v := by
    apply BitVec.eq_of_getLsbD_eq
    intro i bound
    rw [append_bit]
    by_cases small : i < 16
    · simp [small, bound]
    · have above : 16 ≤ i := by omega
      simp [small, BitVec.getLsbD_of_ge v i above]
  have high : (segmentHalf c.pc &&& 0x7F) ||| (0 : Word) = segmentHalf c.pc &&& 0x7F :=
    BitVec.or_zero
  have same : (0 : Word) ||| v = v := BitVec.zero_or
  rw [Cpu.pcSegment, segmentPart, low, BitVec.or_append, high, same]

/-- A target of a jump: an address of 23 bits, in the segment of the program counter when
there is one segment only. -/
structure Cpu.Target (c : Cpu) (t : Long) : Prop where
  internal : IsInternal t
  segment : c.seg = false → t &&& 0x7F0000 = c.pcSegment

namespace Cpu.Target

variable {c : Cpu}

/-- An address with the segment half of another. -/
theorem of_half {t u : Long} (target : c.Target t) (same : segmentHalf u = segmentHalf t) :
    c.Target u := by
  refine ⟨?_, fun form => ?_⟩
  · rw [isInternal_iff, same]
    exact (isInternal_iff t).mp target.internal
  · rw [segmentPart, same, ← segmentPart]
    exact target.segment form

theorem seven_seven (s : Word) : s &&& 0x7F &&& 0x7F = s &&& 0x7F := by
  rw [BitVec.and_assoc, BitVec.and_self]

/-- An offset in the segment of the program counter. -/
theorem inSegment (v : Word) : c.Target (c.pcSegment ||| v.setWidth 32) := by
  rw [c.pcSegment_or]
  refine ⟨?_, fun _ => ?_⟩
  · rw [isInternal_iff, segmentHalf_append, seven_seven]
  · rw [segmentPart, segmentHalf_append, seven_seven, Cpu.pcSegment, segmentPart]

/-- The program counter and what lies beside it. -/
theorem pc (internal : IsInternal c.pc) : c.Target c.pc := ⟨internal, fun _ => rfl⟩

theorem add {t : Long} (target : c.Target t) (n : Long) : c.Target (addrAdd t n) :=
  target.of_half (segmentHalf_addrAdd t n)

theorem sub {t : Long} (target : c.Target t) (n : Long) : c.Target (addrSub t n) :=
  target.of_half (segmentHalf_addrSub t n)

theorem relPc (internal : IsInternal c.pc) (disp : Long) : c.Target (c.relPc disp) := by
  unfold Cpu.relPc
  split
  · exact (pc internal).sub _
  · exact (pc internal).add _

/-- A pointer register. -/
theorem addrFromReg (r : Reg) : c.Target (c.addrFromReg r) := by
  cases form : c.seg with
  | false =>
    rw [Cpu.addrFromReg, if_neg (Bool.not_eq_true _ ▸ form)]
    exact inSegment _
  | true =>
    refine ⟨?_, fun nonseg => absurd (form.symm.trans nonseg) Bool.noConfusion⟩
    rw [Cpu.addrFromReg, if_pos form, long_split (c.rl r), segAddr_append, isInternal_iff,
      internalAddr, segmentHalf_append, seven_seven]

/-- The segment and the offset of an address operand. -/
theorem operand_split (w v : Word) : ((w &&& 0x7F00).setWidth 32 <<< 8 ||| v.setWidth 32 : Long) =
    internalAddr w v := by
  have table : ∀ i : Fin 32, (0x7F00 : Word).getLsbD i = decide (8 ≤ i.val ∧ i.val < 15) := by
    decide
  have seven : ∀ i : Fin 32, (0x7F : Word).getLsbD i = decide (i.val < 7) := by decide
  apply BitVec.eq_of_getLsbD_eq
  intro i bound
  have bit := table ⟨i - 8, by omega⟩
  have sevenBit := seven ⟨i - 16, by omega⟩
  dsimp only at bit sevenBit
  rw [internalAddr, append_bit]
  simp only [BitVec.getLsbD_or, BitVec.getLsbD_shiftLeft, BitVec.getLsbD_setWidth,
    BitVec.getLsbD_and, BitVec.getLsbD_ushiftRight, bit, sevenBit]
  by_cases small : i < 16
  · have none : ¬ (8 ≤ i - 8 ∧ i - 8 < 15) := by omega
    simp [small, none, bound]
  · have above : ¬ i < 8 := by omega
    have back : 8 + (i - 16) = i - 8 := by omega
    have narrow : i - 8 < 15 ↔ i - 16 < 7 := by omega
    have start : 8 ≤ i - 8 := by omega
    have inside : i - 8 < 32 := by omega
    simp [small, above, back, narrow, start, inside, bound, BitVec.getLsbD_of_ge v i (by omega)]

/-- An address operand. -/
theorem segAddrOp (idx : Fin 6) : c.Target (c.segAddrOp idx) := by
  cases form : c.seg with
  | false =>
    rw [Cpu.segAddrOp, if_neg (Bool.not_eq_true _ ▸ form)]
    exact inSegment _
  | true =>
    refine ⟨?_, fun nonseg => absurd (form.symm.trans nonseg) Bool.noConfusion⟩
    have split : ∀ w v : Word,
        IsInternal ((w &&& 0x7F00).setWidth 32 <<< 8 ||| v.setWidth 32 : Long) := by
      intro w v
      rw [operand_split, isInternal_iff, internalAddr, segmentHalf_append, seven_seven]
    rw [Cpu.segAddrOp, if_pos form]
    dsimp only
    split_ifs
    · exact split _ _
    · exact split _ _

end Cpu.Target

/-! ## The stack area -/

/-- The address of the `k`-th word below the one at the stack pointer. -/
def Cpu.stackAddr (c : Cpu) (k : Nat) : Long :=
  let offset := c.rw 15 - BitVec.ofNat 16 (2 * k)
  if c.seg then internalAddr (c.rw 14) offset else c.pcSegment ||| offset.setWidth 32

/-- The memory word behind that address. -/
def Machine.stackPhys (m : Machine) (k : Nat) : Long := m.physOf .write (m.cpu.stackAddr k)

/-- In segmented mode R14 holds nothing but segment bits. -/
def Cpu.CanonicalSp (c : Cpu) : Prop := c.seg = true → c.rw 14 &&& segmentBits = c.rw 14

/-- Room for `n` words below the stack pointer: stores to them are permitted and reach distinct
words of RAM. -/
structure StackRoom (m : Machine) (n : Nat) : Prop where
  permitted : ∀ k, 1 ≤ k → k ≤ n → m.violates .write (m.cpu.stackAddr k) = false
  inRam : ∀ k, 1 ≤ k → k ≤ n → m.bus.isRamWord (m.stackPhys k) = true
  distinct : ∀ j k, 1 ≤ j → j < k → k ≤ n → wordsApart (m.stackPhys j) (m.stackPhys k) = true

theorem StackRoom.mono {m : Machine} {n l : Nat} (room : StackRoom m n) (less : l ≤ n) :
    StackRoom m l :=
  ⟨fun k first last => room.permitted k first (Nat.le_trans last less),
    fun k first last => room.inRam k first (Nat.le_trans last less),
    fun j k first apart last => room.distinct j k first apart (Nat.le_trans last less)⟩

/-- A stack pointer in canonical form moves by its offset alone. -/
theorem Cpu.moveSp_canonical {c : Cpu} (canonical : c.CanonicalSp) (n : Word) :
    c.moveSp n = c.ww 15 (c.rw 15 + n) := by
  unfold moveSp
  split_ifs with form
  · have same : c.ww 14 (c.rw 14 &&& segmentBits) = c := by
      rw [canonical form]
      simp only [ww, setR, Cpu.rw, Function.update_eq_self]
    rw [same]
  · rfl

/-- A push stores one word below. -/
theorem pushWord_stack (v : Word) (x : Machine) :
    pushWord v x = memW16 (x.cpu.stackAddr 1) v { x with cpu := x.cpu.moveSp (-2) } := by
  cases form : x.cpu.seg with
  | true =>
    have stack : x.cpu.spReg = 14 := by rw [Cpu.spReg, if_pos form]
    have below : addrSub (x.cpu.addrFromReg 14) 2 = x.cpu.stackAddr 1 := by
      rw [x.cpu.addrFromReg_stack form, addrSub_internalAddr, Cpu.stackAddr, if_pos form]
      rfl
    have moved : x.cpu.addrToReg 14 (x.cpu.stackAddr 1) = x.cpu.moveSp (-2) := by
      rw [← below, x.cpu.addrFromReg_stack form, addrSub_internalAddr, x.cpu.addrToReg_stack form,
        Cpu.moveSp, if_pos form, BitVec.sub_eq_add_neg]
      rfl
    simp only [pushWord, StateM.bind_apply, getCpu, form, if_true, stack, modifyCpu, below, moved]
  | false =>
    have nonseg : ¬ x.cpu.seg = true := Bool.not_eq_true _ ▸ form
    have stack : x.cpu.spReg = 15 := by rw [Cpu.spReg, if_neg nonseg]
    have below : x.cpu.pcSegment ||| (x.cpu.rw 15 - 2).setWidth 32 = x.cpu.stackAddr 1 := by
      rw [Cpu.stackAddr, if_neg nonseg]
      rfl
    have moved : x.cpu.ww 15 (x.cpu.rw 15 - 2) = x.cpu.moveSp (-2) := by
      rw [Cpu.moveSp, if_neg nonseg, BitVec.sub_eq_add_neg]
    simp only [pushWord, StateM.bind_apply, getCpu, form, Bool.false_eq_true, if_false, stack,
      modifyCpu, below, moved]

theorem Cpu.stackAddr_zero (c : Cpu) : c.stackAddr 0 =
    if c.seg then internalAddr (c.rw 14) (c.rw 15) else c.pcSegment ||| (c.rw 15).setWidth 32 := by
  have still : c.rw 15 - BitVec.ofNat 16 (2 * 0) = c.rw 15 := BitVec.sub_zero _
  rw [stackAddr, still]

/-- A pop loads the word at the stack pointer. -/
theorem popWord_stack (x : Machine) :
    (popWord x).1 = physRead16 x.bus (x.physOf .read (x.cpu.stackAddr 0)) ∧
      (popWord x).2 = { x.cycle .read true (x.cpu.stackAddr 0) with
        cpu := (x.cycle .read true (x.cpu.stackAddr 0)).cpu.moveSp 2 } := by
  cases form : x.cpu.seg with
  | true =>
    have stack : x.cpu.spReg = 14 := by rw [Cpu.spReg, if_pos form]
    have address : x.cpu.addrFromReg 14 = x.cpu.stackAddr 0 := by
      rw [x.cpu.addrFromReg_stack form, Cpu.stackAddr_zero, if_pos form]
    have moved : ∀ c : Cpu, c.seg = true → c.rw 14 = x.cpu.rw 14 → c.rw 15 = x.cpu.rw 15 →
        c.addrToReg 14 (addrAdd (x.cpu.stackAddr 0) 2) = c.moveSp 2 := by
      intro c formC segment offset
      rw [← address, x.cpu.addrFromReg_stack form, addrAdd_internalAddr, c.addrToReg_stack formC,
        Cpu.moveSp, if_pos formC, segment, offset]
      rfl
    have later := moved (x.cycle .read true (x.cpu.stackAddr 0)).cpu form rfl rfl
    simp only [popWord, StateM.bind_apply, StateM.pure_apply, getCpu, form, if_true, stack, address,
      memR16, modifyCpu, later]
    exact ⟨trivial, trivial⟩
  | false =>
    have nonseg : ¬ x.cpu.seg = true := Bool.not_eq_true _ ▸ form
    have stack : x.cpu.spReg = 15 := by rw [Cpu.spReg, if_neg nonseg]
    have address : x.cpu.pcSegment ||| (x.cpu.rw 15).setWidth 32 = x.cpu.stackAddr 0 := by
      rw [Cpu.stackAddr_zero, if_neg nonseg]
    have later : (x.cycle .read true (x.cpu.stackAddr 0)).cpu.ww 15 (x.cpu.rw 15 + 2) =
        (x.cycle .read true (x.cpu.stackAddr 0)).cpu.moveSp 2 := by
      have still : ¬ (x.cycle .read true (x.cpu.stackAddr 0)).cpu.seg = true := nonseg
      rw [Cpu.moveSp, if_neg still]
      rfl
    simp only [popWord, StateM.bind_apply, StateM.pure_apply, getCpu, form, Bool.false_eq_true,
      if_false, stack, address, memR16, modifyCpu, later]
    exact ⟨trivial, trivial⟩

/-- The program `x` of `m` with `k` words pushed. -/
structure OnStack (m : Machine) (k : Nat) (x : Machine) : Prop where
  fcw : x.cpu.fcw = m.cpu.fcw
  sp : x.cpu.R 15 = m.cpu.R 15 - BitVec.ofNat 16 (2 * k)
  others : ∀ r : Reg, r ≠ 15 → x.cpu.R r = m.cpu.R r
  map : x.mmu.SameMap m.mmu
  target : m.cpu.Target x.cpu.pc
  ram : ∀ a, x.bus.isRamWord a = m.bus.isRamWord a

namespace OnStack

variable {m x : Machine} {k : Nat}

theorem seg (onStack : OnStack m k x) : x.cpu.seg = m.cpu.seg := by
  rw [Cpu.seg, onStack.fcw, Cpu.seg]

theorem sysmode (onStack : OnStack m k x) : x.cpu.sysmode = m.cpu.sysmode := by
  rw [Cpu.sysmode, onStack.fcw, Cpu.sysmode]

theorem canonical (onStack : OnStack m k x) (canonical : m.cpu.CanonicalSp) :
    x.cpu.CanonicalSp := by
  intro form
  rw [Cpu.rw, onStack.others 14 (by decide)]
  exact canonical (onStack.seg.symm.trans form)

/-- The words below are the words of the stack area. -/
theorem stackAddr (onStack : OnStack m k x) (j : Nat) :
    x.cpu.stackAddr j = m.cpu.stackAddr (k + j) := by
  have offset : x.cpu.rw 15 - BitVec.ofNat 16 (2 * j) =
      m.cpu.rw 15 - BitVec.ofNat 16 (2 * (k + j)) := by
    rw [Cpu.rw, onStack.sp, Nat.mul_add, BitVec.ofNat_add, Cpu.rw]
    generalize BitVec.ofNat 16 (2 * k) = a
    generalize BitVec.ofNat 16 (2 * j) = b
    bv_omega
  have segment : x.cpu.rw 14 = m.cpu.rw 14 := onStack.others 14 (by decide)
  unfold Cpu.stackAddr
  dsimp only
  rw [offset, segment, onStack.seg]
  split_ifs with form
  · rfl
  · have here : x.cpu.pcSegment = m.cpu.pcSegment :=
      onStack.target.segment (Bool.not_eq_true _ ▸ form)
    rw [here]

/-- An access goes where it would have gone at the start. -/
theorem access (onStack : OnStack m k x) (kind : Access) (a : Long) :
    x.physOf kind a = m.physOf kind a ∧ x.violates kind a = m.violates kind a := by
  have same := onStack.map.translate (segOf a) (offOf a) (kind == .write) (!m.cpu.sysmode)
    (kind == .fetch)
  unfold Machine.physOf Machine.violates Machine.translate
  rw [onStack.sysmode]
  exact same

/-- The stack pointer moved. -/
theorem moved (onStack : OnStack m k x) {y : Machine} {l : Nat} {v : Word}
    (cpu : y.cpu = x.cpu.ww 15 v) (sp : v = m.cpu.R 15 - BitVec.ofNat 16 (2 * l))
    (map : y.mmu.SameMap x.mmu) (ram : ∀ a, y.bus.isRamWord a = x.bus.isRamWord a) :
    OnStack m l y := by
  refine ⟨?_, ?_, fun r other => ?_, map.trans onStack.map, ?_,
    fun a => (ram a).trans (onStack.ram a)⟩
  · rw [cpu]
    exact onStack.fcw
  · rw [cpu, ← sp]
    simp only [Cpu.ww, Cpu.setR, Function.update_self]
  · rw [cpu, ← onStack.others r other]
    simp only [Cpu.ww, Cpu.setR, Function.update_of_ne other]
  · rw [cpu]
    exact onStack.target

/-- A push. -/
theorem push (onStack : OnStack m k x) (canonical : m.cpu.CanonicalSp)
    (permitted : m.violates .write (m.cpu.stackAddr (k + 1)) = false) (v : Word) :
    OnStack m (k + 1) (pushWord v x).2 ∧
      (pushWord v x).2.cpu = x.cpu.ww 15 (x.cpu.rw 15 - 2) ∧
      (pushWord v x).2.bus = physWrite16 x.bus (m.stackPhys (k + 1)) v := by
  obtain ⟨phys, viol⟩ := onStack.access .write (x.cpu.stackAddr 1)
  rw [onStack.stackAddr 1] at phys viol
  rw [permitted] at viol
  have down : x.cpu.moveSp (-2) = x.cpu.ww 15 (x.cpu.rw 15 - 2) := by
    rw [Cpu.moveSp_canonical (onStack.canonical canonical), BitVec.sub_eq_add_neg]
  have cpu : (pushWord v x).2.cpu = x.cpu.ww 15 (x.cpu.rw 15 - 2) := by
    rw [pushWord_stack, onStack.stackAddr 1, down]
    show { x.cpu.ww 15 (x.cpu.rw 15 - 2) with
      fault := x.cpu.fault || x.violates .write (m.cpu.stackAddr (k + 1)) } = _
    rw [viol, Bool.or_false]
    rfl
  have bus : (pushWord v x).2.bus = physWrite16 x.bus (m.stackPhys (k + 1)) v := by
    rw [pushWord_stack, onStack.stackAddr 1, down]
    show (if x.violates .write (m.cpu.stackAddr (k + 1)) then x.bus
      else physWrite16 x.bus (x.physOf .write (m.cpu.stackAddr (k + 1))) v) = _
    rw [viol, phys, if_neg Bool.false_ne_true]
    rfl
  refine ⟨onStack.moved cpu ?_ ?_ fun a => ?_, cpu, bus⟩
  · rw [Cpu.rw, onStack.sp, Nat.mul_succ, BitVec.ofNat_add]
    generalize BitVec.ofNat 16 (2 * k) = pushed
    bv_omega
  · rw [pushWord_stack]
    exact Machine.cycle_sameMap { x with cpu := x.cpu.moveSp (-2) } .write true _
  · rw [bus]
    exact physWrite16_isRamWord ..

/-- A pop. -/
theorem pop (onStack : OnStack m (k + 1) x) (canonical : m.cpu.CanonicalSp)
    (permitted : m.violates .write (m.cpu.stackAddr (k + 1)) = false) :
    OnStack m k (popWord x).2 ∧ (popWord x).2.cpu = x.cpu.ww 15 (x.cpu.rw 15 + 2) ∧
      (popWord x).2.bus = x.bus ∧ (popWord x).1 = physRead16 x.bus (m.stackPhys (k + 1)) := by
  obtain ⟨phys, viol⟩ := onStack.access .read (m.cpu.stackAddr (k + 1))
  obtain ⟨samePhys, notRefused⟩ := mmuTranslate_read permitted
  have here : x.cpu.stackAddr 0 = m.cpu.stackAddr (k + 1) := onStack.stackAddr 0
  obtain ⟨value, after⟩ := popWord_stack x
  rw [here] at value after
  have still : (x.cycle .read true (m.cpu.stackAddr (k + 1))).cpu = x.cpu := by
    show { x.cpu with fault := x.cpu.fault || x.violates .read (m.cpu.stackAddr (k + 1)) } = x.cpu
    have quiet : x.violates .read (m.cpu.stackAddr (k + 1)) = false := viol.trans notRefused
    rw [quiet, Bool.or_false]
  have cpu : (popWord x).2.cpu = x.cpu.ww 15 (x.cpu.rw 15 + 2) := by
    rw [after]
    show (x.cycle .read true (m.cpu.stackAddr (k + 1))).cpu.moveSp 2 = _
    rw [still, Cpu.moveSp_canonical (onStack.canonical canonical)]
  have bus : (popWord x).2.bus = x.bus := by
    rw [after]
    rfl
  refine ⟨onStack.moved cpu ?_ ?_ fun a => by rw [bus], cpu, bus, ?_⟩
  · rw [Cpu.rw, onStack.sp, Nat.mul_succ, BitVec.ofNat_add]
    generalize BitVec.ofNat 16 (2 * k) = pushed
    bv_omega
  · rw [after]
    exact x.cycle_sameMap .read true _
  · rw [value, phys]
    exact congrArg (physRead16 x.bus) samePhys

end OnStack

/-! ## The words on the stack -/

/-- The memory holds the pushed words, the newest first. -/
def Machine.Holds (m : Machine) (b : Bus) : List Word → Prop
  | [] => True
  | v :: words => physRead16 b (m.stackPhys (words.length + 1)) = v ∧ m.Holds b words

/-- A store to the next word of the area leaves the others. -/
theorem Machine.Holds.store {m : Machine} {b : Bus} {words older : List Word}
    (holds : m.Holds b older) (room : StackRoom m (words.length + 1))
    (ram : ∀ a, b.isRamWord a = m.bus.isRamWord a) (within : older.length ≤ words.length)
    (v : Word) :
    m.Holds (physWrite16 b (m.stackPhys (words.length + 1)) v) older := by
  induction older with
  | nil => trivial
  | cons u older inductionHypothesis =>
    obtain ⟨newest, rest⟩ := holds
    have shorter : older.length + 1 ≤ words.length := within
    refine ⟨?_, inductionHypothesis rest (Nat.le_of_succ_le shorter)⟩
    have isRam := (ram _).trans (room.inRam (words.length + 1) (by omega) (Nat.le_refl _))
    rw [physRead16_physWrite16_apart isRam
      (room.distinct (older.length + 1) (words.length + 1) (by omega) (by omega) (Nat.le_refl _))]
    exact newest

/-- Another memory with the same words in the area. -/
theorem Machine.Holds.congr {m : Machine} {b c : Bus} {words : List Word} (holds : m.Holds b words)
    (same : ∀ k, 1 ≤ k → k ≤ words.length →
      physRead16 c (m.stackPhys k) = physRead16 b (m.stackPhys k)) : m.Holds c words := by
  induction words with
  | nil => trivial
  | cons v words inductionHypothesis =>
    obtain ⟨newest, rest⟩ := holds
    refine ⟨(same (words.length + 1) (Nat.succ_pos _) (Nat.le_refl _)).trans newest,
      inductionHypothesis rest fun k first last => same k first (Nat.le_succ_of_le last)⟩

/-- The program `x` of `m` with these words pushed. -/
structure Pushed (m : Machine) (words : List Word) (x : Machine) : Prop
    extends OnStack m words.length x where
  holds : m.Holds x.bus words

namespace Pushed

variable {m x : Machine} {words : List Word}

theorem push (pushed : Pushed m words x) (canonical : m.cpu.CanonicalSp) (v : Word)
    (room : StackRoom m (words.length + 1)) :
    Pushed m (v :: words) (pushWord v x).2 ∧
      (pushWord v x).2.cpu = x.cpu.ww 15 (x.cpu.rw 15 - 2) := by
  obtain ⟨onStack, cpu, bus⟩ := pushed.toOnStack.push canonical
    (room.permitted (words.length + 1) (by omega) (Nat.le_refl _)) v
  have isRam := (pushed.ram _).trans (room.inRam (words.length + 1) (by omega) (Nat.le_refl _))
  refine ⟨⟨onStack, ?_⟩, cpu⟩
  rw [bus]
  exact ⟨physRead16_physWrite16 isRam v,
    pushed.holds.store room pushed.ram (Nat.le_refl _) v⟩

theorem pop {v : Word} (pushed : Pushed m (v :: words) x) (canonical : m.cpu.CanonicalSp)
    (room : StackRoom m (words.length + 1)) :
    Pushed m words (popWord x).2 ∧ (popWord x).2.cpu = x.cpu.ww 15 (x.cpu.rw 15 + 2) ∧
      (popWord x).1 = v := by
  obtain ⟨onStack, cpu, bus, value⟩ := pushed.toOnStack.pop canonical
    (room.permitted (words.length + 1) (by omega) (Nat.le_refl _))
  obtain ⟨newest, rest⟩ := pushed.holds
  refine ⟨⟨onStack, ?_⟩, cpu, value.trans newest⟩
  rw [bus]
  exact rest

/-- A jump with the stack as it is. -/
theorem jump (pushed : Pushed m words x) {t : Long} (target : m.cpu.Target t) :
    Pushed m words { x with cpu := { x.cpu with pc := t } } :=
  ⟨⟨pushed.fcw, pushed.sp, pushed.others, pushed.map, target, pushed.ram⟩, pushed.holds⟩

end Pushed

/-! ## A call and a return -/

/-- The words of a return address, the newest first. -/
def frame (seg : Bool) (ret : Long) : List Word :=
  if seg then [((makeSeg ret) >>> 16).setWidth 16, ret.setWidth 16] else [ret.setWidth 16]

/-- The instruction ends with its first element, without a fault. -/
structure Cpu.SameCourse (c d : Cpu) : Prop where
  fault : d.fault = c.fault
  repeatPending : d.repeatPending = c.repeatPending

section Course

variable {m x : Machine} {words : List Word}

/-- A call pushes the address behind it. -/
theorem Pushed.execCall (pushed : Pushed m words x) (canonical : m.cpu.CanonicalSp)
    (room : StackRoom m (frame m.cpu.seg x.cpu.pc ++ words).length) {t : Long}
    (target : m.cpu.Target t) :
    Pushed m (frame m.cpu.seg x.cpu.pc ++ words) (C900.execCall t x).2 ∧
      x.cpu.SameCourse (C900.execCall t x).2.cpu := by
  have sameSeg := pushed.seg
  cases form : m.cpu.seg with
  | false =>
    rw [form] at room sameSeg
    have run : (C900.execCall t x).2 = { (pushWord (x.cpu.pc.setWidth 16) x).2 with
        cpu := { (pushWord (x.cpu.pc.setWidth 16) x).2.cpu with pc := t } } := by
      simp only [C900.execCall, StateM.bind_apply, getCpu, sameSeg, Bool.false_eq_true, if_false]
      rfl
    obtain ⟨after, cpu⟩ := pushed.push canonical (x.cpu.pc.setWidth 16) room
    rw [run, cpu]
    exact ⟨cpu ▸ after.jump target, rfl, rfl⟩
  | true =>
    rw [form] at room sameSeg
    let low := (pushWord (x.cpu.pc.setWidth 16) x).2
    let high := (pushWord (((makeSeg x.cpu.pc) >>> 16).setWidth 16) low).2
    have run : (C900.execCall t x).2 = { high with cpu := { high.cpu with pc := t } } := by
      simp only [C900.execCall, StateM.bind_apply, getCpu, sameSeg, if_true]
      rfl
    obtain ⟨first, cpu⟩ := pushed.push canonical (x.cpu.pc.setWidth 16)
      (room.mono (Nat.le_succ _))
    obtain ⟨second, cpu'⟩ := first.push canonical (((makeSeg x.cpu.pc) >>> 16).setWidth 16) room
    have whole : high.cpu = (x.cpu.ww 15 (x.cpu.rw 15 - 2)).ww 15
        ((x.cpu.ww 15 (x.cpu.rw 15 - 2)).rw 15 - 2) := cpu'.trans (by rw [cpu])
    rw [run]
    refine ⟨second.jump target, ?_⟩
    rw [whole]
    exact ⟨rfl, rfl⟩

/-- The register form keeps the offset. -/
theorem offset_makeSeg (a : Long) : (makeSeg a).setWidth 16 = a.setWidth 16 := by
  have number : ∀ i : Fin 16, (0x7F0000 : Long).getLsbD (i.val - 8) = false := by decide
  have flag : ∀ i : Fin 16, (0x80000000 : Long).getLsbD i = false := by decide
  have low : ∀ i : Fin 16, (0xFFFF : Long).getLsbD i = true := by decide
  apply BitVec.eq_of_getLsbD_eq
  intro i bound
  have numberBit := number ⟨i, bound⟩
  have flagBit := flag ⟨i, bound⟩
  have lowBit := low ⟨i, bound⟩
  dsimp only at numberBit flagBit lowBit
  simp only [makeSeg, BitVec.getLsbD_setWidth, BitVec.getLsbD_or, BitVec.getLsbD_and,
    BitVec.getLsbD_shiftLeft, numberBit, flagBit, lowBit]
  simp

/-- Two addresses in one segment. -/
theorem segmentHalf_of_part {a b : Long} (same : a &&& 0x7F0000 = b &&& 0x7F0000) :
    segmentHalf a &&& 0x7F = segmentHalf b &&& 0x7F := by
  rw [segmentPart, segmentPart] at same
  rw [← segmentHalf_append (segmentHalf a &&& 0x7F) (0 : Word), same, segmentHalf_append]

/-- The pushed words give the address back. -/
theorem frame_segAddr {ret : Long} (internal : IsInternal ret) :
    segAddr (((makeSeg ret) >>> 16).setWidth 16 ++ ret.setWidth 16) = ret := by
  rw [← offset_makeSeg ret, ← long_halves, segAddr_makeSeg]
  exact internal

/-- A return takes the newest address. -/
theorem Pushed.execRet {ret : Long} (pushed : Pushed m (frame m.cpu.seg ret ++ words) x)
    (canonical : m.cpu.CanonicalSp) (room : StackRoom m (frame m.cpu.seg ret ++ words).length)
    (target : m.cpu.Target ret) :
    Pushed m words (C900.execRet x).2 ∧ (C900.execRet x).2.cpu.pc = ret ∧
      x.cpu.SameCourse (C900.execRet x).2.cpu := by
  have sameSeg := pushed.seg
  cases form : m.cpu.seg with
  | false =>
    rw [form] at room sameSeg pushed
    obtain ⟨after, cpu, value⟩ := pushed.pop canonical room
    have pc : (popWord x).2.cpu.pcSegment ||| (popWord x).1.setWidth 32 = ret := by
      rw [Cpu.pcSegment_or, value]
      have same : segmentHalf (popWord x).2.cpu.pc &&& 0x7F = segmentHalf ret &&& 0x7F :=
        segmentHalf_of_part ((after.target.segment form).trans (target.segment form).symm)
      rw [same, (isInternal_iff ret).mp target.internal]
      exact (long_split ret).symm
    have run : (C900.execRet x).2 = { (popWord x).2 with cpu := { (popWord x).2.cpu with
        pc := (popWord x).2.cpu.pcSegment ||| (popWord x).1.setWidth 32 } } := by
      simp only [C900.execRet, StateM.bind_apply, getCpu, sameSeg, Bool.false_eq_true, if_false]
      rfl
    rw [run, pc]
    refine ⟨after.jump target, rfl, ?_⟩
    rw [cpu]
    exact ⟨rfl, rfl⟩
  | true =>
    rw [form] at room sameSeg pushed
    obtain ⟨first, cpu, high⟩ := pushed.pop canonical room
    obtain ⟨second, cpu', low⟩ := first.pop canonical (room.mono (Nat.le_succ _))
    have run : (C900.execRet x).2 = { (popWord (popWord x).2).2 with
        cpu := { (popWord (popWord x).2).2.cpu with
          pc := segAddr ((popWord x).1 ++ (popWord (popWord x).2).1) } } := by
      simp only [C900.execRet, StateM.bind_apply, getCpu, sameSeg, if_true]
      rfl
    rw [run, high, low, frame_segAddr target.internal]
    refine ⟨second.jump target, rfl, ?_⟩
    rw [cpu', cpu]
    exact ⟨rfl, rfl⟩

/-- A CALL form. -/
def BranchMode.isCall : BranchMode → Bool
  | .callDa | .callX | .callIr | .calr | .calr12 => true
  | _ => false

/-- Each CALL form pushes before it jumps, wherever its target comes from. -/
theorem execBranch_call {w : CtrlWord} (call : w.brMode.isCall = true)
    (internal : IsInternal x.cpu.pc) :
    ∃ t, x.cpu.Target t ∧ C900.execBranch w x = C900.execCall t x := by
  unfold C900.execBranch
  cases form : w.brMode with
  | callDa => exact ⟨_, .segAddrOp 1, rfl⟩
  | callX => exact ⟨_, (Cpu.Target.segAddrOp 1).add _, rfl⟩
  | callIr => exact ⟨_, .addrFromReg _, rfl⟩
  | calr => exact ⟨_, .relPc internal _, rfl⟩
  | calr12 => exact ⟨_, .relPc internal _, rfl⟩
  | _ =>
    rw [form] at call
    exact absurd call Bool.false_ne_true

/-- RET without a condition. -/
theorem execBranch_ret {w : CtrlWord} (ret : w.brMode = .ret)
    (always : nib3 (x.cpu.opcode 0) = 8) : C900.execBranch w x = C900.execRet x := by
  have holds : x.cpu.condTrue (nib3 (x.cpu.opcode 0)) = true := by
    rw [always]
    rfl
  unfold C900.execBranch
  simp only [StateM.bind_apply, getCpu, ret, holds, if_true]

end Course

/-! ## The steps -/

/-- A step that executes the branch `w`, fetched without a violation; `d` is the machine behind
the fetch. -/
structure BranchStep (hook : SysHook) (m : Machine) (w : CtrlWord) (d r : Machine) : Prop where
  runs : m.instruction hook = some (w, d)
  kind : w.exec = .branch
  fetched : d.cpu.fault = false
  returns : ∃ fuel, cpuStep hook fuel m = some r

/-- The step executes a CALL; `ret` is the address behind it. -/
def CallStep (hook : SysHook) (m : Machine) (ret : Long) (r : Machine) : Prop :=
  ∃ w d, BranchStep hook m w d r ∧ w.brMode.isCall = true ∧ ret = d.cpu.pcNext

/-- The step executes an unconditional RET. -/
def RetStep (hook : SysHook) (m r : Machine) : Prop :=
  ∃ w d, BranchStep hook m w d r ∧ w.brMode = .ret ∧ nib3 (d.cpu.opcode 0) = 8

/-- The machine behind the fetch of an instruction. -/
theorem instruction_fetches {hook : SysHook} {m d : Machine} {w : CtrlWord}
    (runs : m.instruction hook = some (w, d)) : d = (fetchDecode m.beginStep.sampled).2 := by
  rw [(instruction_boundary runs).2.2]

section Steps

variable {hook : SysHook} {m x d r : Machine} {w : CtrlWord} {words : List Word}

/-- A fetch leaves the stack and goes behind the instruction. -/
theorem Pushed.fetch (pushed : Pushed m words x) (runs : x.instruction hook = some (w, d)) :
    Pushed m words d.started ∧ segmentHalf d.cpu.pcNext = segmentHalf x.cpu.pc := by
  obtain ⟨-, spec⟩ := fetchDecode_spec x.beginStep.sampled
  have stack := fetchDecode_sameStack x.beginStep.sampled
  have sampled := x.beginStep.cpu.sampleLines_sameStack
  have pc := x.beginStep.cpu.sampleLines_pc
  rw [← instruction_fetches runs] at spec stack
  have half : segmentHalf d.cpu.pcNext = segmentHalf x.cpu.pc := by
    rw [Cpu.pcNext, segmentHalf_addrAdd, spec.instrStart]
    exact congrArg segmentHalf pc
  have fcw : d.cpu.fcw = x.cpu.fcw := stack.fcw.trans sampled.fcw
  have registers : d.cpu.R = x.cpu.R := stack.registers.trans sampled.registers
  have bus : d.bus = x.bus := spec.fetched.bus
  have map : d.mmu.SameMap x.mmu := by
    rw [spec.fetched.mmu]
    exact Machine.mmuAfter_sameMap _ _
  refine ⟨⟨⟨fcw.trans pushed.fcw, ?_, fun r other => ?_, map.trans pushed.map,
    pushed.target.of_half half, fun a => ?_⟩, ?_⟩, half⟩
  · exact (congrFun registers 15).trans pushed.sp
  · exact (congrFun registers r).trans (pushed.others r other)
  · show d.bus.isRamWord a = _
    rw [bus]
    exact pushed.ram a
  · show m.Holds d.bus words
    rw [bus]
    exact pushed.holds

theorem Mmu.sameMap_clearWarning (u : Mmu) :
    ({ u with warnPending := false } : Mmu).SameMap u := ⟨rfl, rfl, rfl, fun _ => rfl⟩

/-- The count of instructions and a write warning leave the stack alone. -/
theorem Pushed.element (pushed : Pushed m words (execute w x).2) :
    Pushed m words (executeElement w x) := by
  have map : ({ (execute w x).2.mmu with warnPending := false } : Mmu).SameMap m.mmu :=
    (Mmu.sameMap_clearWarning _).trans pushed.map
  unfold executeElement Machine.takeWarning
  dsimp only
  split
  · exact ⟨⟨pushed.fcw, pushed.sp, pushed.others, map, pushed.target, pushed.ram⟩, pushed.holds⟩
  · exact ⟨⟨pushed.fcw, pushed.sp, pushed.others, pushed.map, pushed.target, pushed.ram⟩,
      pushed.holds⟩

/-- A branch that keeps the course of the instruction. -/
theorem BranchStep.result (step : BranchStep hook x w d r)
    (course : d.started.cpu.SameCourse (execute w d.started).2.cpu) :
    r = executeElement w d.started := by
  obtain ⟨fuel, returns⟩ := step.returns
  rw [cpuStep_of_instruction step.runs] at returns
  have calm := course.fault.trans step.fetched
  have fresh : d.cpu.repeatPending = false := instruction_fresh step.runs
  have single := course.repeatPending.trans fresh
  exact (Option.some.inj ((runInstruction_single fuel calm single).symm.trans returns)).symm

theorem BranchStep.execute (step : BranchStep hook x w d r) (y : Machine) :
    C900.execute w y = execBranch w y := by
  unfold C900.execute
  rw [step.kind]

end Steps

/-! ## Open calls -/

/-- The return addresses `rets` of the open calls, the newest first, are on the stack of `x`; the
oldest call was made in the segment of `m`. -/
structure InFrames (m : Machine) (rets : List Long) (x : Machine) : Prop where
  pushed : Pushed m (rets.flatMap (frame m.cpu.seg)) x
  targets : ∀ ret ∈ rets, m.cpu.Target ret
  bottom : rets.getLastD x.cpu.pc &&& 0x7F0000 = m.cpu.pcSegment

/-- From `x` to `y` the program, the map and the first `n` words of the stack area of `m` are kept,
whatever has happened between. -/
structure Undisturbed (m : Machine) (n : Nat) (x y : Machine) : Prop where
  pc : y.cpu.pc = x.cpu.pc
  fcw : y.cpu.fcw = x.cpu.fcw
  registers : y.cpu.R = x.cpu.R
  map : y.mmu.SameMap x.mmu
  ram : ∀ a, y.bus.isRamWord a = x.bus.isRamWord a
  words : ∀ k, 1 ≤ k → k ≤ n →
    physRead16 y.bus (m.stackPhys k) = physRead16 x.bus (m.stackPhys k)

/-- The number of words of a return address. -/
def Cpu.frameWords (c : Cpu) : Nat := if c.seg then 2 else 1

theorem frames_length (m : Machine) (rets : List Long) :
    (rets.flatMap (frame m.cpu.seg)).length = rets.length * m.cpu.frameWords := by
  have single : ∀ ret, (frame m.cpu.seg ret).length = m.cpu.frameWords := by
    intro ret
    unfold frame Cpu.frameWords
    split_ifs <;> rfl
  induction rets with
  | nil => exact (Nat.zero_mul _).symm
  | cons ret rets inductionHypothesis =>
    rw [List.flatMap_cons, List.length_append, inductionHypothesis, single, List.length_cons,
      Nat.succ_mul, Nat.add_comm]

namespace InFrames

variable {hook : SysHook} {m x r : Machine} {rets : List Long} {behind : Long}

/-- Nothing is pushed at the start. -/
theorem start (internal : m.cpu.InternalPc) : InFrames m [] m := by
  refine ⟨⟨⟨rfl, ?_, fun _ _ => rfl, Mmu.SameMap.refl _, .pc internal, fun _ => rfl⟩, trivial⟩,
    nofun, rfl⟩
  exact (BitVec.sub_zero _).symm

/-- The segment of the oldest return address, seen from another program counter. -/
theorem bottom_of_half (inFrames : InFrames m rets x) {pc : Long}
    (same : segmentHalf pc = segmentHalf x.cpu.pc) :
    rets.getLastD pc &&& 0x7F0000 = m.cpu.pcSegment := by
  have bottom := inFrames.bottom
  cases rets with
  | nil =>
    have parts : pc &&& 0x7F0000 = x.cpu.pc &&& 0x7F0000 := by
      rw [segmentPart, same, ← segmentPart]
    exact parts.trans bottom
  | cons ret rets => exact bottom

/-- A call opens a frame. -/
theorem call (inFrames : InFrames m rets x) (canonical : m.cpu.CanonicalSp)
    (room : StackRoom m ((rets.length + 1) * m.cpu.frameWords)) (step : CallStep hook x behind r) :
    InFrames m (behind :: rets) r := by
  obtain ⟨w, d, branch, isCall, rfl⟩ := step
  obtain ⟨fetched, half⟩ := inFrames.pushed.fetch branch.runs
  have target : m.cpu.Target d.cpu.pcNext := fetched.target
  have words : (frame m.cpu.seg d.cpu.pcNext ++ rets.flatMap (frame m.cpu.seg)).length =
      (rets.length + 1) * m.cpu.frameWords := frames_length m (d.cpu.pcNext :: rets)
  obtain ⟨t, goesTo, run⟩ := @execBranch_call d.started w isCall target.internal
  have reached : m.cpu.Target t := by
    refine ⟨goesTo.internal, fun form => ?_⟩
    exact (goesTo.segment (fetched.seg.trans form)).trans (fetched.target.segment form)
  rw [← words] at room
  obtain ⟨after, course⟩ := fetched.execCall canonical room reached
  rw [← run, ← branch.execute] at after course
  rw [branch.result course]
  refine ⟨after.element, fun other member => ?_, ?_⟩
  · rcases List.mem_cons.mp member with rfl | older
    · exact target
    · exact inFrames.targets other older
  · rw [List.getLastD_cons]
    exact inFrames.bottom_of_half half

/-- A return closes the newest frame and goes behind its call. -/
theorem ret (inFrames : InFrames m (behind :: rets) x) (canonical : m.cpu.CanonicalSp)
    (room : StackRoom m ((rets.length + 1) * m.cpu.frameWords)) (step : RetStep hook x r) :
    InFrames m rets r ∧ r.cpu.pc = behind := by
  obtain ⟨w, d, branch, isRet, always⟩ := step
  obtain ⟨fetched, -⟩ := inFrames.pushed.fetch branch.runs
  have words : (frame m.cpu.seg behind ++ rets.flatMap (frame m.cpu.seg)).length =
      (rets.length + 1) * m.cpu.frameWords := frames_length m (behind :: rets)
  have run : execBranch w d.started = C900.execRet d.started := execBranch_ret isRet always
  rw [← words] at room
  obtain ⟨after, pc, course⟩ :=
    fetched.execRet canonical room (inFrames.targets behind List.mem_cons_self)
  rw [← run, ← branch.execute] at after course pc
  obtain ⟨irqReq, counted⟩ := executeElement_cpu w d.started
  have there : (executeElement w d.started).cpu.pc = behind := by
    rw [counted]
    exact pc
  rw [branch.result course]
  refine ⟨⟨after.element, fun other older => inFrames.targets other (List.mem_cons_of_mem _ older),
    ?_⟩, there⟩
  have bottom := inFrames.bottom
  rw [List.getLastD_cons] at bottom
  rw [there]
  exact bottom

/-- The program gets the processor back with its stack area as it was. -/
theorem resumed (inFrames : InFrames m rets x) {y : Machine} {n : Nat}
    (within : rets.length * m.cpu.frameWords ≤ n) (undisturbed : Undisturbed m n x y) :
    InFrames m rets y := by
  obtain ⟨pc, fcw, registers, map, ram, words⟩ := undisturbed
  have pushed := inFrames.pushed
  refine ⟨⟨⟨fcw.trans pushed.fcw, ?_, fun r other => ?_, map.trans pushed.map, ?_,
    fun a => ?_⟩, ?_⟩, inFrames.targets, ?_⟩
  · exact (congrFun registers 15).trans pushed.sp
  · exact (congrFun registers r).trans (pushed.others r other)
  · rw [pc]
    exact pushed.target
  · exact (ram a).trans (pushed.ram a)
  · refine pushed.holds.congr fun k first last => words k first (Nat.le_trans last ?_)
    rwa [frames_length]
  · rw [pc]
    exact inFrames.bottom

end InFrames

/-! ## Runs of calls and returns -/

/-- The calls of a run from `m`, with the addresses behind them, the newest first. Between two
instructions an interrupt may be served that leaves the program and `n` words of the stack area
as they were. -/
inductive Calls (hook : SysHook) (m : Machine) (n : Nat) : List Long → Machine → Prop where
  | start : Calls hook m n [] m
  | call {rets : List Long} {x r : Machine} {ret : Long} (run : Calls hook m n rets x)
      (step : CallStep hook x ret r) : Calls hook m n (ret :: rets) r
  | pause {rets : List Long} {x y : Machine} (run : Calls hook m n rets x)
      (undisturbed : Undisturbed m n x y) : Calls hook m n rets y

/-- The returns of a run from `x`, with the program counters that they leave, the oldest first. -/
inductive Returns (hook : SysHook) (m : Machine) (n : Nat) (x : Machine) :
    List Long → Machine → Prop where
  | start : Returns hook m n x [] x
  | ret {pcs : List Long} {y r : Machine} (run : Returns hook m n x pcs y)
      (step : RetStep hook y r) : Returns hook m n x (pcs ++ [r.cpu.pc]) r
  | pause {pcs : List Long} {y z : Machine} (run : Returns hook m n x pcs y)
      (undisturbed : Undisturbed m n y z) : Returns hook m n x pcs z

section Runs

variable {hook : SysHook} {m x z : Machine} {n : Nat} {rets pcs : List Long}

/-- The calls of a run are open behind it. -/
theorem Calls.inFrames (calls : Calls hook m n rets x) (canonical : m.cpu.CanonicalSp)
    (internal : m.cpu.InternalPc) (room : StackRoom m n)
    (within : rets.length * m.cpu.frameWords ≤ n) : InFrames m rets x := by
  induction calls with
  | start => exact .start internal
  | @call rets x r ret run step inductionHypothesis =>
    rw [List.length_cons] at within
    have smaller : rets.length * m.cpu.frameWords ≤ (rets.length + 1) * m.cpu.frameWords :=
      Nat.mul_le_mul_right _ (Nat.le_succ _)
    exact (inductionHypothesis (Nat.le_trans smaller within)).call canonical (room.mono within) step
  | pause run undisturbed inductionHypothesis =>
    exact (inductionHypothesis within).resumed within undisturbed

/-- Returns close the open calls from the newest on. -/
theorem Returns.inFrames (returns : Returns hook m n x pcs z) (inFrames : InFrames m rets x)
    (canonical : m.cpu.CanonicalSp) (room : StackRoom m n)
    (within : rets.length * m.cpu.frameWords ≤ n) (fewer : pcs.length ≤ rets.length) :
    pcs = rets.take pcs.length ∧ InFrames m (rets.drop pcs.length) z := by
  induction returns with
  | start => exact ⟨rfl, inFrames⟩
  | @ret pcs y r run step inductionHypothesis =>
    rw [List.length_append, List.length_singleton] at fewer ⊢
    obtain ⟨before, open'⟩ := inductionHypothesis (Nat.le_of_succ_le fewer)
    have next : pcs.length < rets.length := fewer
    have newest : rets.drop pcs.length = rets[pcs.length] :: rets.drop (pcs.length + 1) :=
      List.drop_eq_getElem_cons next
    rw [newest] at open'
    have words : ((rets.drop (pcs.length + 1)).length + 1) * m.cpu.frameWords ≤ n := by
      refine Nat.le_trans (Nat.mul_le_mul_right _ ?_) within
      rw [List.length_drop]
      omega
    obtain ⟨closed, pc⟩ := open'.ret canonical (room.mono words) step
    refine ⟨?_, closed⟩
    rw [List.take_add_one, List.getElem?_eq_getElem next, ← before, pc]
    rfl
  | pause run undisturbed inductionHypothesis =>
    obtain ⟨before, still⟩ := inductionHypothesis fewer
    refine ⟨before, still.resumed (Nat.le_trans (Nat.mul_le_mul_right _ ?_) within) undisturbed⟩
    rw [List.length_drop]
    omega

/-- Nested calls and as many returns: each return goes behind the call that it closes, the newest
first, and the registers, the flags and the segment of the program counter are what they were. -/
theorem nestedCalls_resume (calls : Calls hook m n rets x) (returns : Returns hook m n x pcs z)
    (balanced : pcs.length = rets.length) (room : StackRoom m n)
    (within : rets.length * m.cpu.frameWords ≤ n) (canonical : m.cpu.CanonicalSp)
    (internal : m.cpu.InternalPc) :
    pcs = rets ∧ z.cpu.R = m.cpu.R ∧ z.cpu.fcw = m.cpu.fcw ∧
      z.cpu.pcSegment = m.cpu.pcSegment := by
  have opened := calls.inFrames canonical internal room within
  obtain ⟨order, closed⟩ :=
    returns.inFrames opened canonical room within (Nat.le_of_eq balanced)
  rw [balanced, List.take_length] at order
  rw [balanced, List.drop_length] at closed
  have pushed := closed.pushed
  refine ⟨order, ?_, pushed.fcw, closed.bottom⟩
  funext r
  by_cases stack : r = 15
  · rw [stack, pushed.sp]
    exact BitVec.sub_zero _
  · exact pushed.others r stack

end Runs

/-- A program in segment 2 of a machine that does not translate: a CALR to a CALR to a RET, with
a RET behind the second call; the stack is in segment 3. -/
def nesting : Machine :=
  { (default : Machine) with
    cpu := { (default : Cpu) with
      pc := 0x020000, fcw := 0xC000
      R := fun r => if r = 14 then 0x0300 else if r = 15 then 0x1000 else 0 }
    bus := { (default : Bus) with
      flatMem := true
      flatMaxseg := 0xFF
      ram := fun a =>
        if a = 0x020000 then 0xDF else if a = 0x020001 then 0xFE
        else if a = 0x020006 then 0xDF else if a = 0x020007 then 0xFF
        else if a = 0x020008 then 0x9E else if a = 0x020009 then 0x08
        else if a = 0x02000A then 0x9E else if a = 0x02000B then 0x08 else 0 } }

/-- The machine behind a step. -/
def Machine.next (m : Machine) : Machine := (cpuStep none 0 m).getD m

/-- What makes a step a branch. -/
def Machine.branches (m : Machine) (p : BranchMode → Cpu → Bool) : Bool :=
  (cpuStep none 0 m).isSome && match m.instruction none with
    | some (w, d) => decide (w.exec = .branch) && !d.cpu.fault && p w.brMode d.cpu
    | none => false

theorem Machine.branches_spec {m : Machine} {p : BranchMode → Cpu → Bool}
    (branches : m.branches p = true) :
    ∃ w d, BranchStep none m w d m.next ∧ p w.brMode d.cpu = true := by
  unfold Machine.branches at branches
  rw [Bool.and_eq_true] at branches
  obtain ⟨returns, executes⟩ := branches
  obtain ⟨r, same⟩ := Option.isSome_iff_exists.mp returns
  have next : cpuStep none 0 m = some m.next := by rw [Machine.next, same]; rfl
  cases runs : m.instruction none with
  | none =>
    rw [runs] at executes
    exact absurd executes Bool.false_ne_true
  | some executed =>
    obtain ⟨w, d⟩ := executed
    rw [runs] at executes
    simp only [Bool.and_eq_true, decide_eq_true_eq, Bool.not_eq_true'] at executes
    obtain ⟨⟨kind, fetched⟩, holds⟩ := executes
    exact ⟨w, d, ⟨runs, kind, fetched, 0, next⟩, holds⟩

/-- A call of a concrete machine. -/
theorem Machine.callStep {m : Machine} {ret : Long}
    (branches : m.branches (fun mode c => mode.isCall && decide (ret = c.pcNext)) = true) :
    CallStep none m ret m.next := by
  obtain ⟨w, d, step, holds⟩ := branches_spec branches
  simp only [Bool.and_eq_true, decide_eq_true_eq] at holds
  exact ⟨w, d, step, holds.1, holds.2⟩

/-- A return of a concrete machine. -/
theorem Machine.retStep {m : Machine}
    (branches : m.branches
      (fun mode c => decide (mode = .ret) && decide (nib3 (c.opcode 0) = 8)) = true) :
    RetStep none m m.next := by
  obtain ⟨w, d, step, holds⟩ := branches_spec branches
  simp only [Bool.and_eq_true, decide_eq_true_eq] at holds
  exact ⟨w, d, step, holds.1, holds.2⟩

theorem nesting_room : StackRoom nesting 4 := by
  have places : ∀ k : Fin 5, ∀ j : Fin 5, 1 ≤ j.val → j < k →
      wordsApart (nesting.stackPhys j) (nesting.stackPhys k) = true := by decide
  have ram : ∀ k : Fin 5, nesting.bus.isRamWord (nesting.stackPhys k) = true := by decide
  refine ⟨fun _ _ _ => rfl, fun k _ last => ram ⟨k, by omega⟩, fun j k first apart last => ?_⟩
  exact places ⟨k, by omega⟩ ⟨j, by omega⟩ first apart

/-- The two calls and the two returns. -/
theorem nestedCalls_resume_two :
    nesting.next.next.next.next.cpu.R = nesting.cpu.R ∧
      nesting.next.next.next.next.cpu.pc = 0x020002 := by
  have calls : Calls none nesting 4 [0x020008, 0x020002] nesting.next.next :=
    (Calls.start.call (Machine.callStep (by decide))).call
      (Machine.callStep (by decide))
  have returns : Returns none nesting 4 nesting.next.next _ nesting.next.next.next.next :=
    (Returns.start.ret (Machine.retStep (by decide +kernel))).ret
      (Machine.retStep (by decide +kernel))
  obtain ⟨order, registers, -⟩ := nestedCalls_resume calls returns (by simp) nesting_room
    (by decide) (fun _ => by decide)
    (by decide : nesting.cpu.pc &&& 0x7FFFFF = nesting.cpu.pc)
  have last := congrArg List.getLast? order
  rw [List.getLast?_concat] at last
  have oldest : ([0x020008, 0x020002] : List Long).getLast? = some 0x020002 := rfl
  exact ⟨registers, Option.some.inj (last.trans oldest)⟩

end C900
