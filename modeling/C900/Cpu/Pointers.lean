import C900.Cpu.Perform
import C900.Cpu.Stacks

/-!
# The pointers of the stack forms

PUSH, PUSHL, POP and POPL take any register as their stack pointer. `Machine.stackCycles` are
the accesses that such a form makes on its stack, and `StacksInSegment` says where they belong when
addresses have no segment of their own. `KeepsSegment` says what moving a pointer leaves alone
when they do.
-/

namespace C900

/-! ## The forms -/

namespace StackMode

/-- The form writes its stack words. -/
def pushes : StackMode → Bool
  | .push | .pushL | .pushSrc | .pushLSrc | .pushImm => true
  | .pop | .popL | .popDst | .popLDst => false

/-- The form moves two words. -/
def long : StackMode → Bool
  | .pushL | .popL | .pushLSrc | .popLDst => true
  | .push | .pop | .pushSrc | .popDst | .pushImm => false

/-- The kind of the stack accesses. -/
def kind (mode : StackMode) : Access := if mode.pushes then .write else .read

/-- The bytes that the form moves its pointer by. -/
def bytes (mode : StackMode) : Nat := if mode.long then 4 else 2

/-- The bytes below the pointer that the form needs. -/
def reserved (mode : StackMode) : Nat := if mode.pushes then mode.bytes else 0

/-- The offsets of the stack words beside a pointer. -/
def offsets (mode : StackMode) (pointer : Word) : List Word :=
  match mode.pushes, mode.long with
  | true, true => [pointer - 4, pointer - 2]
  | true, false => [pointer - 2]
  | false, true => [pointer, pointer + 2]
  | false, false => [pointer]

end StackMode

/-- The register that a stack form has its pointer in. -/
def Cpu.stackReg (c : Cpu) : Reg := nib2 (c.opcode 0)

/-- The accesses of a form to its stack. -/
def Machine.stackCycles (m : Machine) (w : CtrlWord) : List (Access × Byte × Word) :=
  (m.cycles (execute w m).2).filter (·.1 = w.stkMode.kind)

/-- The stack accesses of a form are beside its pointer in the segment of the program counter, and
are those of the implicit stack when its pointer is R15. -/
structure Machine.StacksInSegment (m : Machine) (w : CtrlWord) : Prop where
  words : m.stackCycles w = (w.stkMode.offsets (m.cpu.rw m.cpu.stackReg)).map
    fun offset => (w.stkMode.kind, segOf m.cpu.pc, offset)
  push : m.cpu.stackReg = 15 → w.stkMode.pushes = true → w.stkMode.long = false →
    ∀ v, m.stackCycles w = m.cycles (pushWord v m).2
  pop : m.cpu.stackReg = 15 → w.stkMode.pushes = false → w.stkMode.long = false →
    m.stackCycles w = m.cycles (popWord m).2

/-! ## Borrowing from the segment -/

/-- Subtracting from a whole address borrows from its segment when the offset is too small. -/
theorem segOf_sub_iff (s o : Word) (n : Long) (small : n.toNat ≤ 65536) :
    segOf ((s ++ o : Long) - n) = segOf (s ++ o) ↔ n.toNat ≤ o.toNat := by
  have whole : ((s ++ o : Long)).toNat = s.toNat * 65536 + o.toNat := by
    rw [BitVec.toNat_append, ← Nat.shiftLeft_add_eq_or_of_lt o.isLt, Nat.shiftLeft_eq]
  have number : ∀ a : Long, (segOf a).toNat = a.toNat / 65536 % 128 := by
    intro a
    have mask : (a >>> 16 &&& 0x7F : Long).toNat = a.toNat / 65536 % 128 := by
      rw [BitVec.toNat_and, BitVec.toNat_ushiftRight, Nat.shiftRight_eq_div_pow]
      exact Nat.and_two_pow_sub_one_eq_mod _ 7
    rw [segOf, BitVec.toNat_setWidth, mask]
    omega
  have high := s.isLt
  have low := o.isLt
  rw [← BitVec.toNat_inj, number, number, BitVec.toNat_sub, whole]
  omega

/-- The offset of the difference. -/
theorem offOf_sub (s o : Word) (n : Long) : offOf ((s ++ o : Long) - n) = o - n.setWidth 16 := by
  rw [offOf, BitVec.sub_eq_add_neg, BitVec.setWidth_add _ _ (by decide),
    BitVec.setWidth_neg_of_le (by decide), low_append, BitVec.sub_eq_add_neg]

namespace Cpu

variable (c : Cpu) (nonseg : c.seg = false)

include nonseg

/-- A pointer register in the segment of the program counter. -/
theorem addrFromReg_nonseg (r : Reg) : c.addrFromReg r = (segmentHalf c.pc &&& 0x7F) ++ c.rw r := by
  rw [addrFromReg, if_neg (Bool.not_eq_true _ ▸ nonseg), c.pcSegment_or]

theorem segOf_addrFromReg (r : Reg) :
    segOf (c.addrFromReg r) = segOf c.pc ∧ offOf (c.addrFromReg r) = c.rw r := by
  rw [addrFromReg, if_neg (Bool.not_eq_true _ ▸ nonseg)]
  exact segOf_pcSegment c (c.rw r)

/-- The bytes reserved below a pointer are in its segment when the offset has room for them. -/
theorem segOf_reserveAddr_iff (r : Reg) (n : Long) (small : n.toNat ≤ 65536) :
    segOf (c.reserveAddr r n) = segOf c.pc ↔ n.toNat ≤ (c.rw r).toNat := by
  have here := (c.segOf_addrFromReg nonseg r).1
  rw [reserveAddr, if_neg (Bool.not_eq_true _ ▸ nonseg)]
  rw [c.addrFromReg_nonseg nonseg] at here ⊢
  rw [← here]
  exact segOf_sub_iff _ _ n small

theorem offOf_reserveAddr (r : Reg) (n : Long) :
    offOf (c.reserveAddr r n) = c.rw r - n.setWidth 16 := by
  rw [reserveAddr, if_neg (Bool.not_eq_true _ ▸ nonseg), c.addrFromReg_nonseg nonseg]
  exact offOf_sub _ _ n

end Cpu

/-! ## The stack accesses -/

/-- The lowest address that a form has on its stack. -/
def Cpu.stackBase (c : Cpu) (mode : StackMode) : Long :=
  if mode.pushes then c.reserveAddr c.stackReg (BitVec.ofNat 32 mode.bytes)
  else c.addrFromReg c.stackReg

/-- The width of what a form moves. -/
def StackMode.width (mode : StackMode) : Width := if mode.long then .long else .word

/-- The accesses of the stack forms: the operand of a push is read before, and that of a pop is
written behind the stack words. -/
theorem execStack_cycling (w : CtrlWord) (m : Machine) :
    ∃ before behind, Cycling (execStack w) m (before ++ (places w.stkMode.kind
        (segOf (m.cpu.stackBase w.stkMode)) (offOf (m.cpu.stackBase w.stkMode)) w.stkMode.width ++
        behind)) ∧
      ∀ c ∈ before ++ behind, c.1 ≠ w.stkMode.kind := by
  unfold execStack
  cases w.stkMode with
  | push =>
    refine ⟨[], [], .listed ?_ (.bind .get (.bind (.modify _) (.memW16 _ _))), by simp⟩
    rfl
  | pop =>
    refine ⟨[], [], .listed ?_ (.bind .get (.bind (.modify _) (.bind (.memR16 _) (.modify _)))),
      by simp⟩
    rfl
  | pushL =>
    refine ⟨[], [], .listed ?_ (.bind .get (.bind (.modify _) (.writeLong _ _ _))), by simp⟩
    exact (List.append_nil _).symm
  | popL =>
    refine ⟨[], [], .listed ?_ (.bind .get (.bind (.modify _) (.readLong _ (.modify _)))), by simp⟩
    rfl
  | pushSrc =>
    let operand := m.cpu.usrcAddr w
    refine ⟨[(.read, segOf operand, offOf operand)], [], .listed ?_
      (.bind .get (.bind (.memR16 _) (.bind (.modify _) (.memW16 _ _)))),
      by simp [StackMode.kind, StackMode.pushes]⟩
    rfl
  | popDst =>
    let operand := (m.cpu.release m.cpu.stackReg 2).udstAddr w
    refine ⟨[], [(.write, segOf operand, offOf operand)], .listed ?_
      (.bind .get (.bind (.modify _) (.bind (.memR16 _) (.memW16 _ _)))),
      by simp [StackMode.kind, StackMode.pushes]⟩
    rfl
  | pushLSrc =>
    let c := m.cpu
    let base := if w.src2 = .ir then c.addrFromReg (Cpu.pairReg (nib3 (c.opcode 0)))
      else c.usrcAddr w
    refine ⟨places .read (segOf base) (offOf base) .long, [], .listed ?_
      (.bind .get (.readLong _ (.bind (.modify _) (.writeLong _ _ _)))),
      by simp [places, StackMode.kind, StackMode.pushes]⟩
    exact congrArg (places .read (segOf base) (offOf base) .long ++ ·) (List.append_nil _).symm
  | popLDst =>
    let c := m.cpu.release m.cpu.stackReg 4
    let base := if w.dst = .ir then c.addrFromReg (Cpu.pairReg (nib3 (m.cpu.opcode 0)))
      else c.udstAddr w
    refine ⟨[], places .write (segOf base) (offOf base) .long, .listed ?_
      (.bind .get (.bind (.modify _) (.readLong _ (.writeLong _ _ _)))),
      by simp [places, StackMode.kind, StackMode.pushes]⟩
    rfl
  | pushImm =>
    refine ⟨[], [], .listed ?_ (.bind .get (.bind (.modify _) (.memW16 _ _))), by simp⟩
    rfl

theorem places_kind {kind : Access} {segment : Byte} {offset : Word} {width : Width} :
    ∀ c ∈ places kind segment offset width, c.1 = kind := by
  cases width <;> simp [places]

/-- A form accesses one or two words of its stack. -/
theorem stackCycles_eq (m : Machine) {w : CtrlWord} (form : w.exec = .stack) :
    m.stackCycles w = places w.stkMode.kind (segOf (m.cpu.stackBase w.stkMode))
      (offOf (m.cpu.stackBase w.stkMode)) w.stkMode.width := by
  have run : execute w m = execStack w m := by
    unfold execute
    rw [form]
  obtain ⟨before, behind, cycling, others⟩ := execStack_cycling w m
  have none : ∀ list : List (Access × Byte × Word), (∀ c ∈ list, c ∈ before ++ behind) →
      list.filter (·.1 = w.stkMode.kind) = [] := by
    intro list within
    rw [List.filter_eq_nil_iff]
    intro c member
    simpa using others c (within c member)
  have all : ∀ c ∈ places w.stkMode.kind (segOf (m.cpu.stackBase w.stkMode))
      (offOf (m.cpu.stackBase w.stkMode)) w.stkMode.width, decide (c.1 = w.stkMode.kind) = true :=
    fun c member => decide_eq_true (places_kind c member)
  rw [Machine.stackCycles, run, cycling.cycles, List.filter_append, List.filter_append,
    List.filter_eq_self.mpr all, none before fun c => List.mem_append_left _,
    none behind fun c => List.mem_append_right _, List.append_nil, List.nil_append]

/-! ## The forms without segments -/

/-- The stack words of a form from the lowest on. -/
theorem places_offsets (mode : StackMode) (kind : Access) (segment : Byte) (pointer : Word) :
    places kind segment (pointer - BitVec.ofNat 16 mode.reserved) mode.width =
      (mode.offsets pointer).map fun offset => (kind, segment, offset) := by
  have second : pointer - 4#16 + 2#16 = pointer - 2#16 := by bv_omega
  cases mode <;> simp [places, StackMode.width, StackMode.offsets, StackMode.pushes, StackMode.long,
    StackMode.reserved, StackMode.bytes, second]

/-- The segments of a list of accesses tell where they start. -/
theorem places_segment {kind : Access} {s t : Byte} {offset : Word} {width : Width}
    (same : places kind s offset width = places kind t offset width) : s = t := by
  cases width <;> simp_all [places]

section

variable (m : Machine) (nonseg : m.cpu.seg = false)

include nonseg

/-- The implicit push is at a 16-bit offset below R15. -/
theorem pushWord_cycles (v : Word) :
    m.cycles (pushWord v m).2 = [(.write, segOf m.cpu.pc, m.cpu.rw 15 - 2)] := by
  have stack : m.cpu.spReg = 15 := by rw [Cpu.spReg, if_neg (Bool.not_eq_true _ ▸ nonseg)]
  obtain ⟨segment, offset⟩ := segOf_pcSegment m.cpu (m.cpu.rw 15 - 2)
  let a := m.cpu.pcSegment ||| (m.cpu.rw m.cpu.spReg - 2).setWidth 32
  have run : Cycling (pushWord v) m [(.write, segOf a, offOf a)] := by
    unfold pushWord
    refine .listed ?_ (.bind .get (.ite (fun form => ?_) fun _ => .bind (.modify _) (.memW16 _ _)))
    · rfl
    · exact absurd (form.symm.trans nonseg) Bool.noConfusion
  rw [run.cycles, ← offset, ← segment]
  simp only [a, stack, segment, offset]

/-- The implicit pop is at R15. -/
theorem popWord_cycles : m.cycles (popWord m).2 = [(.read, segOf m.cpu.pc, m.cpu.rw 15)] := by
  have stack : m.cpu.spReg = 15 := by rw [Cpu.spReg, if_neg (Bool.not_eq_true _ ▸ nonseg)]
  obtain ⟨segment, offset⟩ := segOf_pcSegment m.cpu (m.cpu.rw 15)
  let a := m.cpu.pcSegment ||| (m.cpu.rw m.cpu.spReg).setWidth 32
  have run : Cycling popWord m [(.read, segOf a, offOf a)] := by
    unfold popWord
    refine .listed ?_ (.bind .get (.ite (fun form => ?_) fun _ =>
      .bind (.memR16 _) (.bind (.modify _) (.pure _))))
    · rfl
    · exact absurd (form.symm.trans nonseg) Bool.noConfusion
  rw [run.cycles]
  simp only [a, stack, segment, offset]

/-- The address of a stack form is where it belongs exactly when the bytes that it reserves are
there below its pointer. -/
theorem stackBase_iff (mode : StackMode) :
    (segOf (m.cpu.stackBase mode) = segOf m.cpu.pc ↔
      mode.reserved ≤ (m.cpu.rw m.cpu.stackReg).toNat) ∧
    offOf (m.cpu.stackBase mode) =
      m.cpu.rw m.cpu.stackReg - BitVec.ofNat 16 mode.reserved := by
  unfold Cpu.stackBase StackMode.reserved
  cases pushes : mode.pushes with
  | false =>
    obtain ⟨segment, offset⟩ := m.cpu.segOf_addrFromReg nonseg m.cpu.stackReg
    simp [segment, offset]
  | true =>
    have bytes : mode.bytes = 2 ∨ mode.bytes = 4 := by
      cases mode <;> simp [StackMode.bytes, StackMode.long]
    have number : (BitVec.ofNat 32 mode.bytes).toNat = mode.bytes := by
      rcases bytes with two | four
      · rw [two]; rfl
      · rw [four]; rfl
    have narrow : (BitVec.ofNat 32 mode.bytes).setWidth 16 = BitVec.ofNat 16 mode.bytes := by
      rcases bytes with two | four
      · rw [two]; rfl
      · rw [four]; rfl
    have place := m.cpu.segOf_reserveAddr_iff nonseg m.cpu.stackReg (BitVec.ofNat 32 mode.bytes)
      (by omega)
    have offset := m.cpu.offOf_reserveAddr nonseg m.cpu.stackReg (BitVec.ofNat 32 mode.bytes)
    rw [number] at place
    rw [narrow] at offset
    exact ⟨place, offset⟩

/-- The stack forms agree with the implicit stack exactly when the bytes that they reserve do not
reach below the start of the segment. -/
theorem stacksInSegment_iff {w : CtrlWord} (form : w.exec = .stack) :
    m.StacksInSegment w ↔ w.stkMode.reserved ≤ (m.cpu.rw m.cpu.stackReg).toNat := by
  obtain ⟨place, offset⟩ := stackBase_iff m nonseg w.stkMode
  have accesses := stackCycles_eq m form
  have belongs := places_offsets w.stkMode w.stkMode.kind (segOf m.cpu.pc) (m.cpu.rw m.cpu.stackReg)
  rw [offset] at accesses
  constructor
  · intro inSegment
    have same := inSegment.words
    rw [accesses, ← belongs] at same
    exact place.mp (places_segment same)
  · intro room
    rw [place.mpr room, belongs] at accesses
    refine ⟨accesses, ?_, ?_⟩
    · intro stack pushes short v
      rw [accesses, pushWord_cycles m nonseg, stack]
      simp [StackMode.offsets, StackMode.kind, pushes, short]
    · intro stack pops short
      rw [accesses, popWord_cycles m nonseg, stack]
      simp [StackMode.offsets, StackMode.kind, pops, short]

end

/-- PUSH @R15,R0 fetched with R15 at the start of segment 5. -/
def emptyStack : Machine :=
  { (default : Machine) with
    cpu := { (default : Cpu) with
      pc := 0x050002
      opcode := fun i => if i = 0 then 0x93F0 else 0 } }

/-- The push goes to the top of segment 4, and that of a call to the top of segment 5. -/
theorem emptyStack_borrows :
    ∃ w, decodeLookup 0x93F0 0 1 = some w ∧ w.exec = .stack ∧ emptyStack.cpu.seg = false ∧
      emptyStack.stackCycles w = [(.write, 4, 0xFFFE)] ∧
      emptyStack.cycles (pushWord 0 emptyStack).2 = [(.write, 5, 0xFFFE)] ∧
      ¬emptyStack.StacksInSegment w := by
  have accesses : emptyStack.stackCycles { name := "PUSH", exec := .stack, stkMode := .push } =
      [(.write, 4, 0xFFFE)] := by
    decide
  refine ⟨{ name := "PUSH", exec := .stack, stkMode := .push }, rfl, rfl, by decide, accesses,
    by decide, fun inSegment => ?_⟩
  have words := inSegment.words
  rw [accesses] at words
  exact absurd words (by decide)

/-- POPL @R15,RR2 with a pointer in the middle of the segment. -/
theorem stacksInSegment_iff_popL :
    let m : Machine := { emptyStack with cpu := emptyStack.cpu.ww 15 0x8000 }
    m.StacksInSegment { name := "POPL", exec := .stack, stkMode := .popL } :=
  (stacksInSegment_iff { emptyStack with cpu := emptyStack.cpu.ww 15 0x8000 } (by decide) rfl).mpr
    (by decide)

/-! ## Moving a segmented pointer -/

namespace Cpu

variable (c : Cpu) (segmented : c.seg = true)

/-- The even register of the pair keeps its segment bits, the odd one moves. -/
def movePair (pair : Reg) (n : Word) : Cpu :=
  (c.ww pair (c.rw pair &&& segmentBits)).ww (pair + 1) (c.rw (pair + 1) + n)

include segmented

theorem addrFromReg_pair (r : Reg) :
    c.addrFromReg r = internalAddr (c.rw (pairReg r)) (c.rw (pairReg r + 1)) := by
  rw [addrFromReg, if_pos segmented]
  exact segAddr_append _ _

theorem addrToReg_pair (r : Reg) (hi lo : Word) :
    c.addrToReg r (internalAddr hi lo) =
      (c.ww (pairReg r) (hi &&& segmentBits)).ww (pairReg r + 1) lo := by
  have low : (internalAddr hi lo).setWidth 16 = lo := low_append _ _
  rw [addrToReg, if_pos segmented, segmentBits_internalAddr, low]

theorem reserve_pair (r : Reg) (n : Long) :
    c.reserve r n = c.movePair (pairReg r) (-(n.setWidth 16)) := by
  rw [reserve, if_pos segmented, reserveAddr, if_pos segmented, c.addrFromReg_pair segmented,
    addrSub_internalAddr, c.addrToReg_pair segmented, BitVec.sub_eq_add_neg]
  rfl

theorem release_pair (r : Reg) (n : Long) :
    c.release r n = c.movePair (pairReg r) (n.setWidth 16) := by
  rw [release, if_pos segmented, c.addrFromReg_pair segmented, addrAdd_internalAddr,
    c.addrToReg_pair segmented]
  rfl

end Cpu

/-! ## What stays -/

/-- The bits of an even register that are not of its segment number. -/
def tagBits : Word := 0x80FF

theorem segmentBits_iff (x : Word) : x &&& segmentBits = x ↔ x &&& tagBits = 0 := by
  have split : (x &&& segmentBits) ||| (x &&& tagBits) = x := by
    rw [← BitVec.and_or_distrib_left, show segmentBits ||| tagBits = BitVec.allOnes 16 by decide,
      BitVec.and_allOnes]
  have apart : (x &&& segmentBits) &&& tagBits = 0 := by
    rw [BitVec.and_assoc, show segmentBits &&& tagBits = 0#16 by decide]
    exact BitVec.and_zero
  constructor
  · intro same
    rwa [same] at apart
  · intro none
    rw [none] at split
    rw [← BitVec.or_zero (x := x &&& segmentBits)]
    exact split

/-- The registers that a stack form loads with what it pops. -/
def CtrlWord.popped (w : CtrlWord) (c : Cpu) : List Reg :=
  let data := nib3 (c.opcode 0)
  match w.stkMode with
  | .pop => [data]
  | .popL => [Cpu.pairReg data, Cpu.pairReg data + 1]
  | .push | .pushL | .pushSrc | .popDst | .pushLSrc | .popLDst | .pushImm => []

/-- The distance that a form moves its pointer. -/
def StackMode.distance (mode : StackMode) : Word :=
  if mode.pushes then -BitVec.ofNat 16 mode.bytes else BitVec.ofNat 16 mode.bytes

theorem memR16_rw (a : Long) (m : Machine) (r : Reg) : (memR16 a m).2.cpu.rw r = m.cpu.rw r := rfl

theorem memW16_rw (a : Long) (v : Word) (m : Machine) (r : Reg) :
    (memW16 a v m).2.cpu.rw r = m.cpu.rw r := rfl

/-- A stack form moves its pointer and loads what it pops. -/
theorem execStack_rw (m : Machine) (segmented : m.cpu.seg = true) (w : CtrlWord) {r : Reg}
    (kept : r ∉ w.popped m.cpu) : (execStack w m).2.cpu.rw r =
      (m.cpu.movePair (Cpu.pairReg m.cpu.stackReg) w.stkMode.distance).rw r := by
  -- a refused operand read sets the fault flag before the pointer moves
  have reserve : ∀ fault n, (({ m.cpu with fault := fault }).reserve m.cpu.stackReg n).rw r =
      (m.cpu.movePair (Cpu.pairReg m.cpu.stackReg) (-n.setWidth 16)).rw r := by
    intro fault n
    rw [Cpu.reserve_pair { m.cpu with fault := fault } segmented]
    rfl
  have release : ∀ n, (m.cpu.release m.cpu.stackReg n).rw r =
      (m.cpu.movePair (Cpu.pairReg m.cpu.stackReg) (n.setWidth 16)).rw r := by
    intro n
    rw [m.cpu.release_pair segmented]
  unfold CtrlWord.popped at kept
  unfold execStack
  cases mode : w.stkMode with
  | push | pushSrc | pushImm =>
    simp only [StateM.bind_apply, memW16_rw]
    exact reserve _ 2
  | pushL | pushLSrc =>
    simp only [StateM.bind_apply, memW16_rw]
    exact reserve _ 4
  | popDst =>
    simp only [StateM.bind_apply, memW16_rw, memR16_rw]
    exact release 2
  | popLDst =>
    simp only [StateM.bind_apply, memW16_rw, memR16_rw]
    exact release 4
  | pop =>
    rw [mode, List.mem_singleton] at kept
    exact (Function.update_of_ne kept _ _).trans (release 2)
  | popL =>
    rw [mode, List.mem_cons, List.mem_singleton, not_or] at kept
    obtain ⟨notHigh, notLow⟩ := kept
    refine (Function.update_of_ne notLow _ _).trans ((Function.update_of_ne notHigh _ _).trans ?_)
    exact release 4

/-- What a moved pair keeps beside its odd register. -/
theorem Cpu.movePair_rw (c : Cpu) (pair : Reg) (n : Word) {r : Reg} (notOdd : r ≠ pair + 1) :
    (c.movePair pair n).rw r = if r = pair then c.rw pair &&& segmentBits else c.rw r := by
  unfold movePair
  exact (Function.update_of_ne notOdd _ _).trans (Function.update_apply ..)

/-- Clearing the tag bits of one register keeps the others, and this one too exactly when it has
none. -/
theorem keeps_iff {R S : Reg → Word} {pair : Reg} (moved : Reg → Prop) (notMoved : ¬moved pair)
    (cleared : ∀ r, ¬moved r → S r = if r = pair then R pair &&& segmentBits else R r) :
    (∀ r, ¬moved r → S r = R r) ↔ R pair &&& tagBits = 0 := by
  rw [← segmentBits_iff]
  constructor
  · intro kept
    have here := kept pair notMoved
    rwa [cleared pair notMoved, if_pos rfl] at here
  · intro clean r notMoved
    rw [cleared r notMoved]
    split_ifs with same
    · rw [clean, same]
    · rfl

/-! ## The operations that move a pointer -/

/-- What remains of the registers and the copies of the stack pointers when the offset of the
system stack changes. -/
structure Cpu.KeepsCopies (c d : Cpu) : Prop where
  registers : ∀ r, r ≠ 14 → r ≠ 15 → d.rw r = c.rw r
  n14 : d.banked.n14 = c.banked.n14
  s14 : d.banked.s14 = c.banked.s14
  n15 : d.banked.n15 = c.banked.n15

/-- An operation that moves a pointer. -/
inductive PointerOp where
  /-- PUSH, PUSHL, POP and POPL. -/
  | stack (w : CtrlWord) (form : w.exec = .stack)
  /-- CALL and CALR. -/
  | call (w : CtrlWord) (form : w.exec = .branch) (calls : w.brMode.isCall = true)
  /-- RET. -/
  | ret (w : CtrlWord) (form : w.exec = .branch) (returns : w.brMode = .ret)
  /-- A trap or an interrupt. -/
  | trap (source : TrapSource)
  /-- IRET. -/
  | iret (w : CtrlWord) (form : w.exec = .iret)

namespace PointerOp

/-- The machine after the operation. -/
def run : PointerOp → Machine → Machine
  | .stack w _, m | .call w _ _, m | .ret w _ _, m | .iret w _, m => (execute w m).2
  | .trap source, m => (enterTrap source m).2

/-- The operation changes the offset of its pointer, what a pop loads, and no other register. A
trap entry and a return from one exchange R14 and R15 with their copies, and keep the copies. -/
def KeepsSegment (op : PointerOp) (m : Machine) : Prop :=
  match op with
  | .stack w _ => ∀ r, ¬(r = Cpu.pairReg m.cpu.stackReg + 1 ∨ r ∈ w.popped m.cpu) →
      (op.run m).cpu.rw r = m.cpu.rw r
  | .call .. | .ret .. => ∀ r, ¬r = 15 → (op.run m).cpu.rw r = m.cpu.rw r
  | .trap _ | .iret .. => m.cpu.KeepsCopies (op.run m).cpu

/-- The even register of the pointer has no bits beside its segment number, or the operation does
not move the pointer, or loads that register. -/
def Clean (op : PointerOp) (m : Machine) : Prop :=
  match op with
  | .stack w _ => Cpu.pairReg m.cpu.stackReg ∈ w.popped m.cpu ∨
      m.cpu.rw (Cpu.pairReg m.cpu.stackReg) &&& tagBits = 0
  | .call .. => m.cpu.rw 14 &&& tagBits = 0
  | .ret .. => m.cpu.condTrue (nib3 (m.cpu.opcode 0)) = false ∨ m.cpu.rw 14 &&& tagBits = 0
  | .trap _ => m.cpu.banked.s14 &&& tagBits = 0
  | .iret .. => m.cpu.sysmode = false ∨ m.cpu.rw 14 &&& tagBits = 0

end PointerOp

/-! ## The implicit stack -/

theorem moveSp_rw (c : Cpu) (segmented : c.seg = true) (n : Word) {r : Reg} (notOdd : r ≠ 15) :
    (c.moveSp n).rw r = if r = 14 then c.rw 14 &&& segmentBits else c.rw r := by
  have pair : c.moveSp n = c.movePair 14 n := by rw [Cpu.moveSp, if_pos segmented, Cpu.movePair]; rfl
  rw [pair]
  exact c.movePair_rw 14 n notOdd

/-- Two moves of the stack pointer. -/
theorem moveTwice_rw {c d e : Cpu} (segmented : c.seg = true) {n k : Word}
    (first : (c.moveSp n).SameButFault d) (second : (d.moveSp k).SameButFault e) {r : Reg}
    (notOdd : r ≠ 15) : e.rw r = if r = 14 then c.rw 14 &&& segmentBits else c.rw r := by
  have between : ∀ s : Reg, s ≠ 15 → d.rw s = if s = 14 then c.rw 14 &&& segmentBits else c.rw s := by
    intro s notOdd
    obtain ⟨fault, rfl⟩ := first
    exact moveSp_rw c segmented n notOdd
  have form : d.seg = true := by
    obtain ⟨fault, rfl⟩ := first
    show (c.moveSp n).seg = true
    unfold Cpu.moveSp
    rw [if_pos segmented]
    exact segmented
  have behind := moveSp_rw d form k notOdd
  obtain ⟨fault, rfl⟩ := second
  refine behind.trans ?_
  rw [between 14 (by decide), between r notOdd, if_pos rfl]
  split_ifs
  · rw [BitVec.and_assoc, BitVec.and_self]
  · rfl

theorem execCall_rw (m : Machine) (segmented : m.cpu.seg = true) (t : Long) {r : Reg}
    (notOdd : r ≠ 15) : (execCall t m).2.cpu.rw r =
      if r = 14 then m.cpu.rw 14 &&& segmentBits else m.cpu.rw r := by
  let low := m.cpu.pc.setWidth 16
  let high := (makeSeg m.cpu.pc >>> 16).setWidth 16
  have moved := moveTwice_rw segmented (pushWord_cpu low m)
    (pushWord_cpu high (pushWord low m).2) notOdd
  unfold execCall
  simp only [StateM.bind_apply, getCpu, segmented, if_true]
  exact moved

theorem execRet_rw (m : Machine) (segmented : m.cpu.seg = true) {r : Reg} (notOdd : r ≠ 15) :
    (execRet m).2.cpu.rw r = if r = 14 then m.cpu.rw 14 &&& segmentBits else m.cpu.rw r := by
  have moved := moveTwice_rw segmented (popWord_cpu m) (popWord_cpu (popWord m).2) notOdd
  unfold execRet
  simp only [StateM.bind_apply, getCpu, segmented, if_true]
  exact moved

/-- The CALL forms differ in their targets only. -/
theorem execBranch_execCall {w : CtrlWord} (calls : w.brMode.isCall = true) (m : Machine) :
    ∃ t, execBranch w m = execCall t m := by
  unfold execBranch
  cases form : w.brMode with
  | callDa | callX | callIr | calr | calr12 => exact ⟨_, rfl⟩
  | _ =>
    rw [form] at calls
    exact absurd calls Bool.false_ne_true

/-! ## Trap entries and returns from them -/

/-- The copies that a processor shows are those that it holds. -/
theorem Banked.Shows.banked {b : Banked} {c : Cpu} (shows : b.Shows c) : c.banked = b := by
  unfold Cpu.banked
  rw [shows.system, shows.seg, shows.r14, shows.r15, shows.nspseg, shows.nspoff]
  clear shows
  obtain ⟨n14, s14, n15, s15, system, seg⟩ := b
  cases system <;> cases seg <;> rfl

/-- The registers below R14 are the same. -/
def Cpu.SameLow (c d : Cpu) : Prop := ∀ r, r ≠ 14 → r ≠ 15 → d.rw r = c.rw r

namespace Cpu.SameLow

theorem trans {c d e : Cpu} (first : c.SameLow d) (second : d.SameLow e) : c.SameLow e :=
  fun r not14 not15 => (second r not14 not15).trans (first r not14 not15)

theorem ofFault {c d : Cpu} (same : c.SameButFault d) : c.SameLow d := by
  obtain ⟨fault, rfl⟩ := same
  exact fun r _ _ => rfl

theorem moveSp (c : Cpu) (n : Word) : c.SameLow (c.moveSp n) :=
  fun _ not14 not15 => c.moveSp_R n not14 not15

theorem changeFcw (c : Cpu) (nf : Word) : c.SameLow (c.changeFcw nf) :=
  fun _ not14 not15 => c.changeFcw_R nf not14 not15

theorem reserve (c : Cpu) (a : Long) : c.SameLow (c.addrToReg c.spReg a) := by
  intro r not14 not15
  unfold Cpu.addrToReg
  split_ifs with form
  · have stack : c.spReg = 14 := by rw [Cpu.spReg, if_pos form]
    rw [stack]
    exact (Function.update_of_ne not15 _ _).trans (Function.update_of_ne not14 _ _)
  · have stack : c.spReg = 15 := by rw [Cpu.spReg, if_neg form]
    rw [stack]
    exact Function.update_of_ne not15 _ _

theorem entryRelation : EntryRelation SameLow where
  trans := trans
  ofFault := ofFault
  moveSp := moveSp
  reserve := reserve
  changeFcw := changeFcw
  course _ _ _ _ _ _ _ := rfl

end Cpu.SameLow

theorem enterTrap_sameLow (source : TrapSource) (m : Machine) :
    m.cpu.SameLow (enterTrap source m).2.cpu := by
  have entered : m.cpu.SameLow (m.cpu.enter source) := .changeFcw m.cpu _
  have stages := Cpu.SameLow.entryRelation
  rw [enterTrap_apply]
  exact (entered.trans (stages.pushFrame _ _ { m with cpu := m.cpu.enter source })).trans
    (stages.loadHandler source m.cpu _)

theorem execIret_sameLow (m : Machine) (system : m.cpu.sysmode = true)
    (segmented : m.cpu.seg = true) : m.cpu.SameLow (execIret m).2.cpu := by
  let tag := popWord m
  let nf := popWord tag.2
  let hi := popWord nf.2
  let lo := popWord hi.2
  have stages := Cpu.SameLow.entryRelation
  have popped : m.cpu.SameLow lo.2.cpu := (((stages.popWord m).trans (stages.popWord tag.2)).trans
    (stages.popWord nf.2)).trans (stages.popWord hi.2)
  have shows := popWord_shows (popWord_shows m.cpu.banked_shows system) system
  rw [execIret_seg m system (shows.seg.trans segmented)]
  exact popped.trans (.changeFcw { lo.2.cpu with pc := segAddr (hi.1 ++ lo.1) } nf.1)

/-- The copies behind an operation that moves the system stack and loads a mode. -/
theorem keepsCopies_iff {c d : Cpu} (low : c.SameLow d) (entry : Word) {n nf : Word}
    (segmented : (c.banked.mode entry).seg = true)
    (shows : (((c.banked.mode entry).moveSystem n).mode nf).Shows d) :
    c.KeepsCopies d ↔ c.banked.s14 &&& tagBits = 0 := by
  have after := shows.banked
  have s14 : d.banked.s14 = c.banked.s14 &&& segmentBits := by
    rw [after]
    exact if_pos segmented
  have n14 : d.banked.n14 = c.banked.n14 := by rw [after]; rfl
  have n15 : d.banked.n15 = c.banked.n15 := by rw [after]; rfl
  rw [← segmentBits_iff, ← s14]
  exact ⟨fun keeps => keeps.s14, fun same => ⟨low, n14, same, n15⟩⟩

/-- A segmented operation moves the offset of its pointer alone exactly when the even register of the
pointer has no bits beside its segment number. -/
theorem keepsSegment_iff (m : Machine) (segmented : m.cpu.seg = true) (op : PointerOp) :
    op.KeepsSegment m ↔ op.Clean m := by
  cases op with
  | stack w form =>
    have run : execute w m = execStack w m := by
      unfold execute
      rw [form]
    let pair := Cpu.pairReg m.cpu.stackReg
    have moved : ∀ r, ¬(r = pair + 1 ∨ r ∈ w.popped m.cpu) → ((execute w m).2.cpu.rw r =
        if r = pair then m.cpu.rw pair &&& segmentBits else m.cpu.rw r) := by
      intro r kept
      rw [not_or] at kept
      rw [run, execStack_rw m segmented w kept.2]
      exact m.cpu.movePair_rw pair _ kept.1
    by_cases loads : pair ∈ w.popped m.cpu
    · refine iff_of_true (fun r kept => ?_) (.inl loads)
      have other : r ≠ pair := fun same => kept (.inr (same ▸ loads))
      exact (moved r kept).trans (if_neg other)
    · have notOdd : pair ≠ pair + 1 := by simp
      have notMoved : ¬(pair = pair + 1 ∨ pair ∈ w.popped m.cpu) := not_or.mpr ⟨notOdd, loads⟩
      exact (keeps_iff _ notMoved moved).trans (or_iff_right loads).symm
  | call w form calls =>
    have run : execute w m = execBranch w m := by
      unfold execute
      rw [form]
    obtain ⟨t, isCall⟩ := execBranch_execCall calls m
    refine keeps_iff (· = 15) (show ¬(14 : Reg) = 15 by decide) fun r notOdd => ?_
    show (execute w m).2.cpu.rw r = _
    rw [run, isCall]
    exact execCall_rw m segmented t notOdd
  | ret w form returns =>
    have run : execute w m = execBranch w m := by
      unfold execute
      rw [form]
    have branch : execBranch w m =
        (if m.cpu.condTrue (nib3 (m.cpu.opcode 0)) then execRet else pure ()) m := by
      unfold execBranch
      rw [returns]
      rfl
    cases taken : m.cpu.condTrue (nib3 (m.cpu.opcode 0)) with
    | false =>
      refine iff_of_true (fun r _ => ?_) (.inl taken)
      show (execute w m).2.cpu.rw r = _
      rw [run, branch, taken]
      rfl
    | true =>
      have notTaken : ¬m.cpu.condTrue (nib3 (m.cpu.opcode 0)) = false := by simp [taken]
      have moved : ∀ r : Reg, ¬r = 15 → (execute w m).2.cpu.rw r =
          if r = 14 then m.cpu.rw 14 &&& segmentBits else m.cpu.rw r := by
        intro r notOdd
        rw [run, branch, taken, if_pos rfl]
        exact execRet_rw m segmented notOdd
      exact (keeps_iff (· = 15) (show ¬(14 : Reg) = 15 by decide) moved).trans (or_iff_right notTaken).symm
  | trap source =>
    exact keepsCopies_iff (enterTrap_sameLow source m) (fcwSn ||| fcwSeg) rfl
      (enterTrap_shows source m.cpu.banked_shows)
  | iret w form =>
    have run : execute w m = execIret m := by
      unfold execute
      rw [form]
    show m.cpu.KeepsCopies (execute w m).2.cpu ↔ _
    rw [run]
    cases system : m.cpu.sysmode with
    | false =>
      refine iff_of_true ?_ (.inl system)
      have requested : (execIret m).2.cpu = m.cpu.request irqTrap := by
        rw [execIret, privileged_user _ m system]
      rw [requested]
      exact ⟨fun _ _ _ => rfl, rfl, rfl, rfl⟩
    | true =>
      have own : m.cpu.banked.s14 = m.cpu.rw 14 := by
        simp [Cpu.banked, system, segmented]
      have notNormal : ¬m.cpu.sysmode = false := by simp [system]
      have shows := execIret_shows m.cpu.banked_shows system
      have copies := keepsCopies_iff (execIret_sameLow m system segmented) m.cpu.fcw segmented shows
      rw [own] at copies
      exact copies.trans (or_iff_right notNormal).symm

/-- PUSH @RR2,R0 fetched in segmented mode, with the pointer in the form that LDL of an address
constant leaves. -/
def taggedPointer : Machine :=
  { (default : Machine) with
    cpu := { (default : Cpu) with
      fcw := fcwSeg
      R := fun r => if r = 2 then 0x8500 else if r = 3 then 0x0100 else 0
      opcode := fun i => if i = 0 then 0x9320 else 0 } }

/-- The push takes bit 15 out of R2. -/
theorem taggedPointer_loses :
    ∃ w, ∃ form : w.exec = .stack, decodeLookup 0x9320 0 1 = some w ∧ taggedPointer.cpu.seg = true ∧
      ((PointerOp.stack w form).run taggedPointer).cpu.rw 2 = 0x0500 ∧
      ¬(PointerOp.stack w form).KeepsSegment taggedPointer := by
  have lost : (execute { name := "PUSH", exec := .stack, stkMode := .push } taggedPointer).2.cpu.rw 2 =
      0x0500 := by
    decide
  refine ⟨{ name := "PUSH", exec := .stack, stkMode := .push }, rfl, rfl, by decide, lost,
    fun keeps => ?_⟩
  have kept := keeps 2 (by decide)
  exact absurd (lost.symm.trans kept) (by decide)

/-- A non-maskable interrupt with a system stack in segment 5. -/
theorem keepsSegment_iff_nmi :
    let m : Machine := { taggedPointer with cpu := { taggedPointer.cpu with nspseg := 0x0500 } }
    (PointerOp.trap nmiSource).KeepsSegment m :=
  (keepsSegment_iff { taggedPointer with cpu := { taggedPointer.cpu with nspseg := 0x0500 } }
    (by decide) (.trap nmiSource)).mpr (show (0x0500 : Word) &&& tagBits = 0 by decide)

end C900
