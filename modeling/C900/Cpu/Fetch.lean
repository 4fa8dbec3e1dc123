import C900.Cpu.Address
import C900.Cpu.Repeat
import C900.Mmu.Mapping

/-!
# What a step fetches

The first word at the program counter gives the number of words that the step
fetches; only then, when the address word turns out to be a short one, does the
instruction get its length. `Fetched` says what the fetch of the first words does,
and `fetchDecode_spec` describes the whole fetch in terms of the machine before it.
-/

namespace C900

/-! ## Words at the program counter -/

theorem addrAdd_zero (a : Long) : addrAdd a 0 = a := by
  rw [long_halves a, addrAdd_append]
  exact congrArg _ (BitVec.add_zero _)

/-- Two steps within a segment. -/
theorem addrAdd_addrAdd (a m n : Long) : addrAdd (addrAdd a m) n = addrAdd a (m + n) := by
  rw [long_halves a, addrAdd_append, addrAdd_append, addrAdd_append,
    BitVec.setWidth_add _ _ (by decide), BitVec.add_assoc]

namespace Machine

variable (m : Machine)

/-- The address of the `i`-th word at the program counter. -/
def codeAddr (i : Nat) : Long := addrAdd m.cpu.pc (BitVec.ofNat 32 (2 * i))

/-- The `i`-th word at the program counter. -/
def codeWord (i : Nat) : Word := physRead16 m.bus (m.physOf .fetch (m.codeAddr i))

/-- The unit refuses the fetch of the `i`-th word. -/
def refusesCode (i : Nat) : Bool := m.violates .fetch (m.codeAddr i)

/-- The number of words that the step fetches. -/
def fetchedWords : Nat := decodeLength (m.codeWord 0) m.cpu.seg

/-- The number of words of the instruction. -/
def occupiedWords : Nat :=
  let need := m.fetchedWords
  let need :=
    if 3 ≤ need ∧ decodeSegAddrW1 (m.codeWord 0) m.cpu.seg ∧ m.codeWord 1 &&& 0x8000 = 0 then
      need - 1 else need
  if 4 ≤ need ∧ decodeSegAddrW2 (m.codeWord 0) m.cpu.seg ∧ m.codeWord 2 &&& 0x8000 = 0 then
    need - 1 else need

/-- The opcode words behind a fetch of `n` words; the others are left over. -/
def opcodeAfter (n : Nat) (i : Fin 6) : Word := if i < n then m.codeWord i else m.cpu.opcode i

/-- The instruction at the program counter, none for an unrecognised encoding. -/
def decoded : Option CtrlWord :=
  decodeLookup (m.codeWord 0) (m.opcodeAfter m.fetchedWords 1) m.occupiedWords

/-- The unit behind the fetch of `n` words. -/
def mmuAfter : Nat → Mmu
  | 0 => m.mmu
  | n + 1 => (mmuTranslate (mmuAfter n) (segOf (m.codeAddr n)) (offOf (m.codeAddr n)) false
      (!m.cpu.sysmode) true).2.2

/-- The record of the fetch of the `i`-th word. -/
def codeEvent (i : Nat) : Event := m.memEvent .fetch true (m.codeAddr i)

theorem codeAddr_zero : m.codeAddr 0 = m.cpu.pc := addrAdd_zero _

theorem codeAddr_succ (i : Nat) : m.codeAddr (i + 1) = addrAdd (m.codeAddr i) 2 := by
  have next : BitVec.ofNat 32 (2 * (i + 1)) = BitVec.ofNat 32 (2 * i) + 2 := by
    rw [Nat.mul_succ, BitVec.ofNat_add]
    rfl
  rw [codeAddr, codeAddr, addrAdd_addrAdd, next]

theorem mmuAfter_sameMap (n : Nat) : (m.mmuAfter n).SameMap m.mmu := by
  induction n with
  | zero => exact Mmu.SameMap.refl _
  | succ n inductionHypothesis => exact (mmuTranslate_sameMap ..).trans inductionHypothesis

end Machine

/-! ## The fetch, word by word -/

/-- `x` is `m` behind the fetch of its first `n` words. -/
structure Fetched (m : Machine) (n : Nat) (x : Machine) : Prop where
  sysmode : x.cpu.sysmode = m.cpu.sysmode
  bus : x.bus = m.bus
  mmu : x.mmu = m.mmuAfter n
  trace : x.trace = ((List.range n).map m.codeEvent).reverse ++ m.trace
  fault : x.cpu.fault = (m.cpu.fault || (List.range n).any m.refusesCode)
  opcode : x.cpu.opcode = m.opcodeAfter n

namespace Fetched

variable {m x : Machine} {n : Nat}

/-- A fetch in the middle goes where it would have gone at the start. -/
theorem access (fetched : Fetched m n x) (a : Long) :
    x.physOf .fetch a = m.physOf .fetch a ∧ x.violates .fetch a = m.violates .fetch a := by
  have same := (m.mmuAfter_sameMap n).translate (segOf a) (offOf a) false (!m.cpu.sysmode) true
  unfold Machine.physOf Machine.violates Machine.translate
  rw [fetched.mmu, fetched.sysmode]
  exact same

/-- The machine behind one more word. -/
def more (x : Machine) (i : Fin 6) (a : Long) : Machine :=
  { (ifetch16 a x).2 with cpu := (ifetch16 a x).2.cpu.setOpcode i (ifetch16 a x).1 }

/-- Nothing is fetched yet. -/
theorem start (m : Machine) : Fetched m 0 m :=
  ⟨rfl, rfl, rfl, rfl, by simp, by
    funext i
    rw [Machine.opcodeAfter, if_neg (Nat.not_lt_zero _)]⟩

/-- A change of the processor that keeps mode, fault and opcode. -/
theorem withCpu (fetched : Fetched m n x) {c : Cpu} (sysmode : c.sysmode = x.cpu.sysmode)
    (fault : c.fault = x.cpu.fault) (opcode : c.opcode = x.cpu.opcode) :
    Fetched m n { x with cpu := c } :=
  ⟨sysmode.trans fetched.sysmode, fetched.bus, fetched.mmu, fetched.trace,
    fault.trans fetched.fault, opcode.trans fetched.opcode⟩

/-- The fetch of the next word. -/
theorem next (fetched : Fetched m n x) {i : Fin 6} (slot : i.val = n) :
    Fetched m (n + 1) (more x i (m.codeAddr n)) := by
  obtain ⟨phys, viol⟩ := fetched.access (m.codeAddr n)
  refine ⟨fetched.sysmode, fetched.bus, ?_, ?_, ?_, ?_⟩
  · have stepped : (more x i (m.codeAddr n)).mmu = (mmuTranslate x.mmu (segOf (m.codeAddr n))
        (offOf (m.codeAddr n)) false (!x.cpu.sysmode) true).2.2 := rfl
    rw [stepped, fetched.mmu, fetched.sysmode, Machine.mmuAfter]
  · have stepped : (more x i (m.codeAddr n)).trace =
        .mem .fetch true (m.codeAddr n) (x.physOf .fetch (m.codeAddr n))
          (x.violates .fetch (m.codeAddr n)) :: x.trace := rfl
    rw [stepped, phys, viol, fetched.trace, List.range_succ, List.map_append, List.reverse_append]
    rfl
  · have stepped : (more x i (m.codeAddr n)).cpu.fault =
        (x.cpu.fault || x.violates .fetch (m.codeAddr n)) := rfl
    rw [stepped, fetched.fault, viol, List.range_succ, List.any_append, Bool.or_assoc]
    simp [Machine.refusesCode]
  · have stepped : (more x i (m.codeAddr n)).cpu.opcode =
        Function.update x.cpu.opcode i (physRead16 x.bus (x.physOf .fetch (m.codeAddr n))) := rfl
    rw [stepped, fetched.opcode, fetched.bus, phys]
    funext j
    by_cases here : j = i
    · rw [here, Function.update_self, Machine.opcodeAfter, if_pos (by omega), slot]
      rfl
    · have apart : j.val ≠ n := fun same => here (Fin.ext (same.trans slot.symm))
      rw [Function.update_of_ne here, Machine.opcodeAfter, Machine.opcodeAfter]
      by_cases below : j.val < n
      · rw [if_pos below, if_pos (by omega)]
      · rw [if_neg below, if_neg (by omega)]

end Fetched

/-- The slots from `i` on. -/
def slotsFrom (i n : Nat) : List (Fin 6) := (List.range' i n).map (Fin.ofNat 6)

theorem take_slots : ∀ n < 6, ([1, 2, 3, 4, 5] : List (Fin 6)).take n = slotsFrom 1 n := by decide

/-- The loop over the further words. -/
theorem fetchOperands_fetched {m x : Machine} {i n : Nat} (fetched : Fetched m (i + 1) x)
    (bound : i + 1 + n ≤ 6) :
    Fetched m (i + 1 + n) (fetchOperands (slotsFrom (i + 1) n) (m.codeAddr i) x).2 := by
  induction n generalizing i x with
  | zero => exact fetched
  | succ n inductionHypothesis =>
    have slot : (Fin.ofNat 6 (i + 1)).val = i + 1 := Nat.mod_eq_of_lt (by omega)
    have step : (fetchOperands (slotsFrom (i + 1) (n + 1)) (m.codeAddr i) x).2 =
        (fetchOperands (slotsFrom (i + 2) n) (m.codeAddr (i + 1))
          (Fetched.more x (Fin.ofNat 6 (i + 1)) (m.codeAddr (i + 1)))).2 := by
      rw [m.codeAddr_succ i]
      rfl
    rw [step, show i + 1 + (n + 1) = i + 1 + 1 + n by omega]
    exact inductionHypothesis (fetched.next slot) (by omega)

/-- The processor state that the fetch of the operands leaves alone. -/
structure Cpu.SameFetch (c d : Cpu) : Prop where
  pc : d.pc = c.pc
  seg : d.seg = c.seg
  segW1 : d.segW1 = c.segW1
  segW2 : d.segW2 = c.segW2
  instrStart : d.instrStart = c.instrStart
  irqReq : d.irqReq = c.irqReq

theorem fetchOperands_sameFetch (slots : List (Fin 6)) (p : Long) (m : Machine) :
    m.cpu.SameFetch (fetchOperands slots p m).2.cpu := by
  induction slots generalizing p m with
  | nil => exact ⟨rfl, rfl, rfl, rfl, rfl, rfl⟩
  | cons i rest inductionHypothesis =>
    obtain ⟨pc, seg, segW1, segW2, instrStart, irqReq⟩ :=
      inductionHypothesis (addrAdd p 2) (Fetched.more m i (addrAdd p 2))
    exact ⟨pc, seg, segW1, segW2, instrStart, irqReq⟩

theorem decodeLength_bounds (op : Word) (seg : Bool) :
    1 ≤ decodeLength op seg ∧ decodeLength op seg ≤ 4 := by
  have pick : ∀ (p : Prop) [Decidable p] (a b : Nat), 1 ≤ a ∧ a ≤ 4 → 1 ≤ b ∧ b ≤ 4 →
      1 ≤ (if p then a else b) ∧ (if p then a else b) ≤ 4 := by
    intro p _ a b left right
    split
    · exact left
    · exact right
  unfold decodeLength
  cases seg <;> repeat' first | exact ⟨by decide, by decide⟩ | apply pick

/-- The machine at the start of an instruction. -/
def Machine.begun (m : Machine) : Machine := { m with cpu := m.cpu.beginFetch }

/-- What the fetch and decode half of a step does. -/
structure FetchSpec (m x : Machine) : Prop where
  fetched : Fetched m.begun m.fetchedWords x
  oplen : x.cpu.oplen = m.occupiedWords
  pc : x.cpu.pc = m.cpu.pc
  instrStart : x.cpu.instrStart = m.cpu.pc
  irqReq : x.cpu.irqReq = m.cpu.irqReq

/-- The length that the fetched words give. -/
theorem reduceLength_fetched {m x : Machine} (fetched : Fetched m.begun m.fetchedWords x)
    (segW1 : x.cpu.segW1 = decodeSegAddrW1 (m.codeWord 0) m.cpu.seg)
    (segW2 : x.cpu.segW2 = decodeSegAddrW2 (m.codeWord 0) m.cpu.seg) :
    x.cpu.reduceLength m.fetchedWords = m.occupiedWords := by
  have word : ∀ i : Fin 6, i.val < m.fetchedWords → x.cpu.opcode i = m.codeWord i := by
    intro i below
    rw [fetched.opcode, Machine.opcodeAfter, if_pos below]
    rfl
  have first : (3 ≤ m.fetchedWords ∧ x.cpu.segW1 = true ∧ x.cpu.opcode 1 &&& 0x8000 = 0) ↔
      (3 ≤ m.fetchedWords ∧ decodeSegAddrW1 (m.codeWord 0) m.cpu.seg = true ∧
        m.codeWord 1 &&& 0x8000 = 0) := by
    rw [segW1]
    refine and_congr_right fun long => ?_
    rw [word 1 (Nat.lt_of_lt_of_le (by decide) long)]
    rfl
  have second : ∀ n ≤ m.fetchedWords,
      ((4 ≤ n ∧ x.cpu.segW2 = true ∧ x.cpu.opcode 2 &&& 0x8000 = 0) ↔
        (4 ≤ n ∧ decodeSegAddrW2 (m.codeWord 0) m.cpu.seg = true ∧
          m.codeWord 2 &&& 0x8000 = 0)) := by
    intro n within
    rw [segW2]
    refine and_congr_right fun long => ?_
    rw [word 2 (Nat.lt_of_lt_of_le (by decide) (Nat.le_trans long within))]
    rfl
  unfold Cpu.reduceLength Machine.occupiedWords
  dsimp only
  by_cases short : 3 ≤ m.fetchedWords ∧ decodeSegAddrW1 (m.codeWord 0) m.cpu.seg = true ∧
      m.codeWord 1 &&& 0x8000 = 0
  · simp only [first, if_pos short, second _ (Nat.sub_le m.fetchedWords 1)]
  · simp only [first, if_neg short, second _ (Nat.le_refl _)]

/-- The first word is at the program counter. -/
theorem Machine.codeWord_zero (m : Machine) :
    physRead16 m.bus (m.physOf .fetch m.cpu.pc) = m.codeWord 0 := by
  rw [codeWord, codeAddr_zero]

/-- The fetch, program by program; `op` is the first word. -/
theorem fetchDecode_run (m : Machine) (op : Word)
    (first : physRead16 m.bus (m.physOf .fetch m.cpu.pc) = op) :
    let word := Fetched.more m.begun 0 m.cpu.pc
    let noted : Machine := { word with cpu := { word.cpu with
      segW1 := decodeSegAddrW1 op m.cpu.seg, segW2 := decodeSegAddrW2 op m.cpu.seg } }
    let need := decodeLength op m.cpu.seg
    let operands := (fetchOperands ([1, 2, 3, 4, 5].take (need - 1)) m.cpu.pc noted).2
    fetchDecode m = (decodeLookup op (operands.cpu.opcode 1) (operands.cpu.reduceLength need),
      { operands with cpu := { operands.cpu with
          oplen := operands.cpu.reduceLength need, curOp := op } }) := by
  subst first
  rfl

theorem fetchDecode_spec (m : Machine) :
    (fetchDecode m).1 = m.decoded ∧ FetchSpec m (fetchDecode m).2 := by
  have run := fetchDecode_run m (m.codeWord 0) m.codeWord_zero
  let word := Fetched.more m.begun 0 m.cpu.pc
  let noted : Machine := { word with cpu := { word.cpu with
    segW1 := decodeSegAddrW1 (m.codeWord 0) m.cpu.seg
    segW2 := decodeSegAddrW2 (m.codeWord 0) m.cpu.seg } }
  let operands := (fetchOperands ([1, 2, 3, 4, 5].take (m.fetchedWords - 1)) m.cpu.pc noted).2
  have atStart : m.begun.codeAddr 0 = m.cpu.pc := m.begun.codeAddr_zero
  have seen : Fetched m.begun 1 noted :=
    (atStart ▸ (Fetched.start m.begun).next (rfl : (0 : Fin 6).val = 0)).withCpu rfl rfl rfl
  obtain ⟨atLeast, atMost⟩ := decodeLength_bounds (m.codeWord 0) m.cpu.seg
  have whole : Fetched m.begun m.fetchedWords operands := by
    have rest := fetchOperands_fetched (n := m.fetchedWords - 1) seen
      (by rw [Machine.fetchedWords]; omega)
    rw [atStart, ← take_slots _ (by rw [Machine.fetchedWords]; omega),
      show 0 + 1 + (m.fetchedWords - 1) = m.fetchedWords by
        rw [Machine.fetchedWords]; omega] at rest
    exact rest
  have same := fetchOperands_sameFetch ([1, 2, 3, 4, 5].take (m.fetchedWords - 1)) m.cpu.pc noted
  have length : operands.cpu.reduceLength m.fetchedWords = m.occupiedWords :=
    reduceLength_fetched whole same.segW1 same.segW2
  have operand : operands.cpu.opcode 1 = m.opcodeAfter m.fetchedWords 1 := by
    rw [whole.opcode]
    rfl
  have value : (fetchDecode m).1 = decodeLookup (m.codeWord 0) (operands.cpu.opcode 1)
      (operands.cpu.reduceLength m.fetchedWords) := congrArg Prod.fst run
  have after : (fetchDecode m).2 = { operands with cpu := { operands.cpu with
      oplen := operands.cpu.reduceLength m.fetchedWords, curOp := m.codeWord 0 } } :=
    congrArg Prod.snd run
  rw [value, after, length, operand]
  exact ⟨rfl, whole.withCpu rfl rfl rfl, rfl, same.pc, same.instrStart, same.irqReq⟩

/-! ## The word behind a short form -/

/-- The segment number in the high half of an address. -/
theorem segOf_high (b : Long) :
    segOf b = (((b >>> 16).setWidth 16) &&& (0x7F : Word)).setWidth 8 := by
  have seven : ∀ i : Fin 8, (0x7F : Long).getLsbD i = (0x7F : Word).getLsbD i := by decide
  apply BitVec.eq_of_getLsbD_eq
  intro i bound
  have bit := seven ⟨i, bound⟩
  have inside : i < 16 := by omega
  dsimp only at bit
  simp only [segOf, BitVec.getLsbD_setWidth, BitVec.getLsbD_and, bit]
  simp [inside]

theorem segOf_append (s o : Word) : segOf (s ++ o) = (s &&& 0x7F).setWidth 8 := by
  rw [segOf_high, high_append]

theorem segOf_addrAdd (a n : Long) : segOf (addrAdd a n) = segOf a := by
  rw [long_halves a, addrAdd_append, segOf_append, segOf_append]

theorem MmuDesc.touch_touch (d : MmuDesc) : (d.touch false).touch false = d.touch false := by
  have twice : ∀ a : Byte, a ||| aRef ||| aRef = a ||| aRef := by
    intro a
    rw [BitVec.or_assoc, BitVec.or_self]
  simp only [touch, Bool.false_eq_true, if_false, twice]

/-- A mark that is set already. -/
theorem Mmu.setDesc_touch_again (u : Mmu) (s : BitVec 6) :
    (u.setDesc s ((u.desc s).touch false)).setDesc s
      (((u.setDesc s ((u.desc s).touch false)).desc s).touch false) =
      u.setDesc s ((u.desc s).touch false) := by
  simp only [setDesc, Function.update_self, Function.update_idem, MmuDesc.touch_touch]

/-- A permitted fetch marks its segment referenced and does nothing else. -/
theorem mmuTranslate_fetch {u : Mmu} {sn : Byte} {off : Word} {n : Bool}
    (permitted : (mmuTranslate u sn off false n true).2.1 = false) :
    (mmuTranslate u sn off false n true).2.2 =
      if u.translates sn then u.setDesc (segIndex sn) ((u.desc (segIndex sn)).touch false)
      else u := by
  unfold mmuTranslate at permitted ⊢
  dsimp only at permitted ⊢
  cases acts : u.translates sn with
  | false => simp
  | true =>
    rw [acts] at permitted
    simp only [Bool.not_true, Bool.false_eq_true, if_false, if_true] at permitted ⊢
    split_ifs at permitted ⊢
    · rfl
    · unfold protectionLadder at permitted ⊢
      dsimp only at permitted ⊢
      cases ladder : ladderViol (u.desc (segIndex sn)) ((off >>> 8).setWidth 8) false n true with
      | some viol =>
        rw [ladder] at permitted
        exact absurd permitted (by simp)
      | none => simp only [Bool.and_false, Bool.false_and, Bool.false_eq_true, if_false]

/-- A permitted fetch from a segment that another has marked changes nothing. -/
theorem mmuTranslate_again {u : Mmu} {sn : Byte} {off off' : Word} {n : Bool}
    (first : (mmuTranslate u sn off false n true).2.1 = false)
    (second : (mmuTranslate (mmuTranslate u sn off false n true).2.2 sn off' false n true).2.1 =
      false) :
    (mmuTranslate (mmuTranslate u sn off false n true).2.2 sn off' false n true).2.2 =
      (mmuTranslate u sn off false n true).2.2 := by
  rw [mmuTranslate_fetch second, mmuTranslate_fetch first]
  cases acts : u.translates sn with
  | false => simp [acts]
  | true =>
    have still : (u.setDesc (segIndex sn) ((u.desc (segIndex sn)).touch false)).translates sn =
        true := acts
    rw [if_pos rfl, if_pos still, u.setDesc_touch_again]

namespace Machine

variable (m : Machine)

theorem segOf_codeAddr (i : Nat) : segOf (m.codeAddr i) = segOf m.cpu.pc := segOf_addrAdd _ _

/-- A fetch behind others is refused when it would be at the start. -/
theorem refusesCode_after (n i : Nat) :
    (mmuTranslate (m.mmuAfter n) (segOf (m.codeAddr i)) (offOf (m.codeAddr i)) false
      (!m.cpu.sysmode) true).2.1 = m.refusesCode i :=
  ((m.mmuAfter_sameMap n).translate _ _ _ _ _).2

theorem mmuAfter_succ (n : Nat) : m.mmuAfter (n + 1) =
    (mmuTranslate (m.mmuAfter n) (segOf m.cpu.pc) (offOf (m.codeAddr n)) false
      (!m.cpu.sysmode) true).2.2 := by
  rw [mmuAfter, m.segOf_codeAddr]

/-- A permitted fetch behind a permitted one leaves the unit alone. -/
theorem mmuAfter_next {n : Nat} (last : m.refusesCode n = false)
    (next : m.refusesCode (n + 1) = false) : m.mmuAfter (n + 2) = m.mmuAfter (n + 1) := by
  have first := (m.refusesCode_after n n).trans last
  have second := (m.refusesCode_after (n + 1) (n + 1)).trans next
  rw [m.segOf_codeAddr] at first second
  rw [m.mmuAfter_succ n] at second
  rw [m.mmuAfter_succ (n + 1), m.mmuAfter_succ n]
  exact mmuTranslate_again first second

theorem begun_mmuAfter (n : Nat) : m.begun.mmuAfter n = m.mmuAfter n := by
  induction n with
  | zero => rfl
  | succ n inductionHypothesis =>
    rw [m.begun.mmuAfter_succ, inductionHypothesis, m.mmuAfter_succ]
    rfl

/-- Only one of the two operand words can be the address. -/
theorem fetchedWords_cases : m.fetchedWords = m.occupiedWords ∨
    m.fetchedWords = m.occupiedWords + 1 := by
  have exclusive : decodeSegAddrW1 (m.codeWord 0) m.cpu.seg = true →
      decodeSegAddrW2 (m.codeWord 0) m.cpu.seg = false := by
    intro first
    simp only [decodeSegAddrW1, Bool.and_eq_true, Bool.not_eq_true'] at first
    exact first.1.2
  unfold occupiedWords
  dsimp only
  by_cases short : 3 ≤ m.fetchedWords ∧ decodeSegAddrW1 (m.codeWord 0) m.cpu.seg = true ∧
      m.codeWord 1 &&& 0x8000 = 0
  · have other := exclusive short.2.1
    rw [if_pos short, other, if_neg (by simp)]
    omega
  · rw [if_neg short]
    split_ifs with second
    · omega
    · exact .inl rfl

/-- An instruction has a first word. -/
theorem occupiedWords_pos : 0 < m.occupiedWords := by
  have fetched := (decodeLength_bounds (m.codeWord 0) m.cpu.seg).1
  change 1 ≤ m.fetchedWords at fetched
  unfold occupiedWords
  dsimp only
  split_ifs <;> omega

/-- The unit lets the step fetch every word of the instruction. -/
def InstructionFetchable : Prop := ∀ i < m.occupiedWords, m.refusesCode i = false

/-- The fetch of a step keeps to the instruction: when every word of it can be
fetched, no violation is raised, and the unit, the REF bits included, is as these
words leave it. -/
def FetchConfined : Prop :=
  m.InstructionFetchable →
    (fetchDecode m).2.cpu.fault = false ∧ (fetchDecode m).2.mmu = m.mmuAfter m.occupiedWords

/-- A segmented instruction with a short address ends where the unit stops
permitting fetches. -/
def EndsAtLimit : Prop :=
  m.occupiedWords < m.fetchedWords ∧ m.InstructionFetchable ∧
    m.refusesCode m.occupiedWords = true

/-- The fetch keeps to the instruction except for a short form that ends at the
limit. -/
theorem fetchConfined_iff : m.FetchConfined ↔ ¬m.EndsAtLimit := by
  obtain ⟨-, spec⟩ := fetchDecode_spec m
  have fault : (fetchDecode m).2.cpu.fault = (List.range m.fetchedWords).any m.refusesCode :=
    spec.fetched.fault.trans (Bool.false_or _)
  have mmu : (fetchDecode m).2.mmu = m.mmuAfter m.fetchedWords := by
    rw [spec.fetched.mmu, m.begun_mmuAfter]
  have positive := m.occupiedWords_pos
  constructor
  · rintro confined ⟨short, fetchable, refused⟩
    obtain ⟨calm, -⟩ := confined fetchable
    rw [fault, List.any_eq_false] at calm
    exact calm m.occupiedWords (List.mem_range.mpr short) refused
  · intro inside fetchable
    rw [fault, mmu, List.any_eq_false]
    rcases m.fetchedWords_cases with long | short
    · rw [long]
      refine ⟨fun i below => ?_, rfl⟩
      rw [fetchable i (List.mem_range.mp below)]
      exact Bool.false_ne_true
    · have behind : m.refusesCode m.occupiedWords = false := by
        cases refused : m.refusesCode m.occupiedWords with
        | false => rfl
        | true => exact absurd ⟨by omega, fetchable, refused⟩ inside
      obtain ⟨n, last⟩ : ∃ n, m.occupiedWords = n + 1 := ⟨m.occupiedWords - 1, by omega⟩
      constructor
      · intro i below
        rw [List.mem_range, short] at below
        rcases Nat.lt_succ_iff_lt_or_eq.mp below with inner | same
        · rw [fetchable i inner]
          exact Bool.false_ne_true
        · rw [same, behind]
          exact Bool.false_ne_true
      · rw [short, last]
        rw [last] at behind
        exact m.mmuAfter_next (fetchable n (by omega)) behind

end Machine

/-- A load from a short direct address whose second word is the last one of segment 8. -/
def atLimit : Machine :=
  { (default : Machine) with
    cpu := { (default : Cpu) with fcw := 0xC000, pc := 0x0800FC }
    mmu := { (default : Mmu) with
      mode := modeMsen ||| modeTrns, desc := fun _ => { base := 0x0900, limit := 0, attr := 0 } }
    bus := { (default : Bus) with
      ram := fun a => if a = 0x0900FC then 0x61 else if a = 0x0900FE then 0x05 else 0 } }

/-- Both words of the load can be fetched, and its fetch raises a violation. -/
theorem atLimit_not_confined : ¬atLimit.FetchConfined := by
  intro confined
  have addr0 : atLimit.codeAddr 0 = 0x0800FC := by decide
  have addr1 : atLimit.codeAddr 1 = 0x0800FE := by decide
  have addr2 : atLimit.codeAddr 2 = 0x080100 := by decide
  have word0 : atLimit.codeWord 0 = 0x6100 := by
    rw [Machine.codeWord, addr0]
    decide
  have word1 : atLimit.codeWord 1 = 0x0500 := by
    rw [Machine.codeWord, addr1]
    decide
  have fetched : atLimit.fetchedWords = 3 := by
    rw [Machine.fetchedWords, word0]
    decide
  have occupied : atLimit.occupiedWords = 2 := by
    rw [Machine.occupiedWords, fetched, word0, word1]
    decide
  have fetchable : atLimit.InstructionFetchable := by
    intro i below
    rw [occupied] at below
    rcases Nat.lt_succ_iff_lt_or_eq.mp below with first | rfl
    · obtain rfl : i = 0 := by omega
      rw [Machine.refusesCode, addr0]
      decide
    · rw [Machine.refusesCode, addr1]
      decide
  have refused : atLimit.refusesCode 2 = true := by
    rw [Machine.refusesCode, addr2]
    decide
  obtain ⟨-, spec⟩ := fetchDecode_spec atLimit
  have calm := (confined fetchable).1
  rw [spec.fetched.fault, fetched] at calm
  have all := (Bool.or_eq_false_iff.mp calm).2
  rw [List.any_eq_false] at all
  exact all 2 (by decide) refused

end C900
