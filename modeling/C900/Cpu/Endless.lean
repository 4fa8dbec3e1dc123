import C900.Cpu.Repeat
import C900.Cpu.Privilege
import C900.Logic.Countdown

/-!
# When the repeat loop ends

Every element takes one from the count register, but it also moves pointers, and a
pointer may keep its offset in that register. The count then changes by another
step per element. Whatever the step, it runs out within 65536 elements, with one
exception: a single pointer that moves by one byte turns the step into 0 or -2.
-/

namespace C900

/-! ## One turn -/

/-- The count register. -/
def Cpu.count (c : Cpu) : Word := c.rw c.cntReg

/-- The count that the next element starts from. A TRT form that goes on has cleared
RH1, the high half of R1. -/
def Cpu.countBase (c : Cpu) (w : CtrlWord) : Word :=
  if w.testsTable && c.cntReg == 1 then c.count &&& 0xFF else c.count

/-- What an element adds to the count register. -/
def Cpu.countStep (c : Cpu) (w : CtrlWord) : Word :=
  BitVec.ofNat 16 (c.pointersAt w c.cntReg) * w.step - 1

/-- From `c` to `d` by one turn of the loop. -/
structure Turn (w : CtrlWord) (c d : Cpu) : Prop where
  opcode : d.opcode = c.opcode
  seg : d.seg = c.seg
  sysmode : d.sysmode = c.sysmode
  wish : d.repeatPending = (w.blockRept && d.count != 0 && !w.found d)
  count : w.found d = false → d.count = c.countBase w + c.countStep w

/-- The count after an element whose search goes on. -/
theorem Element.count {w : CtrlWord} {c d : Cpu} (element : Element w c d)
    (search : w.found d = false) : d.count = c.countBase w + c.countStep w := by
  obtain ⟨v, tested, registers⟩ := element.registers
  have field : d.cntReg = c.cntReg := by rw [Cpu.cntReg, Cpu.cntReg, element.opcode]
  obtain ⟨operands, form⟩ := loaded_fixed c w v
  have fieldLoaded : (c.loaded w v).cntReg = c.cntReg := by rw [Cpu.cntReg, Cpu.cntReg, operands]
  have pointers : (c.loaded w v).pointersAt w c.cntReg = c.pointersAt w c.cntReg :=
    pointersAt_congr w operands form _
  have base : (c.loaded w v).rw c.cntReg = c.countBase w := by
    rw [loaded_rw, Cpu.countBase]
    split
    · rename_i high
      obtain ⟨table, one⟩ := (Bool.and_eq_true ..).mp high
      have zero : v = 0 := by
        have tested := tested table
        rw [search] at tested
        simpa using tested.symm
      have low : ∀ x : Word, (0 : Byte) ++ loByte x = x &&& 0xFF := by
        intro x
        apply BitVec.eq_of_toNat_eq
        simp only [loByte, BitVec.toNat_append, BitVec.toNat_setWidth, BitVec.toNat_and]
        exact (Nat.zero_or _).trans (Nat.and_two_pow_sub_one_eq_mod x.toNat 8).symm
      rw [zero, Cpu.count, show c.cntReg = 1 by simpa using one, low]
    · rfl
  calc d.count = ((c.loaded w v).advance w).rw c.cntReg := by
        rw [Cpu.count, field]
        exact congrFun registers c.cntReg
    _ = c.countBase w + c.countStep w := by
        rw [advance_rw, base, pointers, fieldLoaded, if_pos rfl, Cpu.countStep,
          BitVec.sub_eq_add_neg, BitVec.sub_eq_add_neg, BitVec.add_assoc]

/-- One turn of the loop over a block instruction. -/
theorem nextElement_turn {w : CtrlWord} (block : w.isBlock = true) (m : Machine)
    (allowed : w.exec = .blockIo → m.cpu.sysmode = true) :
    Turn w m.cpu (m.nextElement w).cpu := by
  have element := block_element m.clearRepeat block allowed
  obtain ⟨irqReq, result⟩ := executeElement_cpu w m.clearRepeat
  have cpu : (m.nextElement w).cpu = { (execute w m.clearRepeat).2.cpu with
      insns := (execute w m.clearRepeat).2.cpu.insns + 1, irqReq := irqReq } := result
  rw [cpu]
  refine ⟨element.opcode, element.seg, element.sysmode, ?_, element.count⟩
  have wish := element.wish
  have cleared : m.clearRepeat.cpu.repeatPending = false := rfl
  rw [cleared, Bool.false_or] at wish
  exact wish

/-! ## The run -/

/-- The decoder's repeating words are block instructions, and they move by one byte
or one word; a TRT form moves by one byte. -/
theorem pool_repeating : ∀ w ∈ pool, w.blockRept = true →
    w.isBlock = true ∧ (w.step = 1 ∨ w.step = -1 ∨ w.testsTable = false ∧ (w.step = 2 ∨ w.step = -2)) := by
  decide +kernel

/-- A block instruction moves at most two pointers, a TRT form one. -/
theorem pointersAt_le (c : Cpu) (w : CtrlWord) (s : Reg) :
    c.pointersAt w s ≤ if w.testsTable then 1 else 2 := by
  have few : (c.pointers w).length ≤ if w.testsTable then 1 else 2 := by
    unfold Cpu.pointers CtrlWord.testsTable
    cases w.exec <;> cases w.ioWrite <;> simp
  exact Nat.le_trans List.countP_le_length few

section

variable {w : CtrlWord} (m : Machine) (allowed : w.exec = .blockIo → m.cpu.sysmode = true)
  (block : w.isBlock = true)

include allowed block

/-- The operand fields and the modes stay what they were. -/
theorem elementRun_form (k : Nat) : (elementRun w m k).cpu.opcode = m.cpu.opcode ∧
    (elementRun w m k).cpu.seg = m.cpu.seg ∧ (elementRun w m k).cpu.sysmode = m.cpu.sysmode := by
  induction k with
  | zero => exact ⟨rfl, rfl, rfl⟩
  | succ k inductionHypothesis =>
      obtain ⟨operands, form, mode⟩ := inductionHypothesis
      have turn := nextElement_turn block (elementRun w m k) fun io => mode.trans (allowed io)
      rw [elementRun_succ]
      exact ⟨turn.opcode.trans operands, turn.seg.trans form, turn.sysmode.trans mode⟩

theorem elementRun_turn (k : Nat) :
    Turn w (elementRun w m k).cpu (elementRun w m (k + 1)).cpu := by
  rw [elementRun_succ]
  refine nextElement_turn block _ fun io => ?_
  rw [(elementRun_form m allowed block k).2.2, allowed io]

/-- The count while the search goes on. -/
theorem elementRun_count (k : Nat) (search : w.found (elementRun w m (k + 1)).cpu = false) :
    (elementRun w m (k + 1)).cpu.count =
      (if w.testsTable && m.cpu.cntReg == 1 then (elementRun w m k).cpu.count &&& 0xFF
        else (elementRun w m k).cpu.count) + m.cpu.countStep w := by
  obtain ⟨operands, form, -⟩ := elementRun_form m allowed block k
  have field : (elementRun w m k).cpu.cntReg = m.cpu.cntReg := by
    rw [Cpu.cntReg, Cpu.cntReg, operands]
  have counted := (elementRun_turn m allowed block k).count search
  rw [counted, Cpu.countBase, Cpu.countStep, pointersAt_congr w operands form, field]
  rfl

end

/-! ## Endless forms -/

/-- The count never runs out: exactly one moving pointer keeps its offset in the
count register and moves by one byte. Forwards the count stands still, and is not
zero; backwards it falls by two, and is odd. -/
def CtrlWord.Endless (w : CtrlWord) (c : Cpu) : Prop :=
  w.blockRept = true ∧ (w.exec = .blockIo → c.sysmode = true) ∧ c.pointersAt w c.cntReg = 1 ∧
    (w.step = 1 ∧ c.countBase w ≠ 0 ∨ w.step = -1 ∧ (c.countBase w).toNat % 2 = 1)

instance (w : CtrlWord) (c : Cpu) : Decidable (w.Endless c) := inferInstanceAs (Decidable (_ ∧ _))

/-- Something other than the count ends the loop after this element: a hard fault, a
pending request or line, or the end of the search. -/
def Machine.cutShort (w : CtrlWord) (m : Machine) : Bool :=
  m.cpu.fault || m.cpu.preempted || w.found m.cpu

/-- What an endless form needs of the count: forwards not zero, backwards odd. -/
def CtrlWord.Persists (w : CtrlWord) (x : Word) : Prop :=
  w.step = 1 ∧ x ≠ 0 ∨ w.step = -1 ∧ x.toNat % 2 = 1

theorem CtrlWord.Persists.ne_zero {w : CtrlWord} {x : Word} (persists : w.Persists x) : x ≠ 0 := by
  rcases persists with ⟨-, some⟩ | ⟨-, odd⟩
  · exact some
  · rintro rfl
    cases odd

theorem low_parity (x : Word) : (x &&& 0xFF).toNat % 2 = x.toNat % 2 := by
  rw [BitVec.toNat_and]
  have low : x.toNat &&& 255 = x.toNat % 256 := Nat.and_two_pow_sub_one_eq_mod x.toNat 8
  show (x.toNat &&& 255) % 2 = _
  omega

/-- The base persists when the count it came from, moved by an endless step, does. -/
theorem CtrlWord.Persists.next {w : CtrlWord} {x : Word} (table : Bool)
    (persists : w.Persists (if table then x &&& 0xFF else x)) :
    let y := (if table then x &&& 0xFF else x) + (1 * w.step - 1)
    w.Persists y ∧ w.Persists (if table then y &&& 0xFF else y) := by
  rcases persists with ⟨forward, some⟩ | ⟨backward, odd⟩
  · have still : ∀ z : Word, z + (1 * w.step - 1) = z := by
      intro z
      rw [forward, show (1 * 1 - 1 : Word) = 0 by decide]
      exact BitVec.add_zero z
    rw [still]
    refine ⟨.inl ⟨forward, some⟩, .inl ⟨forward, ?_⟩⟩
    cases table with
    | false => exact some
    | true =>
      simp only [if_true] at some ⊢
      rwa [BitVec.and_assoc, BitVec.and_self]
  · have parity : ∀ z : Word, (z + (1 * w.step - 1)).toNat % 2 = z.toNat % 2 := by
      intro z
      rw [backward, show (1 * -1 - 1 : Word) = 65534 by decide, BitVec.toNat_add]
      show (z.toNat + 65534) % 65536 % 2 = _
      omega
    refine ⟨.inr ⟨backward, by rw [parity, odd]⟩, .inr ⟨backward, ?_⟩⟩
    cases table with
    | false => rw [if_neg Bool.false_ne_true, parity, odd]
    | true =>
      simp only [if_true] at odd ⊢
      rw [low_parity, parity, odd]

/-- An endless form goes on until something cuts it short. -/
theorem endless_goesOn {w : CtrlWord} {m : Machine} (block : w.isBlock = true)
    (endless : w.Endless m.cpu) {n : Nat}
    (uncut : ∀ k < n, (elementRun w m (k + 1)).cutShort w = false) (k : Nat) (within : k < n) :
    (elementRun w m (k + 1)).settled = false := by
  obtain ⟨rept, allowed, single, start⟩ := endless
  have step : m.cpu.countStep w = 1 * w.step - 1 := by
    rw [Cpu.countStep, single]
    rfl
  let table := w.testsTable && m.cpu.cntReg == 1
  let base (x : Word) : Word := if table then x &&& 0xFF else x
  have persists : ∀ k ≤ n, w.Persists (base (elementRun w m k).cpu.count) := by
    intro k
    induction k with
    | zero => exact fun _ => start
    | succ k inductionHypothesis =>
        intro bound
        have free : w.found (elementRun w m (k + 1)).cpu = false := by
          have cut := uncut k bound
          simp only [Machine.cutShort, Bool.or_eq_false_iff] at cut
          exact cut.2
        rw [elementRun_count m allowed block k free, step]
        exact (CtrlWord.Persists.next table (inductionHypothesis (Nat.le_of_lt bound))).2
  have cut := uncut k within
  simp only [Machine.cutShort, Bool.or_eq_false_iff] at cut
  have counted := elementRun_count m allowed block k cut.2
  rw [step] at counted
  have some : (elementRun w m (k + 1)).cpu.count ≠ 0 := by
    rw [counted]
    exact (CtrlWord.Persists.next table (persists k (Nat.le_of_lt within))).1.ne_zero
  have wish := (elementRun_turn m allowed block k).wish
  rw [rept, cut.2, Bool.true_and, Bool.not_false, Bool.and_true] at wish
  have asks : (elementRun w m (k + 1)).cpu.repeatPending = true := by
    rw [wish]
    simpa using some
  simp only [Machine.settled, cut.1.1, cut.1.2, asks, Bool.not_true, Bool.or_false]

/-! ## Forms that run out -/

/-- The steps of the count that have an inverse: all but those of an endless form. -/
theorem countStep_inverse {step : Word} {n : Nat} (few : n ≤ 2)
    (unit : step = 1 ∨ step = -1 ∨ step = 2 ∨ step = -2)
    (other : ¬(n = 1 ∧ (step = 1 ∨ step = -1))) :
    ∃ e, e * (BitVec.ofNat 16 n * step - 1) = -1 := by
  have cases : n = 0 ∨ n = 1 ∨ n = 2 := by omega
  rcases cases with rfl | rfl | rfl
  · exact ⟨1, by rcases unit with rfl | rfl | rfl | rfl <;> decide⟩
  · rcases unit with rfl | rfl | rfl | rfl
    · exact absurd ⟨rfl, .inl rfl⟩ other
    · exact absurd ⟨rfl, .inr rfl⟩ other
    · exact ⟨-1, by decide⟩
    · exact ⟨43691, by decide⟩
  · rcases unit with rfl | rfl | rfl | rfl
    · exact ⟨-1, by decide⟩
    · exact ⟨43691, by decide⟩
    · exact ⟨21845, by decide⟩
    · exact ⟨52429, by decide⟩

/-- A sequence of counts that is no endless form runs out. -/
theorem count_runs_out {w : CtrlWord} {x : Nat → Word} {n : Nat} {table : Bool}
    (few : n ≤ if w.testsTable then 1 else 2) (tests : table = true → w.testsTable = true)
    (unit : w.step = 1 ∨ w.step = -1 ∨ w.testsTable = false ∧ (w.step = 2 ∨ w.step = -2))
    (step : ∀ k < 65536, x (k + 1) =
      (if table then x k &&& 0xFF else x k) + (BitVec.ofNat 16 n * w.step - 1))
    (ends : ¬(n = 1 ∧ w.Persists (if table then x 0 &&& 0xFF else x 0))) :
    ∃ k, 1 ≤ k ∧ k ≤ 65536 ∧ x k = 0 := by
  by_cases single : n = 1 ∧ (w.step = 1 ∨ w.step = -1)
  · obtain ⟨rfl, forward | backward⟩ := single
    · refine ⟨1, Nat.le_refl 1, by decide, ?_⟩
      have spent : (if table then x 0 &&& 0xFF else x 0) = 0 := by
        by_contra some
        exact ends ⟨rfl, .inl ⟨forward, some⟩⟩
      rw [step 0 (by decide), spent, forward]
      decide
    · have even : (if table then x 0 &&& 0xFF else x 0).toNat % 2 = 0 := by
        rcases Nat.mod_two_eq_zero_or_one (if table then x 0 &&& 0xFF else x 0).toNat with even | odd
        · exact even
        · exact absurd ⟨rfl, .inr ⟨backward, odd⟩⟩ ends
      have two : BitVec.ofNat 16 1 * w.step - 1 = (65534 : Word) := by
        rw [backward]
        decide
      rw [two] at step
      cases table with
      | true =>
        have falls : ∀ k < 65536, x (k + 1) = (x k &&& 0xFF) - BitVec.ofNat 16 2 := by
          intro k within
          rw [step k within, BitVec.sub_eq_add_neg]
          rfl
        exact Countdown.lowByte_runs_out (by decide) (by decide) (by decide) falls
          (Nat.dvd_of_mod_eq_zero even)
      | false =>
        obtain ⟨half, twice⟩ := Nat.dvd_of_mod_eq_zero even
        have start : (x 0).toNat = 2 * half := twice
        have small : (x 0).toNat < 65536 := (x 0).isLt
        obtain ⟨k, first, last, meets⟩ :
            ∃ k, 1 ≤ k ∧ k ≤ 65536 ∧ (k = half ∨ k = 32768 ∧ half = 0) := by
          rcases Nat.eq_zero_or_pos half with none | some
          · exact ⟨32768, by decide, by decide, .inr ⟨rfl, none⟩⟩
          · exact ⟨half, some, by omega, .inl rfl⟩
        refine ⟨k, first, last, BitVec.eq_of_toNat_eq ?_⟩
        rw [Countdown.progression step k last, BitVec.toNat_add, BitVec.toNat_mul,
          BitVec.toNat_ofNat, start]
        show (2 * half + k % 65536 * 65534 % 65536) % 65536 = 0
        omega
  · cases table with
    | false =>
      have four : w.step = 1 ∨ w.step = -1 ∨ w.step = 2 ∨ w.step = -2 := by
        rcases unit with one | one | ⟨-, two⟩
        · exact .inl one
        · exact .inr (.inl one)
        · exact .inr (.inr two)
      have most : n ≤ 2 := Nat.le_trans few (by split <;> decide)
      obtain ⟨e, inverse⟩ := countStep_inverse most four single
      obtain ⟨k, first, last, zero⟩ := Countdown.reaches_zero inverse (x 0)
      exact ⟨k, first, last, (Countdown.progression step k last).trans zero⟩
    | true =>
      have tested := tests rfl
      rw [tested, if_pos rfl] at few
      have none : n = 0 := by
        rcases unit with one | one | ⟨word, -⟩
        · exact Nat.lt_one_iff.mp (Nat.lt_of_le_of_ne few fun same => single ⟨same, .inl one⟩)
        · exact Nat.lt_one_iff.mp (Nat.lt_of_le_of_ne few fun same => single ⟨same, .inr one⟩)
        · exact absurd word (by simp [tested])
      refine Countdown.lowByte_runs_out (s := 1) (by decide) (by decide) (by decide)
        (fun k within => ?_) (Nat.one_dvd _)
      rw [step k within, none]
      simp only [if_true]
      rw [BitVec.sub_eq_add_neg, BitVec.sub_eq_add_neg, BitVec.zero_mul, BitVec.zero_add]
      rfl

/-- A block form that is not endless settles within 65536 elements. -/
theorem repeats_settle {w : CtrlWord} (decoded : w ∈ pool) (m : Machine)
    (rept : w.blockRept = true) (allowed : w.exec = .blockIo → m.cpu.sysmode = true)
    (ends : ¬w.Endless m.cpu) : ∃ k < 65536, (elementRun w m (k + 1)).settled = true := by
  obtain ⟨block, unit⟩ := pool_repeating w decoded rept
  by_contra never
  have goesOn : ∀ k < 65536, (elementRun w m (k + 1)).settled = false := by
    intro k within
    cases state : (elementRun w m (k + 1)).settled with
    | false => rfl
    | true => exact absurd ⟨k, within, state⟩ never
  have asks : ∀ k < 65536, (elementRun w m (k + 1)).cpu.repeatPending = true := by
    intro k within
    have state := goesOn k within
    simp only [Machine.settled, Bool.or_eq_false_iff, Bool.not_eq_false'] at state
    exact state.1.2
  have wishes : ∀ k < 65536, (elementRun w m (k + 1)).cpu.count ≠ 0 ∧
      w.found (elementRun w m (k + 1)).cpu = false := by
    intro k within
    have wish := (elementRun_turn m allowed block k).wish
    rw [asks k within] at wish
    simpa [rept] using wish.symm
  have step : ∀ k < 65536, (elementRun w m (k + 1)).cpu.count =
      (if (w.testsTable && m.cpu.cntReg == 1) = true then (elementRun w m k).cpu.count &&& 0xFF
        else (elementRun w m k).cpu.count) +
      (BitVec.ofNat 16 (m.cpu.pointersAt w m.cpu.cntReg) * w.step - 1) :=
    fun k within => elementRun_count m allowed block k (wishes k within).2
  obtain ⟨k, first, last, zero⟩ := count_runs_out (w := w)
    (x := fun k => (elementRun w m k).cpu.count) (pointersAt_le m.cpu w m.cpu.cntReg)
    (fun both => (Bool.and_eq_true .. ▸ both).1) unit step
    (fun single => ends ⟨rept, allowed, single.1, single.2⟩)
  obtain ⟨j, rfl⟩ : ∃ j, k = j + 1 := ⟨k - 1, by omega⟩
  exact (wishes j (by omega)).1 zero

/-- Everything else wishes for no further element. -/
theorem single_quiet {w : CtrlWord} (decoded : w ∈ pool) (m : Machine)
    (single : w.blockRept = false ∨ w.exec = .blockIo ∧ m.cpu.sysmode = false) :
    (m.nextElement w).cpu.repeatPending = false := by
  have silent : (execute w m.clearRepeat).2.cpu.repeatPending = false := by
    rcases single with single | ⟨kind, user⟩
    · have quiet : Quiet (execute w) := by
        have program := execute_built decoded
        rw [single] at program
        exact .ofUser program
      exact quiet m.clearRepeat
    · have asks : w.isPrivileged = true := by rw [CtrlWord.isPrivileged, kind]
      rw [execute_privileged asks m.clearRepeat user]
      rfl
  obtain ⟨irqReq, result⟩ := executeElement_cpu w m.clearRepeat
  rw [Machine.nextElement, result]
  exact silent

/-- It settles after one element. -/
theorem single_settles {w : CtrlWord} (decoded : w ∈ pool) (m : Machine)
    (single : w.blockRept = false ∨ w.exec = .blockIo ∧ m.cpu.sysmode = false) :
    (m.nextElement w).settled = true := by
  simp [Machine.settled, single_quiet decoded m single]

/-! ## A transfer that never returns -/

/-- Nothing interrupts the processor and the MMU does not translate. -/
structure Idle (m : Machine) : Prop where
  untranslated : m.mmu.mode &&& modeTrns = 0
  unwarned : m.mmu.warnPending = false
  clean : m.cpu.fault = false
  free : m.cpu.preempted = false

theorem translate_idle {m : Machine} (untranslated : m.mmu.mode &&& modeTrns = 0) (kind : Access)
    (a : Long) : m.translate kind a = (identityAddr (segOf a) (offOf a), false, m.mmu) := by
  have off : m.mmu.translates (segOf a) = false := by simp [Mmu.translates, untranslated]
  simp only [Machine.translate, mmuTranslate, off, Bool.not_false, if_true]

theorem memWriteElement_mmu (w : CtrlWord) (a : Long) (v : Word) (m : Machine) :
    (memWriteElement w a v m).2.mmu = (m.translate .write a).2.2 ∧
      (memWriteElement w a v m).2.cpu.fault = (m.cpu.fault || m.violates .write a) := by
  unfold memWriteElement
  cases w.width <;> exact ⟨rfl, rfl⟩

/-- A transfer element leaves an idle machine idle. -/
theorem Idle.nextElement {w : CtrlWord} {m : Machine} (idle : Idle m)
    (kind : w.exec = .blockTransfer) : Idle (m.nextElement w) := by
  let start := m.clearRepeat
  let source := start.cpu.addrFromReg start.cpu.srcReg
  let dest := start.cpu.addrFromReg start.cpu.dstReg
  let read := start.cycle .read (w.width != .byte) source
  let v := (memReadElement w source start).1
  have readIs : (memReadElement w source start).2 = read := memReadElement_machine w source start
  have readCycle := translate_idle (m := start) idle.untranslated .read source
  have readMmu : read.mmu = m.mmu := congrArg (·.2.2) readCycle
  have readFault : read.cpu.fault = false := by
    show (m.cpu.fault || start.violates .read source) = false
    rw [idle.clean, Machine.violates, readCycle]
    rfl
  have writeCycle := translate_idle (m := read) (by rw [readMmu, idle.untranslated]) .write dest
  obtain ⟨writeMmu, writeFault⟩ := memWriteElement_mmu w dest v read
  rw [writeCycle, readMmu] at writeMmu
  rw [Machine.violates, writeCycle, readFault] at writeFault
  have element : (execute w start).2.mmu = m.mmu ∧ (execute w start).2.cpu.fault = false := by
    have unfolded : execute w start = execBlockTransfer w start := by rw [execute, kind]
    rw [unfolded]
    show (memWriteElement w dest v (memReadElement w source start).2).2.mmu = m.mmu ∧
      (memWriteElement w dest v (memReadElement w source start).2).2.cpu.fault = false
    rw [readIs]
    exact ⟨writeMmu, writeFault⟩
  have block : w.isBlock = true := by rw [CtrlWord.isBlock, kind]
  have made := block_element start block (by simp [kind])
  have free : (execute w start).2.cpu.preempted = false := by
    have flags : ∀ bit : Word, bit &&& controlByte = bit →
        (execute w start).2.cpu.fcw &&& bit = start.cpu.fcw &&& bit := by
      intro bit inside
      have modes := congrArg ControlState.modes made.control
      simp only [Cpu.control] at modes
      rw [← inside, BitVec.and_comm bit, ← BitVec.and_assoc, ← BitVec.and_assoc, modes]
    have lines : (execute w start).2.cpu.preempted = start.cpu.preempted := by
      rw [made.frame]
      simp only [Cpu.preempted]
      rw [flags fcwVie (by decide), flags fcwNvie (by decide)]
    rw [lines]
    exact idle.free
  have unwarned : (execute w start).2.mmu.warnPending = false := by rw [element.1, idle.unwarned]
  have result : m.nextElement w = { (execute w start).2 with
      cpu := { (execute w start).2.cpu with insns := (execute w start).2.cpu.insns + 1 } } := by
    show Machine.takeWarning _ = _
    rw [Machine.takeWarning]
    exact if_neg (Bool.not_eq_true _ ▸ unwarned)
  rw [result]
  exact ⟨by rw [element.1, idle.untranslated], unwarned, element.2, free⟩

/-- On an idle machine an endless transfer never returns. -/
theorem idle_transfer_spins {w : CtrlWord} {m : Machine} (kind : w.exec = .blockTransfer)
    (fresh : m.cpu.repeatPending = false) (endless : w.Endless m.cpu) (idle : Idle m)
    (fuel : Nat) : runInstruction fuel w m = none := by
  have block : w.isBlock = true := by rw [CtrlWord.isBlock, kind]
  have calm : ∀ k, Idle (elementRun w m.started k) := by
    intro k
    induction k with
    | zero => exact ⟨idle.untranslated, idle.unwarned, idle.clean, idle.free⟩
    | succ k inductionHypothesis =>
        rw [elementRun_succ]
        exact inductionHypothesis.nextElement kind
  have uncut : ∀ k < fuel + 1, (elementRun w m.started (k + 1)).cutShort w = false := by
    intro k _
    simp [Machine.cutShort, (calm (k + 1)).clean, (calm (k + 1)).free, CtrlWord.found, kind]
  rw [← Option.not_isSome_iff_eq_none, runInstruction_isSome_iff w fuel m fresh]
  rintro ⟨k, bound, settled⟩
  have goesOn := endless_goesOn (m := m.started) block endless uncut k (by omega)
  exact absurd settled (by simp [goesOn])

/-! ## The step -/

/-- A form that is not endless returns within 65536 elements. -/
theorem runInstruction_returns {w : CtrlWord} (decoded : w ∈ pool) {m : Machine}
    (fresh : m.cpu.repeatPending = false) (ends : ¬w.Endless m.cpu) :
    (runInstruction 65535 w m).isSome = true := by
  rw [runInstruction_isSome_iff w 65535 m fresh]
  by_cases single : w.blockRept = false ∨ w.exec = .blockIo ∧ m.cpu.sysmode = false
  · exact ⟨0, by decide, single_settles decoded m.started single⟩
  · have rept : w.blockRept = true := by
      cases repeats : w.blockRept with
      | true => rfl
      | false => exact absurd (.inl repeats) single
    have allowed : w.exec = .blockIo → m.cpu.sysmode = true := by
      intro kind
      cases mode : m.cpu.sysmode with
      | true => rfl
      | false => exact absurd (.inr ⟨kind, mode⟩) single
    obtain ⟨k, within, settled⟩ := repeats_settle decoded m.started rept allowed ends
    exact ⟨k, by omega, settled⟩

/-- The step on `m` executes an endless form. -/
def Machine.startsEndless (hook : SysHook) (m : Machine) : Prop :=
  ∃ w d, m.instruction hook = some (w, d) ∧ w.Endless d.cpu

/-- A step that executes no endless form returns within 65536 elements. The condition
is exact for a block transfer on an idle machine: there an endless form never ends. -/
theorem cpuStep_returns (hook : SysHook) (m : Machine) :
    (¬m.startsEndless hook → (cpuStep hook 65535 m).isSome = true) ∧
      ∀ w d, m.instruction hook = some (w, d) → w.exec = .blockTransfer → Idle d →
        ((cpuStep hook 65535 m).isSome = true ↔ ¬m.startsEndless hook) := by
  have returns : ¬m.startsEndless hook → (cpuStep hook 65535 m).isSome = true := by
    intro ends
    cases runs : m.instruction hook with
    | none => exact cpuStep_of_none runs 65535
    | some executed =>
      obtain ⟨w, d⟩ := executed
      rw [cpuStep_of_instruction runs]
      exact runInstruction_returns (instruction_pool runs) (instruction_fresh runs)
        fun endless => ends ⟨w, d, runs, endless⟩
  refine ⟨returns, fun w d runs kind idle => ⟨?_, returns⟩⟩
  rintro some ⟨w', d', executes, endless⟩
  rw [runs] at executes
  obtain ⟨rfl, rfl⟩ : w = w' ∧ d = d' := by simpa using executes
  rw [cpuStep_of_instruction runs,
    idle_transfer_spins kind (instruction_fresh runs) endless idle] at some
  cases some

/-- LDIRB from the pointer R2 to the pointer R3, counted in `count`, at address 0 of
the ROM; every register holds 1. -/
def countedCopy (count : Byte) : Machine :=
  { (default : Machine) with
    cpu := { (default : Cpu) with R := fun _ => 1 }
    bus := { (default : Bus) with
      rom := fun a => [0xBA, 0x21, count, 0x30].getD a.toNat 0 } }

/-- Counted in its own source pointer the copy is an endless form on an idle machine. -/
theorem countedCopy_endless : ∃ w d, (countedCopy 2).instruction none = some (w, d) ∧
    w.exec = .blockTransfer ∧ w.Endless d.cpu ∧ Idle d :=
  ⟨_, _, rfl, rfl, by decide, rfl, rfl, rfl, rfl⟩

/-- Counted in R4 the copy ends, counted in its own pointer R2 it does not. -/
theorem cpuStep_returns_countedCopy : (cpuStep none 65535 (countedCopy 4)).isSome = true ∧
    (cpuStep none 65535 (countedCopy 2)).isSome = false := by
  constructor
  · refine (cpuStep_returns none (countedCopy 4)).1 ?_
    rintro ⟨w, d, executes, endless⟩
    obtain ⟨w', d', runs, ends⟩ : ∃ w d, (countedCopy 4).instruction none = some (w, d) ∧
        ¬w.Endless d.cpu := ⟨_, _, rfl, by decide⟩
    rw [runs] at executes
    obtain ⟨rfl, rfl⟩ : w' = w ∧ d' = d := by simpa using executes
    exact ends endless
  · obtain ⟨w, d, runs, kind, endless, idle⟩ := countedCopy_endless
    have exact := (cpuStep_returns none (countedCopy 2)).2 w d runs kind idle
    exact Bool.not_eq_true _ ▸ fun some => exact.mp some ⟨w, d, runs, endless⟩

/-- The step on it returns within no number of elements. -/
theorem spinning_never_returns : ¬∃ fuel after, cpuStep none fuel (countedCopy 2) = some after := by
  rintro ⟨fuel, after, returns⟩
  obtain ⟨w, d, runs, kind, endless, idle⟩ := countedCopy_endless
  rw [cpuStep_of_instruction runs,
    idle_transfer_spins kind (instruction_fresh runs) endless idle fuel] at returns
  cases returns

end C900
