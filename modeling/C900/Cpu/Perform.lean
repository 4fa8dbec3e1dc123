import C900.Cpu.Unread

/-!
# An instruction from its words

`Machine.perform` is the execution of the words at the program counter, without the cycles that
fetch them: what a step does with an instruction between its fetch and the next boundary.
`Machine.cycles` lists the memory cycles of a program by their kind, segment and offset.
-/

namespace C900

/-! ## Performing an instruction -/

/-- The processor with an instruction fetched from its program counter and the counter moved
behind it. -/
def Cpu.fetchedWith (c : Cpu) (words : Fin 6 → Word) : Cpu :=
  let c := { c.beginFetch with
    opcode := words, curOp := words 0
    segW1 := decodeSegAddrW1 (words 0) c.seg, segW2 := decodeSegAddrW2 (words 0) c.seg }
  let c := { c with oplen := c.reduceLength (decodeLength (words 0) c.seg) }
  { c with pc := c.pcNext }

/-- The control word of the instruction, if its words are one. -/
def Cpu.decodedWith (c : Cpu) (words : Fin 6 → Word) : Option CtrlWord :=
  decodeLookup (words 0) (words 1) (c.fetchedWith words).oplen

/-- The machine after the instruction with these words. -/
def Machine.perform (m : Machine) (words : Fin 6 → Word) : Machine :=
  let loaded := { m with cpu := m.cpu.fetchedWith words }
  match m.cpu.decodedWith words with
  | some w => (execute w loaded).2
  | none => loaded.illegal

/-- The loop over the operand words changes the words and the fault flag. -/
theorem fetchOperands_cpu (slots : List (Fin 6)) (p : Long) (m : Machine) :
    ∃ words fault,
      (fetchOperands slots p m).2.cpu = { m.cpu with opcode := words, fault := fault } := by
  induction slots generalizing p m with
  | nil => exact ⟨m.cpu.opcode, m.cpu.fault, rfl⟩
  | cons i rest inductionHypothesis =>
    obtain ⟨words, fault, cpu⟩ :=
      inductionHypothesis (addrAdd p 2) (Fetched.more m i (addrAdd p 2))
    exact ⟨words, fault, cpu⟩

/-- What the fetch of a step hands to `execute`, but for the fault flag. -/
theorem fetchDecode_fetchedWith {m d : Machine} {w : Option CtrlWord}
    (fetched : fetchDecode m = (w, d)) :
    ({ d.cpu with pc := d.cpu.pcNext }.SameButFault (m.cpu.fetchedWith d.cpu.opcode)) ∧
      w = m.cpu.decodedWith d.cpu.opcode := by
  have run := fetchDecode_run m (m.codeWord 0) m.codeWord_zero
  obtain ⟨-, spec⟩ := fetchDecode_spec m
  let noted : Machine := { Fetched.more m.begun 0 m.cpu.pc with
    cpu := { (Fetched.more m.begun 0 m.cpu.pc).cpu with
      segW1 := decodeSegAddrW1 (m.codeWord 0) m.cpu.seg
      segW2 := decodeSegAddrW2 (m.codeWord 0) m.cpu.seg } }
  obtain ⟨words, fault, cpu⟩ := fetchOperands_cpu
    ([1, 2, 3, 4, 5].take (decodeLength (m.codeWord 0) m.cpu.seg - 1)) m.cpu.pc noted
  rw [fetched] at run spec
  have first : d.cpu.opcode 0 = m.codeWord 0 := by
    rw [spec.fetched.opcode, Machine.opcodeAfter,
      if_pos (show (0 : Fin 6).val < m.fetchedWords from (decodeLength_bounds _ _).1)]
    rfl
  obtain ⟨decoded, after⟩ := Prod.mk.inj run
  rw [cpu] at decoded
  have left := congrArg Machine.cpu after
  dsimp only at left
  rw [cpu] at left
  have opcode : d.cpu.opcode = words := by
    rw [left]
  have start : words 0 = m.codeWord 0 := by
    rw [← opcode]
    exact first
  rw [opcode, left]
  unfold Cpu.decodedWith Cpu.fetchedWith
  rw [start]
  refine ⟨⟨false, ?_⟩, ?_⟩
  · rfl
  · exact decoded

/-- A permitted fetch loads the processor with its words. -/
theorem fetchDecode_started {m d : Machine} {w : CtrlWord} (fetched : fetchDecode m = (some w, d))
    (permitted : d.cpu.fault = false) :
    d.started = { d with cpu := m.cpu.fetchedWith d.cpu.opcode } := by
  obtain ⟨⟨fault, same⟩, -⟩ := fetchDecode_fetchedWith fetched
  have clear : (m.cpu.fetchedWith d.cpu.opcode).fault = false := rfl
  have cpu : d.started.cpu = m.cpu.fetchedWith d.cpu.opcode := by
    rw [same] at clear ⊢
    exact congrArg (fun f => { d.started.cpu with fault := f }) (permitted.trans clear.symm)
  rw [← cpu]
  rfl

/-- A step performs the words that it has fetched, on the bus as the fetch leaves it. -/
theorem execute_fetched {m d : Machine} {w : CtrlWord} (fetched : fetchDecode m = (some w, d))
    (permitted : d.cpu.fault = false) :
    (execute w d.started).2 = ({ d with cpu := m.cpu } : Machine).perform d.cpu.opcode := by
  have decoded := (fetchDecode_fetchedWith fetched).2
  rw [Machine.perform, ← decoded, fetchDecode_started fetched permitted]

/-! ## Segments and offsets -/

theorem offOf_append (s o : Word) : offOf (s ++ o) = o := low_append s o

theorem offOf_addrAdd (a n : Long) : offOf (addrAdd a n) = offOf a + n.setWidth 16 := by
  rw [long_halves a, addrAdd_append, offOf_append, offOf_append]

theorem offOf_addrSub (a n : Long) : offOf (addrSub a n) = offOf a - n.setWidth 16 := by
  rw [long_halves a, addrSub_append, offOf_append, offOf_append]

theorem segOf_addrSub (a n : Long) : segOf (addrSub a n) = segOf a := by
  rw [long_halves a, addrSub_append, segOf_append, segOf_append]

/-- An address in the segment of the program counter. -/
theorem segOf_pcSegment (c : Cpu) (o : Word) :
    segOf (c.pcSegment ||| o.setWidth 32) = segOf c.pc ∧
      offOf (c.pcSegment ||| o.setWidth 32) = o := by
  rw [c.pcSegment_or, segOf_append, offOf_append, Cpu.Target.seven_seven, segOf_high]
  exact ⟨rfl, rfl⟩

/-! ## Memory cycles -/

/-- The kind, the segment and the offset of a memory cycle. -/
def Event.place : Event → Option (Access × Byte × Word)
  | .mem kind _ a _ _ => some (kind, segOf a, offOf a)
  | .ioRead .. | .ioWrite .. => none

/-- The memory cycles from `m` to `x`, in their order. -/
def Machine.cycles (m x : Machine) : List (Access × Byte × Word) :=
  (x.trace.take (x.trace.length - m.trace.length)).reverse.filterMap Event.place

/-- A program started in `m` has these memory cycles. -/
def Cycling {α : Type} (x : Exec α) (m : Machine) (list : List (Access × Byte × Word)) : Prop :=
  ∃ events, (x m).2.trace = events ++ m.trace ∧ events.reverse.filterMap Event.place = list

namespace Cycling

variable {α β : Type} {m : Machine} {list rest : List (Access × Byte × Word)}

theorem cycles {x : Exec α} (run : Cycling x m list) : m.cycles (x m).2 = list := by
  obtain ⟨events, trace, same⟩ := run
  have count : (x m).2.trace.length - m.trace.length = events.length := by
    rw [trace, List.length_append, Nat.add_sub_cancel]
  rw [Machine.cycles, count, trace, List.take_left, same]

/-- The same cycles, listed in another way. -/
theorem listed {x : Exec α} (same : list = rest) (run : Cycling x m list) : Cycling x m rest :=
  same ▸ run

theorem still {x : Exec α} (same : (x m).2.trace = m.trace) : Cycling x m [] := ⟨[], same, rfl⟩

theorem get : Cycling getCpu m [] := still rfl

theorem modify (f : Cpu → Cpu) : Cycling (modifyCpu f) m [] := still rfl

theorem pure (a : α) : Cycling (Pure.pure a) m [] := still rfl

theorem bind {x : Exec α} {f : α → Exec β} (first : Cycling x m list)
    (next : Cycling (f (x m).1) (x m).2 rest) : Cycling (x >>= f) m (list ++ rest) := by
  obtain ⟨before, trace, same⟩ := first
  obtain ⟨after, traceNext, sameNext⟩ := next
  refine ⟨after ++ before, ?_, ?_⟩
  · rw [StateM.bind_apply, traceNext, trace, List.append_assoc]
  · rw [List.reverse_append, List.filterMap_append, same, sameNext]

theorem ite {p : Prop} [Decidable p] {x y : Exec α} (yes : p → Cycling x m list)
    (no : ¬ p → Cycling y m list) : Cycling (if p then x else y) m list := by
  split
  case isTrue holds => exact yes holds
  case isFalse fails => exact no fails

theorem memR16 (a : Long) : Cycling (C900.memR16 a) m [(.read, segOf a, offOf a)] :=
  ⟨[m.memEvent .read true a], rfl, rfl⟩

theorem memW16 (a : Long) (v : Word) : Cycling (C900.memW16 a v) m [(.write, segOf a, offOf a)] :=
  ⟨[m.memEvent .write true a], rfl, rfl⟩

theorem memR8 (a : Long) : Cycling (C900.memR8 a) m [(.read, segOf a, offOf a)] :=
  ⟨[m.memEvent .read false a], rfl, rfl⟩

theorem memW8 (a : Long) (v : Byte) : Cycling (C900.memW8 a v) m [(.write, segOf a, offOf a)] :=
  ⟨[m.memEvent .write false a], rfl, rfl⟩

end Cycling

/-- The cycles of an access of a width. -/
def places (kind : Access) (segment : Byte) (offset : Word) : Width → List (Access × Byte × Word)
  | .long => [(kind, segment, offset), (kind, segment, offset + 2)]
  | .byte | .word => [(kind, segment, offset)]

/-- Two words from an address on. -/
theorem places_long (kind : Access) (a : Long) : [(kind, segOf a, offOf a)] ++
    [(kind, segOf (addrAdd a 2), offOf (addrAdd a 2))] = places kind (segOf a) (offOf a) .long := by
  rw [segOf_addrAdd, offOf_addrAdd]
  rfl

/-- Two reads of a long word. -/
theorem Cycling.readLong {α : Type} {m : Machine} {rest : List (Access × Byte × Word)} (a : Long)
    {f : Word → Word → Exec α}
    (next : let first := C900.memR16 a m
      let second := C900.memR16 (addrAdd a 2) first.2
      Cycling (f first.1 second.1) second.2 rest) :
    Cycling (do
      let hi ← C900.memR16 a
      let lo ← C900.memR16 (addrAdd a 2)
      f hi lo) m (places .read (segOf a) (offOf a) .long ++ rest) := by
  rw [← places_long, List.append_assoc]
  exact (memR16 a).bind ((memR16 _).bind next)

/-- Two writes of a long word. -/
theorem Cycling.writeLong {m : Machine} (a : Long) (hi lo : Word) :
    Cycling (do
      C900.memW16 a hi
      C900.memW16 (addrAdd a 2) lo) m (places .write (segOf a) (offOf a) .long) := by
  rw [← places_long]
  exact (memW16 a _).bind (memW16 _ _)

/-- Where a read goes. -/
theorem Cycling.memReadW (a : Long) (width : Width) (m : Machine) :
    Cycling (C900.memReadW a width) m (places .read (segOf a) (offOf a) width) := by
  cases width with
  | byte => exact (memR8 a).bind (pure _)
  | word => exact (memR16 a).bind (pure _)
  | long => exact readLong a (pure _)

/-- Where a write goes. -/
theorem Cycling.memWriteW (a : Long) (v : Quad) (width : Width) (m : Machine) :
    Cycling (C900.memWriteW a v width) m (places .write (segOf a) (offOf a) width) := by
  cases width with
  | byte => exact memW8 a _
  | word => exact memW16 a _
  | long => exact writeLong a _ _

end C900
