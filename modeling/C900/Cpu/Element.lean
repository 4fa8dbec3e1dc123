import C900.Cpu.Program

/-!
# One element of a block instruction

What one call of a block handler does to the processor: it moves its pointers,
counts down, sets flags, and asks to repeat unless the count is exhausted or the
search has ended. `block_element` says so for the five block classes at once.
-/

namespace C900

/-! ## The registers of a block instruction -/

/-- The block classes. -/
def CtrlWord.isBlock (w : CtrlWord) : Bool :=
  match w.exec with
  | .blockTransfer | .blockCompare | .blockString | .blockIo | .translate => true
  | _ => false

/-- A TRT form: it looks a byte up and leaves memory alone. -/
def CtrlWord.testsTable (w : CtrlWord) : Bool := w.exec == .translate && !w.ioWrite

/-- The pointer registers that an element moves. -/
def Cpu.pointers (c : Cpu) (w : CtrlWord) : List Reg :=
  match w.exec with
  | .blockTransfer | .blockString => [c.srcReg, c.dstReg]
  | .blockCompare => [c.srcReg]
  | .blockIo => [c.ioAddrReg w]
  | .translate => [c.dstReg]
  | _ => []

/-- The distance that an element moves its pointers. -/
def CtrlWord.step (w : CtrlWord) : Word :=
  if w.exec = .translate then w.translateDelta else w.delta

/-- The search of an element has ended: a comparison matched, or a TRT form found a
table byte that is not zero. -/
def CtrlWord.found (w : CtrlWord) (c : Cpu) : Bool :=
  match w.exec with
  | .blockCompare | .blockString => c.fcw &&& fZ != 0
  | .translate => !w.ioWrite && c.fcw &&& fZ == 0
  | _ => false

/-- The pointers and the count after an element. -/
def Cpu.advance (c : Cpu) (w : CtrlWord) : Cpu :=
  ((c.pointers w).foldl (fun d r => d.addToAddrReg r w.step) c).countDown

/-- A TRT form loads RH1 before it moves on. -/
def Cpu.loaded (c : Cpu) (w : CtrlWord) (v : Byte) : Cpu := if w.testsTable then c.wb 1 v else c

/-! ## Register arithmetic -/

section

variable (c : Cpu) (w : CtrlWord)

theorem addToAddrReg_rw (r s : Reg) (d : Word) :
    (c.addToAddrReg r d).rw s = c.rw s + if c.offsetReg r = s then d else 0 := by
  show Function.update c.R (c.offsetReg r) _ s = _
  rw [Function.update_apply]
  split_ifs with same other other
  · rw [same]
  · exact absurd same.symm other
  · exact absurd other.symm same
  · simp [Cpu.rw]

/-- How many of the moved pointers have their offset in register `s`. -/
def Cpu.pointersAt (s : Reg) : Nat := (c.pointers w).countP fun r => c.offsetReg r = s

/-- Moving a list of pointers. -/
theorem movePointers_rw (rs : List Reg) (d : Word) (s : Reg) :
    (rs.foldl (fun e r => e.addToAddrReg r d) c).rw s =
      c.rw s + BitVec.ofNat 16 (rs.countP fun r => c.offsetReg r = s) * d := by
  induction rs generalizing c with
  | nil => simp
  | cons r rest inductionHypothesis =>
      have form : (c.addToAddrReg r d).offsetReg = c.offsetReg := rfl
      rw [List.foldl_cons, inductionHypothesis, form, addToAddrReg_rw, List.countP_cons]
      by_cases here : c.offsetReg r = s
      · simp only [here, if_true, decide_true, BitVec.ofNat_add]
        rw [BitVec.add_mul, BitVec.add_assoc, BitVec.add_comm d, BitVec.one_mul]
      · simp [here]

theorem movePointers_cntReg (rs : List Reg) (d : Word) :
    (rs.foldl (fun e r => e.addToAddrReg r d) c).cntReg = c.cntReg := by
  induction rs generalizing c with
  | nil => rfl
  | cons r rest inductionHypothesis => exact inductionHypothesis (c.addToAddrReg r d)

/-- A register after an element has moved its pointers and counted down. -/
theorem advance_rw (s : Reg) :
    (c.advance w).rw s = c.rw s + BitVec.ofNat 16 (c.pointersAt w s) * w.step -
      if c.cntReg = s then 1 else 0 := by
  have moved := movePointers_rw c (c.pointers w) w.step
  have count := movePointers_cntReg c (c.pointers w) w.step
  show Function.update _ _ _ s = _
  rw [Function.update_apply, count]
  split_ifs with same other other
  · rw [moved, same]
    rfl
  · exact absurd same.symm other
  · exact absurd other.symm same
  · exact (moved s).trans (by simp [Cpu.pointersAt])

theorem loaded_rw (v : Byte) (s : Reg) :
    (c.loaded w v).rw s = if w.testsTable && s == 1 then v ++ loByte (c.rw 1) else c.rw s := by
  unfold Cpu.loaded
  cases w.testsTable with
  | false => rfl
  | true =>
    show Function.update c.R 1 _ s = _
    rw [Function.update_apply]
    by_cases high : s = 1
    · simp [high]
      rfl
    · have other : (s == 1) = false := by simpa using high
      rw [other, Bool.and_false, if_neg Bool.false_ne_true, if_neg high]
      rfl

theorem loaded_fixed (v : Byte) : (c.loaded w v).opcode = c.opcode ∧ (c.loaded w v).seg = c.seg := by
  unfold Cpu.loaded
  split
  · exact ⟨rfl, rfl⟩
  · exact ⟨rfl, rfl⟩

end

/-- The moved pointers depend on the operand fields and the address form. -/
theorem pointersAt_congr {c d : Cpu} (w : CtrlWord) (operands : c.opcode = d.opcode)
    (form : c.seg = d.seg) (s : Reg) : c.pointersAt w s = d.pointersAt w s := by
  have pointers : c.pointers w = d.pointers w := by
    simp only [Cpu.pointers, Cpu.srcReg, Cpu.dstReg, Cpu.ioAddrReg, operands]
  have offsets : c.offsetReg = d.offsetReg := by
    funext r
    rw [Cpu.offsetReg, Cpu.offsetReg, form]
  rw [Cpu.pointersAt, Cpu.pointersAt, pointers, offsets]

/-- The registers after an element depend on the registers, the operand fields and
the address form before it. -/
theorem advance_congr {c d : Cpu} (w : CtrlWord) (registers : c.R = d.R)
    (operands : c.opcode = d.opcode) (form : c.seg = d.seg) :
    (c.advance w).R = (d.advance w).R := by
  funext s
  have same : c.rw s = d.rw s := congrFun registers s
  have field : c.cntReg = d.cntReg := by rw [Cpu.cntReg, Cpu.cntReg, operands]
  have left := advance_rw c w s
  rw [same, field, pointersAt_congr w operands form] at left
  exact left.trans (advance_rw d w s).symm

/-! ## Flags -/

/-- Bits outside the mask of a merge keep their value, bits inside take the new one. -/
theorem merge_test (fcw flags mask bit : Word) (inside : mask &&& bit = bit) :
    ((fcw &&& ~~~mask) ||| (flags &&& mask)) &&& bit = flags &&& bit := by
  have outside : ~~~mask &&& bit = 0 := by
    rw [← inside, ← BitVec.and_assoc, BitVec.not_and_self]
    exact BitVec.zero_and
  rw [BitVec.and_or_distrib_right, BitVec.and_assoc, outside, BitVec.and_assoc, inside]
  simp

/-- The Z flag after the flags of a compare element. -/
theorem compareFlags_z (isMatch empty : Bool) :
    ((flagIf isMatch fZ ||| flagIf empty fPv) &&& fZ != 0) = isMatch := by
  cases isMatch <;> cases empty <;> decide

theorem putFlag_z (c : Cpu) (p : Bool) : ((c.putFlag fZ p).fcw &&& fZ == 0) = !p := by
  rw [Cpu.putFlag_eq]
  show (((c.fcw &&& ~~~fZ) ||| (flagIf p fZ &&& fZ)) &&& fZ == 0) = !p
  rw [merge_test _ _ _ _ (by decide)]
  cases p <;> decide

/-! ## The element -/

/-- From `c` to `d` by one element of a block instruction. -/
structure Element (w : CtrlWord) (c d : Cpu) : Prop where
  registers : ∃ v, (w.testsTable = true → w.found d = (v != 0)) ∧ d.R = ((c.loaded w v).advance w).R
  frame : d = { c with
    R := d.R, fcw := d.fcw, repeatPending := d.repeatPending, fault := d.fault }
  control : d.control w.blockRept = c.control w.blockRept
  wish : d.repeatPending =
    (c.repeatPending || (w.blockRept && d.rw d.cntReg != 0 && !w.found d))

namespace Element

variable {w : CtrlWord} {c d : Cpu}

/-- The cycles before an update only set the fault flag. -/
theorem ofFault {fault : Bool} (element : Element w { c with fault := fault } d) :
    Element w c d := by
  obtain ⟨v, search, registers⟩ := element.registers
  refine ⟨⟨v, search, ?_⟩, element.frame, element.control, element.wish⟩
  let faulted := { c with fault := fault }
  obtain ⟨operands, form⟩ := loaded_fixed c w v
  obtain ⟨operandsF, formF⟩ := loaded_fixed faulted w v
  have same : (faulted.loaded w v).R = (c.loaded w v).R := by
    funext s
    exact (loaded_rw faulted w v s).trans (loaded_rw c w v s).symm
  rw [registers]
  exact advance_congr w same (operandsF.trans operands.symm) (formF.trans form.symm)

theorem opcode (element : Element w c d) : d.opcode = c.opcode := by rw [element.frame]

theorem seg (element : Element w c d) : d.seg = c.seg := Cpu.seg_of_control element.control

theorem sysmode (element : Element w c d) : d.sysmode = c.sysmode :=
  Cpu.sysmode_of_control element.control

end Element

variable {w : CtrlWord} (c : Cpu)

theorem transfer_element (kind : w.exec = .blockTransfer) : Element w c
    (((c.addToAddrReg c.srcReg w.delta).addToAddrReg c.dstReg w.delta).endTransfer w) where
  registers := ⟨0, by simp [CtrlWord.testsTable, kind], by
    simp [Cpu.loaded, CtrlWord.testsTable, Cpu.advance, Cpu.pointers, CtrlWord.step, kind]
    rfl⟩
  frame := rfl
  control := by rw [Cpu.endTransfer_control, Cpu.addToAddrReg_control, Cpu.addToAddrReg_control]
  wish := by
    simp only [CtrlWord.found, kind, Bool.not_false, Bool.and_true]
    rfl

theorem blockIo_element (kind : w.exec = .blockIo) :
    Element w c ((c.addToAddrReg (c.ioAddrReg w) w.delta).endTransfer w) where
  registers := ⟨0, by simp [CtrlWord.testsTable, kind], by
    simp [Cpu.loaded, CtrlWord.testsTable, Cpu.advance, Cpu.pointers, CtrlWord.step, kind]
    rfl⟩
  frame := rfl
  control := by rw [Cpu.endTransfer_control, Cpu.addToAddrReg_control]
  wish := by
    simp only [CtrlWord.found, kind, Bool.not_false, Bool.and_true]
    rfl

/-- A compare element over the pointers that `moved` moves. -/
theorem search_element (kind : w.exec = .blockCompare ∨ w.exec = .blockString) (a b : Word)
    (moved : Cpu → Cpu)
    (moves : ∀ d, moved d = (d.pointers w).foldl (fun e r => e.addToAddrReg r w.delta) d) :
    Element w c (c.endCompare w (compareElements w a b) moved) := by
  have table : w.testsTable = false := by
    rcases kind with kind | kind <;> simp [CtrlWord.testsTable, kind]
  have step : w.step = w.delta := by
    rcases kind with kind | kind <;> simp [CtrlWord.step, kind]
  have shape : ∀ rs : List Reg, ∀ d : Cpu, ∃ R,
      rs.foldl (fun e r => e.addToAddrReg r w.delta) d = { d with R := R } := by
    intro rs
    induction rs with
    | nil => exact fun d => ⟨d.R, rfl⟩
    | cons r rest inductionHypothesis =>
        intro d
        obtain ⟨R, moved⟩ := inductionHypothesis (d.addToAddrReg r w.delta)
        exact ⟨R, moved⟩
  have keeps : ∀ d, (moved d).control w.blockRept = d.control w.blockRept := by
    intro d
    obtain ⟨R, same⟩ := shape (d.pointers w) d
    rw [moves, same]
    rfl
  let flagged := c.applyFlags (compareElements w a b)
  have searched : w.found (c.endCompare w (compareElements w a b) moved) =
      flagged.condTrue (nib3 (flagged.opcode 1)) := by
    have z : ∀ fcw flags mask : Word, mask &&& fZ = fZ →
        (((fcw &&& ~~~mask) ||| (flags &&& mask)) &&& fZ != 0) = (flags &&& fZ != 0) := by
      intro fcw flags mask inside
      rw [merge_test _ _ _ _ inside]
    have flag : w.found (c.endCompare w (compareElements w a b) moved) =
        ((c.endCompare w (compareElements w a b) moved).fcw &&& fZ != 0) := by
      rcases kind with kind | kind <;> simp [CtrlWord.found, kind]
    rw [flag]
    dsimp only [Cpu.endCompare, Cpu.repeatIf, Cpu.mergeFlags]
    rw [z _ _ _ (by decide), compareFlags_z]
  refine ⟨⟨0, by simp [table], ?_⟩, ?_, c.endCompare_control w a b moved keeps, ?_⟩
  · have registers : (c.endCompare w (compareElements w a b) moved).R =
        (moved flagged).countDown.R := rfl
    rw [registers, moves]
    simp only [Cpu.loaded, table, Bool.false_eq_true, if_false]
    funext s
    have left := advance_rw flagged w s
    have right := advance_rw c w s
    have form : ∀ r, flagged.offsetReg r = c.offsetReg r := by
      intro r
      have kept : flagged.control true = c.control true := by
        show (c.applyFlags _).control true = _
        rw [compareElements, Cpu.applyFlags_control]
      rw [Cpu.offsetReg, Cpu.offsetReg, Cpu.seg_of_control kept]
    have pointers : flagged.pointers w = c.pointers w := rfl
    simp only [Cpu.pointersAt, form, pointers] at left right
    rw [Cpu.advance, step, pointers] at left
    rw [step] at right
    exact left.trans right.symm
  · obtain ⟨R, same⟩ := shape (flagged.pointers w) flagged
    have unfolded : c.endCompare w (compareElements w a b) moved =
        { c with
          R := (c.endCompare w (compareElements w a b) moved).R
          fcw := (c.endCompare w (compareElements w a b) moved).fcw
          repeatPending := (c.endCompare w (compareElements w a b) moved).repeatPending } := by
      dsimp only [Cpu.endCompare, Cpu.repeatIf, Cpu.mergeFlags, Cpu.countDown]
      rw [moves, same]
      rfl
    rw [unfolded]
  · rw [searched]
    obtain ⟨R, same⟩ := shape (flagged.pointers w) flagged
    dsimp only [Cpu.endCompare, Cpu.repeatIf, Cpu.mergeFlags, Cpu.countDown]
    rw [moves, same]
    rfl

theorem translate_element (kind : w.exec = .translate) (out : w.ioWrite = true) (v : Byte) :
    Element w c (c.endTranslate w v) := by
  have table : w.testsTable = false := by simp [CtrlWord.testsTable, out]
  have search : ∀ d, w.found d = false := fun d => by simp [CtrlWord.found, kind, out]
  refine ⟨⟨0, by simp [table], ?_⟩, ?_, c.endTranslate_control w v, ?_⟩
  · simp only [Cpu.loaded, table, Bool.false_eq_true, if_false, Cpu.advance, Cpu.pointers,
      CtrlWord.step, kind, if_true, List.foldl_cons, List.foldl_nil]
    dsimp only [Cpu.endTranslate]
    split <;> rfl
  · dsimp only [Cpu.endTranslate]
    split <;> rfl
  · rw [search]
    simp only [Bool.not_false, Bool.and_true]
    dsimp only [Cpu.endTranslate]
    split <;> rfl

theorem translateTest_element (kind : w.exec = .translate) (test : w.ioWrite = false) (v : Byte) :
    Element w c (c.endTranslateTest w v) := by
  have table : w.testsTable = true := by simp [CtrlWord.testsTable, kind, test]
  have shape : ∃ R, c.wb 1 v = { c with R := R } := ⟨_, rfl⟩
  obtain ⟨R, loaded⟩ := shape
  have search : w.found (c.endTranslateTest w v) = !(v == 0) := by
    have flag := putFlag_z ((((c.wb 1 v).addToAddrReg c.dstReg w.translateDelta)).countDown) (v == 0)
    simpa [CtrlWord.found, kind, test, Cpu.endTranslateTest, Cpu.repeatIf] using flag
  refine ⟨⟨v, fun _ => search, ?_⟩, ?_, c.endTranslateTest_control w v, ?_⟩
  · simp only [Cpu.loaded, table, if_true, Cpu.advance, Cpu.pointers, CtrlWord.step, kind,
      List.foldl_cons, List.foldl_nil]
    rfl
  · rfl
  · rw [search]
    simp only [Bool.not_not]
    rfl

/-! ## The handlers -/

/-- The processors differ in the fault flag at most. -/
def Cpu.SameButFault (c d : Cpu) : Prop := ∃ fault, d = { c with fault := fault }

namespace Cpu.SameButFault

theorem refl (c : Cpu) : c.SameButFault c := ⟨c.fault, rfl⟩

theorem trans {c d e : Cpu} (first : c.SameButFault d) (second : d.SameButFault e) :
    c.SameButFault e := by
  obtain ⟨_, rfl⟩ := first
  obtain ⟨fault, rfl⟩ := second
  exact ⟨fault, rfl⟩

/-- The cycles before an element. -/
theorem element {w : CtrlWord} {c d e : Cpu} (same : c.SameButFault d) (element : Element w d e) :
    Element w c e := by
  obtain ⟨fault, rfl⟩ := same
  exact element.ofFault

end Cpu.SameButFault

section

variable (w : CtrlWord) (a : Long) (m : Machine)

theorem memReadElement_machine :
    (memReadElement w a m).2 = m.cycle .read (w.width != .byte) a := by
  unfold memReadElement
  cases w.width <;> rfl

theorem memReadElement_cpu : m.cpu.SameButFault (memReadElement w a m).2.cpu := by
  rw [memReadElement_machine]
  exact ⟨_, rfl⟩

theorem memWriteElement_cpu (v : Word) : m.cpu.SameButFault (memWriteElement w a v m).2.cpu := by
  unfold memWriteElement
  cases w.width <;> exact ⟨_, rfl⟩

theorem memR8_cpu : m.cpu.SameButFault (memR8 a m).2.cpu := ⟨_, rfl⟩

theorem memR16_cpu : m.cpu.SameButFault (memR16 a m).2.cpu := ⟨_, rfl⟩

theorem memW8_cpu (v : Byte) : m.cpu.SameButFault (memW8 a v m).2.cpu := ⟨_, rfl⟩

theorem memW16_cpu (v : Word) : m.cpu.SameButFault (memW16 a v m).2.cpu := ⟨_, rfl⟩

theorem memReadW_cpu (width : Width) : m.cpu.SameButFault (memReadW a width m).2.cpu := by
  cases width with
  | byte => exact memR8_cpu a m
  | word => exact memR16_cpu a m
  | long => exact (memR16_cpu a m).trans (memR16_cpu (addrAdd a 2) (memR16 a m).2)

theorem ioReadCycle_cpu (port : Word) (isByte special : Bool) :
    (ioReadCycle port isByte special m).2.cpu = m.cpu := ioRead_cpu m port special

theorem ioWriteCycle_cpu (port data : Word) (isByte special : Bool) :
    (ioWriteCycle port data isByte special m).2.cpu = m.cpu := ioWrite_cpu m port data special

end

/-- A guarded block runs in system mode. -/
theorem privileged_system (body : Exec Unit) (m : Machine) (system : m.cpu.sysmode = true) :
    privileged body m = body m := by
  have choice : privileged body m =
      (if m.cpu.sysmode then body else modifyCpu (·.request irqTrap)) m := rfl
  rw [choice, system]
  rfl

section

variable {w : CtrlWord} (m : Machine)

theorem execBlockTransfer_element (kind : w.exec = .blockTransfer) :
    Element w m.cpu (execBlockTransfer w m).2.cpu := by
  let first := memReadElement w (m.cpu.addrFromReg m.cpu.srcReg) m
  let second := memWriteElement w (m.cpu.addrFromReg m.cpu.dstReg) first.1 first.2
  have cycles : m.cpu.SameButFault second.2.cpu :=
    (memReadElement_cpu w _ m).trans (memWriteElement_cpu w _ _ _)
  exact cycles.element (transfer_element second.2.cpu kind)

theorem execBlockCompare_element (kind : w.exec = .blockCompare) :
    Element w m.cpu (execBlockCompare w m).2.cpu := by
  let first := memReadElement w (m.cpu.addrFromReg m.cpu.srcReg) m
  refine (memReadElement_cpu w _ m).element
    (search_element first.2.cpu (.inl kind) _ first.1
      (fun c => c.addToAddrReg c.srcReg w.delta) fun d => ?_)
  simp only [Cpu.pointers, kind]
  rfl

theorem execBlockString_element (kind : w.exec = .blockString) :
    Element w m.cpu (execBlockString w m).2.cpu := by
  let first := memReadElement w (m.cpu.addrFromReg m.cpu.srcReg) m
  let second := memReadElement w (m.cpu.addrFromReg m.cpu.dstReg) first.2
  have cycles : m.cpu.SameButFault second.2.cpu :=
    (memReadElement_cpu w _ m).trans (memReadElement_cpu w _ _)
  refine cycles.element
    (search_element second.2.cpu (.inr kind) first.1 second.1
      (fun c => (c.addToAddrReg c.srcReg w.delta).addToAddrReg c.dstReg w.delta) fun d => ?_)
  simp only [Cpu.pointers, kind]
  rfl

theorem execBlockIo_element (kind : w.exec = .blockIo) (system : m.cpu.sysmode = true) :
    Element w m.cpu (execBlockIo w m).2.cpu := by
  have finish : ∀ t : Machine, m.cpu.SameButFault t.cpu → Element w m.cpu
      (modifyCpu (fun c => (c.addToAddrReg (c.ioAddrReg w) w.delta).endTransfer w) t).2.cpu :=
    fun t same => same.element (blockIo_element t.cpu kind)
  rw [execBlockIo, privileged_system _ m system]
  cases direction : w.ioWrite with
  | true =>
    simp only [StateM.bind_apply, if_true]
    refine finish _ ?_
    rw [ioWriteCycle_cpu]
    exact memReadElement_cpu w _ m
  | false =>
    simp only [StateM.bind_apply, Bool.false_eq_true, if_false]
    refine finish _ (Cpu.SameButFault.trans ?_ (memWriteElement_cpu w _ _ _))
    rw [ioReadCycle_cpu]
    exact .refl m.cpu

theorem execTranslate_element (kind : w.exec = .translate) :
    Element w m.cpu (execTranslate w m).2.cpu := by
  let first := memR8 (m.cpu.addrFromReg m.cpu.dstReg) m
  let second := memR8 (addrAdd (m.cpu.addrFromReg m.cpu.srcReg) (first.1.setWidth 32)) first.2
  have reads : m.cpu.SameButFault second.2.cpu := (memR8_cpu _ m).trans (memR8_cpu _ _)
  cases direction : w.ioWrite with
  | true =>
    have stored : execTranslate w m =
        modifyCpu (·.endTranslate w second.1)
          (memW8 (m.cpu.addrFromReg m.cpu.dstReg) second.1 second.2).2 := by
      simp only [execTranslate, direction, if_true]
      rfl
    rw [stored]
    exact (reads.trans (memW8_cpu _ _ _)).element (translate_element _ kind direction _)
  | false =>
    have tested : execTranslate w m = modifyCpu (·.endTranslateTest w second.1) second.2 := by
      simp only [execTranslate, direction, Bool.false_eq_true, if_false]
      rfl
    rw [tested]
    exact reads.element (translateTest_element _ kind direction _)

/-- A call of a block handler is one element. -/
theorem block_element (block : w.isBlock = true)
    (allowed : w.exec = .blockIo → m.cpu.sysmode = true) :
    Element w m.cpu (execute w m).2.cpu := by
  unfold execute
  cases kind : w.exec with
  | blockTransfer => exact execBlockTransfer_element m kind
  | blockCompare => exact execBlockCompare_element m kind
  | blockString => exact execBlockString_element m kind
  | blockIo => exact execBlockIo_element m kind (allowed kind)
  | translate => exact execTranslate_element m kind
  | _ => simp [CtrlWord.isBlock, kind] at block

end

end C900
