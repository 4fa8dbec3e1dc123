import C900.Cpu.Calls
import C900.Cpu.Perform
import C900.Cpu.Record
import Mathlib.Logic.Relation

/-!
# The repeat loop and the scheme it stands for

`Machine.stepOnce` is a step without the in-place loop: a repeating instruction executes one
element and goes back to its own address, to be fetched again. `cpuStep_refetching` says that the
loop comes to the same state, and `cpuRun_refetching` that a run of steps does.
-/

namespace C900

/-- A step that executes one element at most. -/
def Machine.stepOnce (hook : SysHook) (m : Machine) : Machine :=
  match handleInterrupts hook m.beginStep with
  | (true, m) => m
  | (false, m) =>
    if m.cpu.halted then m
    else match fetchDecode m with
      | (none, m) => m.illegal
      | (some w, m) => (executeElement w m.started).leave m.cpu.pcNext

/-- Without a fault the address does not matter. -/
theorem Machine.leave_calm {m : Machine} (calm : m.cpu.fault = false) (p q : Long) :
    m.leave p = m.leave q := by
  simp only [Machine.leave, calm, Bool.false_eq_true, if_false]

/-- A step does the same on machines that differ in the record of their cycles. -/
theorem stepOnce_sameState {m n : Machine} (same : m.SameState n) :
    (m.stepOnce none).SameState (n.stepOnce none) := by
  have boundary := handleInterrupts_unrecorded _ _ same.beginStep
  unfold Machine.stepOnce
  generalize handleInterrupts none m.beginStep = first at boundary ⊢
  generalize handleInterrupts none n.beginStep = second at boundary ⊢
  obtain ⟨taken, x⟩ := first
  obtain ⟨takenAlso, y⟩ := second
  obtain ⟨rfl, after⟩ : taken = takenAlso ∧ x.SameState y := boundary
  cases taken with
  | true => exact after
  | false =>
    dsimp only
    rw [after.cpu]
    split_ifs with halted
    · exact after
    · have fetch := fetchDecode_unrecorded _ _ after
      generalize known : fetchDecode x = first at fetch ⊢
      generalize fetchDecode y = second at fetch ⊢
      obtain ⟨decoded, d⟩ := first
      obtain ⟨decodedAlso, e⟩ := second
      obtain ⟨rfl, left⟩ : decoded = decodedAlso ∧ d.SameState e := fetch
      cases decoded with
      | none => exact left.illegal
      | some w =>
        dsimp only
        rw [left.cpu]
        exact (executeElement_sameState (fetchDecode_pool known) left.started).leave _

/-- A step that executes an instruction. -/
theorem stepOnce_run {hook : SysHook} {m d : Machine} {w : CtrlWord}
    (idle : m.beginStep.sampled.cpu.trapSource = none)
    (awake : m.beginStep.sampled.cpu.halted = false)
    (fetched : fetchDecode m.beginStep.sampled = (some w, d)) :
    m.stepOnce hook = (executeElement w d.started).leave d.cpu.pcNext := by
  unfold Machine.stepOnce
  rw [handleInterrupts_idle hook idle]
  dsimp only
  rw [awake, if_neg Bool.false_ne_true, fetched]

/-! ## What stays along the elements -/

/-- The segment is marked referenced. -/
def Mmu.Marked (u : Mmu) (s : BitVec 6) : Prop := (u.desc s).touch false = u.desc s

theorem MmuDesc.touch_marked (d : MmuDesc) (isWrite : Bool) :
    (d.touch isWrite).touch false = d.touch isWrite := by
  have again : ∀ a : Byte, a ||| aRef ||| aChg ||| aRef = a ||| aRef ||| aChg := by decide
  cases isWrite with
  | false => exact d.touch_touch
  | true => simp only [touch, Bool.false_eq_true, if_false, if_true, again]

theorem Mmu.Marked.setDesc_touch {u : Mmu} {s : BitVec 6} (marked : u.Marked s) (t : BitVec 6)
    (isWrite : Bool) : (u.setDesc t ((u.desc t).touch isWrite)).Marked s := by
  unfold Mmu.Marked
  rw [Mmu.setDesc_desc, Function.update_apply]
  split_ifs
  · exact MmuDesc.touch_marked _ isWrite
  · exact marked

/-- No translation takes a mark back. -/
theorem Mmu.Marked.translate {u : Mmu} {s : BitVec 6} (marked : u.Marked s) (sn : Byte)
    (off : Word) (isWrite n f : Bool) : (mmuTranslate u sn off isWrite n f).2.2.Marked s := by
  unfold mmuTranslate
  dsimp only
  split_ifs
  · exact marked
  · exact marked.setDesc_touch _ isWrite
  · unfold protectionLadder
    dsimp only
    cases ladderViol (u.desc (segIndex sn)) ((off >>> 8).setWidth 8) isWrite n f with
    | some viol =>
      unfold Mmu.Marked
      rw [latchViol_desc]
      exact marked
    | none =>
      have touched := marked.setDesc_touch (segIndex sn) isWrite
      dsimp only
      split_ifs
      · unfold Mmu.Marked
        rw [latchViol_desc]
        exact touched
      · exact touched

/-- The unit translates as before and has lost no mark. -/
structure Mmu.Keeps (u v : Mmu) : Prop where
  map : v.SameMap u
  marked : ∀ s, u.Marked s → v.Marked s

namespace Mmu.Keeps

variable {u v x : Mmu}

theorem refl (u : Mmu) : u.Keeps u := ⟨.refl u, fun _ marked => marked⟩

theorem trans (first : u.Keeps v) (second : v.Keeps x) : u.Keeps x :=
  ⟨second.map.trans first.map, fun s marked => second.marked s (first.marked s marked)⟩

theorem translate (u : Mmu) (sn : Byte) (off : Word) (w n f : Bool) :
    u.Keeps (mmuTranslate u sn off w n f).2.2 :=
  ⟨mmuTranslate_sameMap .., fun _ marked => marked.translate ..⟩

end Mmu.Keeps

/-- A program that needs no privilege keeps the map and the marks. -/
theorem PlainProgram.keeps {rept : Bool} {α : Type} {y : Exec α} (program : PlainProgram rept y)
    (m : Machine) : m.mmu.Keeps (y m).2.mmu := by
  refine program.preserves (fun s t => s.mmu.Keeps t.mmu) (fun s => .refl s.mmu)
    (fun _ _ _ first second => first.trans second) (fun β y operation s => ?_) m
  cases operation with
  | get | modify => exact .refl _
  | fetch a | readWord a | readByte a | writeWord a | writeByte a => exact .translate ..

/-- The processor after elements differs in registers, flags, the flags of the step, the requests
and the count of instructions. -/
structure Cpu.Working (c d : Cpu) : Prop where
  frame : d = { c with
    R := d.R, fcw := d.fcw, repeatPending := d.repeatPending, fault := d.fault
    irqReq := d.irqReq, insns := d.insns }
  seg : d.seg = c.seg
  sysmode : d.sysmode = c.sysmode

namespace Cpu.Working

variable {c d e : Cpu}

theorem refl (c : Cpu) : c.Working c := ⟨rfl, rfl, rfl⟩

theorem trans (first : c.Working d) (second : d.Working e) : c.Working e := by
  refine ⟨?_, second.seg.trans first.seg, second.sysmode.trans first.sysmode⟩
  rw [second.frame, first.frame]

end Cpu.Working

section

variable {w : CtrlWord} (decoded : w ∈ pool) (repeats : w.blockRept = true)
  (memory : w.exec ≠ .blockIo)

include decoded repeats memory

theorem block_unprivileged : w.isPrivileged = false := by
  have block := (pool_repeating w decoded repeats).1
  unfold CtrlWord.isBlock at block
  unfold CtrlWord.isPrivileged
  cases kind : w.exec <;> simp_all

theorem nextElement_working (m : Machine) : m.cpu.Working (m.nextElement w).cpu := by
  have block := (pool_repeating w decoded repeats).1
  have element := block_element m.clearRepeat block fun io => absurd io memory
  obtain ⟨irqReq, counted⟩ := executeElement_cpu w m.clearRepeat
  have cleared : m.cpu.Working m.clearRepeat.cpu := ⟨rfl, rfl, rfl⟩
  have executed : m.clearRepeat.cpu.Working (execute w m.clearRepeat).2.cpu := by
    refine ⟨?_, element.seg, element.sysmode⟩
    rw [element.frame]
  refine (cleared.trans executed).trans ?_
  rw [Machine.nextElement, counted]
  exact ⟨rfl, rfl, rfl⟩

theorem nextElement_keeps (m : Machine) : m.mmu.Keeps (m.nextElement w).mmu := by
  have plain := execute_plain decoded (block_unprivileged decoded repeats memory)
  have executed : m.mmu.Keeps (execute w m.clearRepeat).2.mmu := plain.keeps m.clearRepeat
  refine executed.trans ?_
  unfold Machine.nextElement executeElement Machine.takeWarning
  dsimp only
  split_ifs
  · exact ⟨⟨rfl, rfl, rfl, fun _ => rfl⟩, fun _ marked => marked⟩
  · exact .refl _

theorem elementRun_working (m : Machine) (k : Nat) :
    m.cpu.Working (elementRun w m k).cpu ∧ m.mmu.Keeps (elementRun w m k).mmu := by
  induction k with
  | zero => exact ⟨.refl _, .refl _⟩
  | succ k inductionHypothesis =>
    obtain ⟨working, keeps⟩ := inductionHypothesis
    rw [elementRun_succ]
    exact ⟨working.trans (nextElement_working decoded repeats memory _),
      keeps.trans (nextElement_keeps decoded repeats memory _)⟩

end

/-! ## The fetch of a machine that has gone back -/

/-- The processor behind the fetch of the words that it has executed an element of. -/
theorem Cpu.Working.fetchedWith {c e : Cpu} {words : Fin 6 → Word}
    (working : (c.fetchedWith words).Working e) (calm : e.fault = false) :
    ({ e with repeatPending := false, pc := e.instrStart } : Cpu).fetchedWith words =
      { e with repeatPending := false } := by
  have seg : e.seg = c.seg := working.seg
  obtain ⟨R, fcw, repeatPending, fault, irqReq, insns, rfl⟩ :
      ∃ R fcw repeatPending fault irqReq insns, e = { c.fetchedWith words with
        R := R, fcw := fcw, repeatPending := repeatPending, fault := fault
        irqReq := irqReq, insns := insns } := ⟨_, _, _, _, _, _, working.frame⟩
  obtain rfl : fault = false := calm
  have form : (fcw &&& fcwSeg != 0) = (c.fcw &&& fcwSeg != 0) := seg
  simp only [Cpu.fetchedWith, Cpu.beginFetch, Cpu.seg, form]
  rfl

namespace Machine

variable {m : Machine}

/-- Where the segment is marked already, permitted fetches leave the unit alone. -/
theorem mmuAfter_of_marked {n : Nat} (permitted : ∀ i < n, m.refusesCode i = false)
    (marked : m.mmu.translates (segOf m.cpu.pc) = true →
      m.mmu.Marked (segIndex (segOf m.cpu.pc))) : m.mmuAfter n = m.mmu := by
  induction n with
  | zero => rfl
  | succ n inductionHypothesis =>
    have before := inductionHypothesis fun i below => permitted i (Nat.lt_succ_of_lt below)
    have here := permitted n (Nat.lt_succ_self n)
    rw [m.mmuAfter_succ, before]
    have granted : (mmuTranslate m.mmu (segOf m.cpu.pc) (offOf (m.codeAddr n)) false
        (!m.cpu.sysmode) true).2.1 = false := by
      rw [← m.segOf_codeAddr n]
      exact here
    rw [mmuTranslate_fetch granted]
    split_ifs with acts
    · have same : (m.mmu.desc (segIndex (segOf m.cpu.pc))).touch false =
          m.mmu.desc (segIndex (segOf m.cpu.pc)) := marked acts
      rw [same, Mmu.setDesc, Function.update_eq_self]
    · rfl

/-- A permitted fetch marks the segment. -/
theorem mmuAfter_marks (n : Nat) (permitted : m.refusesCode 0 = false)
    (acts : m.mmu.translates (segOf m.cpu.pc) = true) :
    (m.mmuAfter (n + 1)).Marked (segIndex (segOf m.cpu.pc)) := by
  induction n with
  | zero =>
    have granted : (mmuTranslate m.mmu (segOf m.cpu.pc) (offOf (m.codeAddr 0)) false
        (!m.cpu.sysmode) true).2.1 = false := by
      rw [← m.segOf_codeAddr 0]
      exact permitted
    rw [m.mmuAfter_succ, mmuAfter, mmuTranslate_fetch granted, if_pos acts]
    unfold Mmu.Marked
    rw [Mmu.setDesc_desc, Function.update_self]
    exact MmuDesc.touch_marked _ false
  | succ n inductionHypothesis =>
    rw [m.mmuAfter_succ]
    exact inductionHypothesis.translate ..

end Machine

/-- The request lines that would not stop the loop request nothing at a boundary. -/
theorem Cpu.sampleLines_of_quiet {c : Cpu} (quiet : c.preempted = false) :
    c.sampleLines = c ∧ c.trapSource = none := by
  simp only [preempted, Bool.or_eq_false_iff] at quiet
  obtain ⟨⟨⟨⟨nmi, segt⟩, vi⟩, nvi⟩, requests⟩ := quiet
  have none : c.irqReq = 0 := bne_eq_false_iff_eq.mp requests
  constructor
  · simp only [sampleLines, nmi, segt, nvi, vi, Bool.false_eq_true, if_false]
  · simp [trapSource, none]

/-! ## The step that fetches again -/

namespace Machine

/-- The code that `x` is about to execute is in the memory of `e`. -/
def CodeKept (x e : Machine) : Prop :=
  ∀ i < x.fetchedWords, physRead16 e.bus (x.physOf .fetch (x.codeAddr i)) = x.codeWord i

/-- `y` is about to execute the code of `x`. -/
structure SameCode (x y : Machine) : Prop where
  pc : y.cpu.pc = x.cpu.pc
  seg : y.cpu.seg = x.cpu.seg
  sysmode : y.cpu.sysmode = x.cpu.sysmode
  map : y.mmu.SameMap x.mmu
  kept : x.CodeKept y

namespace SameCode

variable {x y : Machine} (same : x.SameCode y)

include same

theorem codeAddr (i : Nat) : y.codeAddr i = x.codeAddr i := by
  rw [Machine.codeAddr, Machine.codeAddr, same.pc]

theorem access (a : Long) : y.physOf .fetch a = x.physOf .fetch a ∧
    y.violates .fetch a = x.violates .fetch a := by
  unfold Machine.physOf Machine.violates Machine.translate
  rw [same.sysmode]
  exact same.map.translate (segOf a) (offOf a) false (!x.cpu.sysmode) true

theorem refusesCode (i : Nat) : y.refusesCode i = x.refusesCode i := by
  rw [Machine.refusesCode, same.codeAddr, (same.access _).2, Machine.refusesCode]

theorem codeWord {i : Nat} (below : i < x.fetchedWords) : y.codeWord i = x.codeWord i := by
  rw [Machine.codeWord, same.codeAddr, (same.access _).1]
  exact same.kept i below

theorem fetchedWords : y.fetchedWords = x.fetchedWords := by
  have first := same.codeWord (decodeLength_bounds (x.codeWord 0) x.cpu.seg).1
  rw [Machine.fetchedWords, first, same.seg, Machine.fetchedWords]

end SameCode

/-- The fetch raises no violation when every word can be fetched. -/
theorem fetchDecode_calm_iff (m : Machine) :
    (fetchDecode m).2.cpu.fault = false ↔ ∀ i < m.fetchedWords, m.refusesCode i = false := by
  have fault : (fetchDecode m).2.cpu.fault = (List.range m.fetchedWords).any m.refusesCode :=
    (fetchDecode_spec m).2.fetched.fault.trans (Bool.false_or _)
  rw [fault, List.any_eq_false]
  simp only [List.mem_range, Bool.not_eq_true]

end Machine

section

variable {hook : SysHook} {w : CtrlWord} {x d e y : Machine}
  (fetched : fetchDecode x = (some w, d)) (permitted : d.cpu.fault = false)
  (working : d.started.cpu.Working e.cpu) (keeps : d.mmu.Keeps e.mmu) (calm : e.cpu.fault = false)
  (kept : x.CodeKept e) (same : e.clearRepeat.rewind.SameState y)

include fetched permitted working

/-- The elements work on the words that the fetch has loaded. -/
theorem working_loaded : (x.cpu.fetchedWith d.cpu.opcode).Working e.cpu := by
  have started := fetchDecode_started fetched permitted
  rw [started] at working
  exact working

include keeps kept same

/-- Elements leave the instruction where it is. -/
theorem rewound_sameCode : x.SameCode y := by
  have loaded := working_loaded fetched permitted working
  have spec := (fetchDecode_spec x).2
  rw [fetched] at spec
  refine ⟨?_, ?_, ?_, ?_, ?_⟩
  · calc y.cpu.pc = e.cpu.instrStart := by rw [same.cpu]; rfl
      _ = x.cpu.pc := by rw [loaded.frame]; rfl
  · calc y.cpu.seg = e.cpu.seg := by rw [same.cpu]; rfl
      _ = x.cpu.seg := loaded.seg
  · calc y.cpu.sysmode = e.cpu.sysmode := by rw [same.cpu]; rfl
      _ = x.cpu.sysmode := loaded.sysmode
  · have fetchedMap : d.mmu.SameMap x.mmu := by
      rw [spec.fetched.mmu]
      exact x.begun.mmuAfter_sameMap _
    rw [same.mmu]
    exact keeps.map.trans fetchedMap
  · intro i below
    rw [same.bus]
    exact kept i below

/-- The words can be fetched once more. -/
theorem refetch_permitted : ∀ i < y.fetchedWords, y.refusesCode i = false := by
  have code := rewound_sameCode fetched permitted working keeps kept same
  have free := x.fetchDecode_calm_iff
  rw [fetched] at free
  intro i below
  rw [code.refusesCode]
  exact free.mp permitted i (code.fetchedWords ▸ below)

/-- The fetch loads the same words; those behind the instruction are left over from before. -/
theorem refetch_opcode : (fetchDecode y).2.cpu.opcode = d.cpu.opcode := by
  have code := rewound_sameCode fetched permitted working keeps kept same
  have spec := (fetchDecode_spec x).2
  rw [fetched] at spec
  have leftOver : y.cpu.opcode = d.cpu.opcode := by
    calc y.cpu.opcode = e.cpu.opcode := by rw [same.cpu]; rfl
      _ = d.cpu.opcode := by rw [working.frame]; rfl
  funext i
  have loaded : d.cpu.opcode i = _ := congrFun spec.fetched.opcode i
  rw [(fetchDecode_spec y).2.fetched.opcode, Machine.opcodeAfter, code.fetchedWords]
  split_ifs with below
  · rw [loaded, Machine.opcodeAfter, if_pos below]
    exact code.codeWord below
  · exact congrFun leftOver i

/-- The first fetch has marked the segment, so the next one finds the mark. -/
theorem refetch_marked (acts : y.mmu.translates (segOf y.cpu.pc) = true) :
    y.mmu.Marked (segIndex (segOf y.cpu.pc)) := by
  have code := rewound_sameCode fetched permitted working keeps kept same
  have spec := (fetchDecode_spec x).2
  have free := x.fetchDecode_calm_iff
  rw [fetched] at spec free
  have some : 0 < x.fetchedWords := (decodeLength_bounds (x.codeWord 0) x.cpu.seg).1
  obtain ⟨n, count⟩ := Nat.exists_eq_succ_of_ne_zero (Nat.ne_of_gt some)
  have actsBefore : x.mmu.translates (segOf x.cpu.pc) = true := by
    rw [← code.pc, ← acts, Mmu.translates, Mmu.translates, code.map.mode]
  have first : d.mmu.Marked (segIndex (segOf x.cpu.pc)) := by
    rw [spec.fetched.mmu, x.begun_mmuAfter, count]
    exact x.mmuAfter_marks n (free.mp permitted 0 some) actsBefore
  rw [same.mmu, code.pc]
  exact keeps.marked _ first

include calm

/-- The fetch of the machine gone back leaves it as it was before the next element. -/
theorem refetch : ∃ f, fetchDecode y = (some w, f) ∧ e.clearRepeat.SameState f.started := by
  have loaded := working_loaded fetched permitted working
  have free := refetch_permitted fetched permitted working keeps kept same
  have words := refetch_opcode fetched permitted working keeps kept same
  have marked := refetch_marked fetched permitted working keeps kept same
  have again := (fetchDecode_spec y).2
  have calmAgain := y.fetchDecode_calm_iff.mpr free
  rcases run : fetchDecode y with ⟨word, f⟩
  rw [run] at again calmAgain words
  have cpu : y.cpu.fetchedWith d.cpu.opcode = e.clearRepeat.cpu := by
    rw [same.cpu]
    exact loaded.fetchedWith calm
  have decoded : word = some w := by
    rw [(fetchDecode_fetchedWith run).2, (fetchDecode_fetchedWith fetched).2, words,
      Cpu.decodedWith, Cpu.decodedWith, cpu]
    show decodeLookup _ _ e.cpu.oplen = _
    rw [loaded.frame]
  subst decoded
  refine ⟨f, rfl, ?_, ?_, ?_⟩
  · rw [fetchDecode_started run calmAgain, words]
    exact cpu
  · calc f.started.mmu = y.begun.mmuAfter y.fetchedWords := again.fetched.mmu
      _ = y.mmu := (y.begun_mmuAfter _).trans (Machine.mmuAfter_of_marked free marked)
      _ = e.mmu := same.mmu
  · calc f.started.bus = y.bus := again.fetched.bus
      _ = e.bus := same.bus

/-- The step of the machine gone back executes the element that the loop would have executed. -/
theorem stepOnce_refetch (decoded : w ∈ pool) (quiet : e.cpu.preempted = false)
    (awake : e.cpu.halted = false) (unserviced : e.cpu.serviced = 0) :
    ((e.nextElement w).leave d.cpu.pcNext).SameState (y.stepOnce hook) := by
  obtain ⟨f, run, left⟩ := refetch fetched permitted working keeps calm kept same
  have behind : f.cpu.pcNext = d.cpu.pcNext := by
    calc f.cpu.pcNext = f.started.cpu.pcNext := rfl
      _ = e.cpu.pcNext := by rw [left.cpu]; rfl
      _ = d.cpu.pcNext := by rw [working.frame]; rfl
  have begun : y.beginStep = y := by
    have none : y.cpu.serviced = 0 := by
      rw [same.cpu]
      exact unserviced
    simp only [Machine.beginStep, ← none]
  have sampling : y.cpu.sampleLines = y.cpu ∧ y.cpu.trapSource = none := by
    refine Cpu.sampleLines_of_quiet ?_
    rw [same.cpu]
    exact quiet
  have boundary : y.beginStep.sampled = y := by
    rw [begun, Machine.sampled, sampling.1]
  have awakeAgain : y.cpu.halted = false := by
    rw [same.cpu]
    exact awake
  have step : y.stepOnce hook = (executeElement w f.started).leave f.cpu.pcNext :=
    stepOnce_run (by rw [boundary]; exact sampling.2) (by rw [boundary]; exact awakeAgain)
      (by rw [boundary]; exact run)
  have element := executeElement_sameState decoded left
  rw [step, behind]
  exact element.leave _

end

/-! ## The whole instruction -/

section

variable {hook : SysHook} {w : CtrlWord} {m d : Machine} {k : Nat}

/-- Behind its fetch nothing has been serviced and the processor is awake. -/
theorem instruction_awake (runs : m.instruction hook = some (w, d)) :
    d.cpu.halted = false ∧ d.cpu.serviced = 0 := by
  obtain ⟨-, awake, fetched⟩ := instruction_boundary runs
  obtain ⟨⟨fault, same⟩, -⟩ := fetchDecode_fetchedWith fetched
  obtain ⟨irqReq, sampled⟩ := m.beginStep.cpu.sampleLines_request
  have unserviced : m.beginStep.sampled.cpu.serviced = 0 := by
    rw [Machine.sampled, sampled]
    rfl
  exact ⟨(congrArg Cpu.halted same).symm.trans awake,
    (congrArg Cpu.serviced same).symm.trans unserviced⟩

/-- The first element of an instruction. -/
theorem stepOnce_of_instruction (runs : m.instruction hook = some (w, d)) :
    m.stepOnce hook = (d.started.nextElement w).leave d.cpu.pcNext := by
  obtain ⟨idle, awake, fetched⟩ := instruction_boundary runs
  rw [started_nextElement (instruction_fresh runs)]
  exact stepOnce_run idle awake fetched

/-- Only a repeating form goes on. -/
theorem blockRept_of_goesOn {x : Machine} (decoded : w ∈ pool)
    (goesOn : (x.nextElement w).settled = false) : w.blockRept = true := by
  by_contra single
  have settles := single_settles decoded x (.inl ((Bool.not_eq_true _).mp single))
  exact Bool.false_ne_true (goesOn.symm.trans settles)

/-- Without a fault behind an element there was none before it. -/
theorem nextElement_calm (x : Machine) (calm : (x.nextElement w).cpu.fault = false) :
    x.cpu.fault = false := by
  obtain ⟨irqReq, counted⟩ := executeElement_cpu w x.clearRepeat
  obtain ⟨events, -, state⟩ := execute_latching w x.clearRepeat
  have latched : (execute w x.clearRepeat).2.cpu.fault =
      (x.cpu.fault || events.any Event.refused) := congrArg StepState.fault state
  rw [Machine.nextElement, counted] at calm
  exact (Bool.or_eq_false_iff.mp (latched.symm.trans calm)).1

/-- As long as the loop goes on, the steps keep pace with the elements. -/
theorem stepOnce_elements (runs : m.instruction hook = some (w, d)) (memory : w.exec ≠ .blockIo)
    (goesOn : ∀ j < k, (elementRun w d.started (j + 1)).settled = false)
    (kept : ∀ j ≤ k, m.beginStep.sampled.CodeKept (elementRun w d.started j)) :
    ((elementRun w d.started (k + 1)).leave d.cpu.pcNext).SameState
      ((Machine.stepOnce hook)^[k + 1] m) := by
  induction k with
  | zero =>
    rw [Function.iterate_one, stepOnce_of_instruction runs]
    exact .refl _
  | succ k inductionHypothesis =>
    have same := inductionHypothesis (fun j below => goesOn j (Nat.lt_succ_of_lt below))
      fun j within => kept j (Nat.le_succ_of_le within)
    obtain ⟨-, -, fetched⟩ := instruction_boundary runs
    obtain ⟨awake, unserviced⟩ := instruction_awake runs
    have decoded := instruction_pool runs
    have repeats := blockRept_of_goesOn decoded (goesOn 0 (Nat.succ_pos k))
    have unsettled : ∀ j < k + 1, (elementRun w d.started (j + 1)).cpu.fault = false ∧
        (elementRun w d.started (j + 1)).cpu.repeatPending = true ∧
        (elementRun w d.started (j + 1)).cpu.preempted = false := by
      intro j below
      simpa [Machine.settled, and_assoc] using goesOn j below
    have permitted : d.cpu.fault = false :=
      nextElement_calm (w := w) d.started (unsettled 0 (Nat.succ_pos k)).1
    obtain ⟨calm, again, quiet⟩ := unsettled k (Nat.lt_succ_self k)
    obtain ⟨working, keeps⟩ := elementRun_working decoded repeats memory d.started (k + 1)
    rw [Machine.leave, calm, if_neg Bool.false_ne_true, again, if_pos rfl] at same
    rw [elementRun_succ, Function.iterate_succ_apply']
    refine stepOnce_refetch fetched permitted working keeps calm (kept (k + 1) (Nat.le_refl _)) same
      decoded quiet ?_ ?_
    · rw [working.frame]
      exact awake
    · rw [working.frame]
      exact unserviced

/-- The repeat loop and the scheme it stands for, in which every element is a step of its own and
the program counter goes back for the next: as long as no element touches the code of the
instruction, the loop comes to the state of the last of these steps. The one difference is a
fault of a later element, which the loop leaves on the instruction and a step of its own leaves
behind it. -/
theorem cpuStep_refetching (runs : m.instruction hook = some (w, d)) (memory : w.exec ≠ .blockIo)
    (ends : EndsAfter w (d.started.nextElement w) k)
    (kept : ∀ j ≤ k, m.beginStep.sampled.CodeKept (elementRun w d.started j)) {fuel : Nat}
    (enough : k ≤ fuel) :
    ∃ r, cpuStep hook fuel m = some r ∧
      (r.SameState ((Machine.stepOnce hook)^[k + 1] m) ↔
        (k = 0 ∨ (elementRun w d.started (k + 1)).cpu.fault = false)) := by
  have fresh := instruction_fresh runs
  have steps := stepOnce_elements runs memory (fun j below => ends.before j below) kept
  refine ⟨_, (cpuStep_of_instruction runs fuel).trans
    ((runInstruction_eq_some_iff w fuel d _ fresh).mpr ⟨k, enough, ends, rfl⟩), ?_⟩
  constructor
  · intro same
    by_contra! later
    obtain ⟨more, fault⟩ := later
    have faulted : (elementRun w d.started (k + 1)).cpu.fault = true := by simpa using fault
    have goesOn := ends.before 0 (Nat.pos_of_ne_zero more)
    have decoded := instruction_pool runs
    have repeats := blockRept_of_goesOn decoded goesOn
    have working := (elementRun_working decoded repeats memory d.started (k + 1)).1
    have start : (elementRun w d.started (k + 1)).cpu.instrStart = d.cpu.instrStart := by
      rw [working.frame]
      rfl
    have pc := congrArg Cpu.pc (same.trans steps.symm).cpu
    rw [Machine.leave, Machine.leave, faulted, if_pos rfl, if_pos rfl, Machine.faultPc,
      if_neg more, start] at pc
    exact (fetchDecode_loaded (instruction_boundary runs).2.2).pcNext_ne pc
  · rintro (rfl | calm)
    · exact steps
    · rw [Machine.leave_calm calm _ d.cpu.pcNext]
      exact steps

end

/-- LDIRB of three bytes from 0x80 to 0x90, in a segment of 256 bytes. -/
def copyThree : Machine :=
  { (default : Machine) with
    cpu := { (default : Cpu) with R := fun r => if r = 2 then 0x80 else if r = 3 then 0x90 else 3 }
    mmu := { (default : Mmu) with
      mode := modeMsen ||| modeTrns, desc := fun _ => { base := 0x0900, limit := 0, attr := 0 } }
    bus := { (default : Bus) with
      ram := fun a => [0xBA, 0x21, 0x04, 0x30].getD (a - 0x090000).toNat 0 } }

theorem copyThree_elements : ∃ w d, copyThree.instruction none = some (w, d) ∧
    w.exec ≠ .blockIo ∧ EndsAfter w (d.started.nextElement w) 2 ∧
      (∀ j ≤ 2, copyThree.beginStep.sampled.CodeKept (elementRun w d.started j)) ∧
      (elementRun w d.started 3).cpu.fault = false := by
  refine ⟨_, _, rfl, by decide, ⟨?_, ?_⟩, ?_, ?_⟩
  · decide
  · decide +kernel
  · unfold Machine.CodeKept
    decide
  · decide +kernel

theorem copyThree_refetching : ∃ r, cpuStep none 2 copyThree = some r ∧
    r.SameState ((Machine.stepOnce none)^[3] copyThree) := by
  obtain ⟨w, d, runs, memory, ends, kept, calm⟩ := copyThree_elements
  obtain ⟨r, returns, exactly⟩ := cpuStep_refetching runs memory ends kept (Nat.le_refl 2)
  exact ⟨r, returns, exactly.mpr (.inr calm)⟩

/-! ## Runs -/

/-- A step that is a run of steps of one element: where its instruction repeats, it is no block
I/O, no element touches its code and no later one faults. -/
def Machine.Splits (hook : SysHook) (m : Machine) : Prop :=
  ∀ w d k, m.instruction hook = some (w, d) → EndsAfter w (d.started.nextElement w) (k + 1) →
    w.exec ≠ .blockIo ∧ (elementRun w d.started (k + 2)).cpu.fault = false ∧
      ∀ j ≤ k + 1, m.beginStep.sampled.CodeKept (elementRun w d.started j)

/-- A step that executes no instruction. -/
theorem stepOnce_of_none {hook : SysHook} {m : Machine} (idle : m.instruction hook = none)
    (fuel : Nat) : cpuStep hook fuel m = some (m.stepOnce hook) := by
  unfold Machine.instruction at idle
  unfold cpuStep Machine.stepOnce
  rcases taken : handleInterrupts hook m.beginStep with ⟨trap, interrupted⟩
  cases trap with
  | true => rfl
  | false =>
    simp only [taken] at idle ⊢
    split at idle
    · rename_i halted
      simp only [halted, if_true]
    · rename_i awake
      simp only [awake, Bool.false_eq_true, if_false, stepInstruction]
      rcases fetched : fetchDecode interrupted with ⟨decoded, after⟩
      cases decoded with
      | none => rfl
      | some word => simp [fetched] at idle

/-- A step that splits. -/
theorem Machine.Splits.steps {hook : SysHook} {m r : Machine} {fuel : Nat}
    (splits : m.Splits hook) (returns : cpuStep hook fuel m = some r) :
    ∃ k, r.SameState ((Machine.stepOnce hook)^[k + 1] m) := by
  cases runs : m.instruction hook with
  | none =>
    rw [stepOnce_of_none runs] at returns
    obtain rfl := Option.some.inj returns
    exact ⟨0, .refl _⟩
  | some run =>
    obtain ⟨w, d⟩ := run
    rw [cpuStep_of_instruction runs] at returns
    obtain ⟨k, -, ends, rfl⟩ :=
      (runInstruction_eq_some_iff w fuel d r (instruction_fresh runs)).mp returns
    refine ⟨k, ?_⟩
    cases k with
    | zero =>
      rw [Function.iterate_one, stepOnce_of_instruction runs]
      exact .refl _
    | succ k =>
      obtain ⟨memory, calm, kept⟩ := splits w d k runs ends
      rw [Machine.leave_calm calm _ d.cpu.pcNext]
      exact stepOnce_elements runs memory (fun j below => ends.before j below) kept

theorem stepOnce_iterate_sameState {m n : Machine} (same : m.SameState n) (k : Nat) :
    ((Machine.stepOnce none)^[k] m).SameState ((Machine.stepOnce none)^[k] n) := by
  induction k with
  | zero => exact same
  | succ k inductionHypothesis =>
    rw [Function.iterate_succ_apply', Function.iterate_succ_apply']
    exact stepOnce_sameState inductionHypothesis

/-- A run of steps that all split is a run of steps of one element. -/
theorem cpuRun_refetching {m r : Machine} (run : Relation.ReflTransGen
      (fun x y => x.Splits none ∧ ∃ fuel, cpuStep none fuel x = some y) m r) :
    ∃ n, r.SameState ((Machine.stepOnce none)^[n] m) := by
  induction run with
  | refl => exact ⟨0, .refl m⟩
  | tail _ step inductionHypothesis =>
    obtain ⟨n, same⟩ := inductionHypothesis
    obtain ⟨splits, fuel, returns⟩ := step
    obtain ⟨k, stepped⟩ := splits.steps returns
    refine ⟨k + 1 + n, ?_⟩
    rw [Function.iterate_add_apply]
    exact stepped.trans (stepOnce_iterate_sameState same (k + 1))

theorem copyThree_run : ∃ r n, cpuStep none 2 copyThree = some r ∧
    r.SameState ((Machine.stepOnce none)^[n] copyThree) := by
  obtain ⟨w, d, runs, memory, ends, kept, calm⟩ := copyThree_elements
  have splits : copyThree.Splits none := by
    intro w' d' k runs' ends'
    obtain ⟨rfl, rfl⟩ := Prod.mk.inj (Option.some.inj (runs.symm.trans runs'))
    obtain rfl : k = 1 := Nat.succ.inj (ends'.unique ends)
    exact ⟨memory, calm, kept⟩
  obtain ⟨r, returns⟩ : ∃ r, cpuStep none 2 copyThree = some r :=
    ⟨_, (cpuStep_of_instruction runs 2).trans
      ((runInstruction_eq_some_iff w 2 d _ (instruction_fresh runs)).mpr
        ⟨2, Nat.le_refl 2, ends, rfl⟩)⟩
  obtain ⟨n, same⟩ := cpuRun_refetching (.single ⟨splits, 2, returns⟩)
  exact ⟨r, n, returns, same⟩

end C900
