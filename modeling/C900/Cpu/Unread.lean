import C900.Cpu.Leftover
import C900.Cpu.Latch

/-!
# An instruction reads its own words only

Every handler of an instruction stays within the words that its length counts, so an
instruction does the same whatever words an earlier one has left behind it, and leaves the
program counter behind itself unless it transfers control.
-/

namespace C900

/-! ## The handlers -/

/-- The instruction transfers control. -/
def CtrlWord.transfers (w : CtrlWord) (c : Cpu) : Bool :=
  match w.exec with
  | .branch =>
    match w.brMode with
    | .jpDa | .jpX | .jpIr | .ret => c.condTrue (nib3 (c.opcode 0))
    | .jr => c.condTrue (nib1 (c.opcode 0))
    | .callDa | .callX | .callIr | .calr | .calr12 => true
    | .djnz => c.counts
  | .ldps | .iret => c.sysmode
  | _ => false

section Handlers

variable {w : CtrlWord} {m : Machine} {n j : Nat} {o : Fin 6 → Word} {falls : Prop}

open Passes

theorem pushWord_passes (v : Word) : Passes n o falls (pushWord v) m := by
  refine get rfl (ite (fun _ => ?_) fun _ => ?_)
  · exact (modify (Cpu.addrToReg_behind _ _ _ _ _) fun _ => Cpu.addrToReg_pc _ _ _).bind
      (writeWord _ _)
  · exact (modify rfl fun _ => rfl).bind (writeWord _ _)

theorem popWord_passes : Passes n o falls popWord m := by
  refine get rfl (ite (fun _ => ?_) fun _ => ?_)
  · refine (readWord _).bind (Passes.bind ?_ (pure _))
    exact modify (Cpu.addrToReg_behind _ _ _ _ _) fun _ => Cpu.addrToReg_pc _ _ _
  · exact (readWord _).bind (Passes.bind (modify rfl fun _ => rfl) (pure _))

/-- The general engine. -/
theorem execUnified_passes (kind : w.exec = .unified)
    (within : w.wordsRead m.cpu.segW1 (m.cpu.longAddress 1) (m.cpu.longAddress 2) ≤ n) :
    Passes n o falls (execUnified w) m := by
  have words : max (w.src2.wordsRead w.width m.cpu.segW1 (m.cpu.longAddress 1))
      (max (w.dst.wordsRead (m.cpu.longAddress 1))
        (w.count.wordsRead w.width m.cpu.segW1 (m.cpu.longAddress 1))) ≤ n := by
    simpa only [CtrlWord.wordsRead, kind] using within
  have source := Nat.le_trans (Nat.le_max_left _ _) words
  have others := Nat.le_trans (Nat.le_max_right _ _) words
  have destination := Nat.le_trans (Nat.le_max_left _ _) others
  have counted := Nat.le_trans (Nat.le_max_right _ _) others
  obtain ⟨j, rfl⟩ : ∃ j, n = j + 1 :=
    ⟨n - 1, by have one := Nat.le_trans (w.dst.one_le_wordsRead _) destination; omega⟩
  -- The flags and the result of a memory operand, behind the read.
  have flags : ∀ b a width, Passes (j + 1) o falls
      (modifyCpu fun c => c.applyFlags (c.memoryResult w b)) (memReadW a width m).2 := by
    intro b a width
    obtain ⟨fault, cpu⟩ := memReadW_cpu a m width
    refine modify ?_ fun _ => rfl
    rw [cpu]
    exact congrArg (fun r => (({ m.cpu with fault := fault } : Cpu).applyFlags r).behind (j + 1) o)
      (Cpu.memoryResult_behind counted b)
  refine get ?_ (ite (fun _ => ?_) fun _ => ite (fun _ => writeWide _ _ _) fun _ => ?_)
  · simp only [Cpu.usrcAddr_behind source, Cpu.memoryResult_behind counted,
      Cpu.udstAddr_behind destination, Cpu.ureadSrc2_behind source]
  · refine (readWide _ _).bind (ite (fun _ => ?_) fun _ => ite (fun _ => flags _ _ _) fun _ => ?_)
    · exact (flags _ _ _).bind (writeWide _ _ _)
    · exact modify (Cpu.unifiedCompute_behind ..) fun _ => Cpu.unifiedCompute_pc ..
  · refine modify ?_ fun _ => Cpu.unifiedCompute_pc ..
    rw [Cpu.ureadSrc2_behind source]
    exact Cpu.unifiedCompute_behind ..

/-- A jump on a condition. -/
theorem jump_passes {cc : Reg} {target : Cpu → Long}
    (blind : target (m.cpu.behind n o) = target m.cpu)
    (stays : falls → m.cpu.condTrue cc = false) :
    Passes n o falls (modifyCpu fun c => c.jumpIf cc (target c)) m := by
  refine modify ?_ fun is => ?_
  · unfold Cpu.jumpIf
    rw [blind, Cpu.choice_behind]
    rfl
  · have no : ¬ m.cpu.condTrue cc = true := Bool.not_eq_true _ ▸ stays is
    unfold Cpu.jumpIf
    rw [if_neg no]

theorem execCall_passes (target : Long) (never : ¬ falls) :
    Passes n o falls (execCall target) m := by
  have jump : ∀ x : Machine, Passes n o falls (modifyCpu ({ · with pc := target })) x :=
    fun x => modify rfl fun is => absurd is never
  exact get rfl ((pushWord_passes _).bind
    (ite (fun _ => (pushWord_passes _).bind (jump _)) fun _ => jump _))

theorem execRet_passes (never : ¬ falls) : Passes n o falls execRet m := by
  refine get rfl (ite (fun _ => ?_) fun _ => ?_)
  · refine popWord_passes.bind (popWord_passes.bind ?_)
    exact modify rfl fun is => absurd is never
  · exact popWord_passes.bind (modify rfl fun is => absurd is never)

/-- The branches. -/
theorem execBranch_passes (kind : w.exec = .branch)
    (within : w.wordsRead m.cpu.segW1 (m.cpu.longAddress 1) (m.cpu.longAddress 2) ≤ j + 1) :
    Passes (j + 1) o (w.transfers m.cpu = false) (execBranch w) m := by
  simp only [CtrlWord.wordsRead, kind] at within
  unfold CtrlWord.transfers execBranch
  rw [kind]
  cases form : w.brMode with
  | jpDa =>
    rw [form] at within
    exact get rfl (jump_passes (@Cpu.segAddrOp_behind m.cpu _ o 1 within) id)
  | jpX =>
    rw [form] at within
    refine get rfl (jump_passes ?_ id)
    rw [@Cpu.segAddrOp_behind m.cpu _ o 1 within]
    rfl
  | jpIr => exact get rfl (jump_passes rfl id)
  | jr => exact get rfl (jump_passes rfl id)
  | callDa =>
    rw [form] at within
    refine get ?_ (execCall_passes _ nofun)
    exact congrArg execCall (@Cpu.segAddrOp_behind m.cpu _ o 1 within)
  | callX =>
    rw [form] at within
    refine get ?_ (execCall_passes _ nofun)
    dsimp only
    rw [@Cpu.segAddrOp_behind m.cpu _ o 1 within]
    rfl
  | callIr => exact get rfl (execCall_passes _ nofun)
  | calr => exact get rfl (execCall_passes _ nofun)
  | calr12 => exact get rfl (execCall_passes _ nofun)
  | djnz => exact get rfl (modify (m.cpu.djnz_behind j o) fun is => m.cpu.djnz_pc is)
  | ret =>
    refine get rfl (ite (fun taken => ?_) fun _ => pure _)
    exact execRet_passes fun is => absurd (taken.symm.trans is) Bool.noConfusion

/-- The general stack instructions. -/
theorem execStack_passes (kind : w.exec = .stack)
    (within : w.wordsRead m.cpu.segW1 (m.cpu.longAddress 1) (m.cpu.longAddress 2) ≤ j + 1) :
    Passes (j + 1) o falls (execStack w) m := by
  have reserve : ∀ (x : Machine) r a, Passes (j + 1) o falls (modifyCpu (·.reserve r a)) x :=
    fun x r a => modify (Cpu.reserve_behind _ _ _ _ _) fun _ => Cpu.reserve_pc _ _ _
  have release : ∀ (x : Machine) r a, Passes (j + 1) o falls (modifyCpu (·.release r a)) x :=
    fun x r a => modify (Cpu.release_behind _ _ _ _ _) fun _ => Cpu.release_pc _ _ _
  have pair : ∀ (x : Machine) r (hi lo : Word),
      Passes (j + 1) o falls (modifyCpu fun c => (c.ww r hi).ww (r + 1) lo) x :=
    fun x r hi lo => modify rfl fun _ => rfl
  simp only [CtrlWord.wordsRead, kind] at within
  unfold execStack
  have first := @Cpu.first_behind m.cpu (j + 1) o (Nat.succ_le_succ (Nat.zero_le j))
  cases form : w.stkMode with
  | push =>
    refine get ?_ ((reserve _ _ _).bind (writeWord _ _))
    simp only [first, Cpu.reserve_behind, Cpu.reserveAddr_behind, Cpu.rw_behind]
  | pop =>
    refine get ?_ ((release _ _ _).bind ((readWord _).bind (modify rfl fun _ => rfl)))
    simp only [first, Cpu.addrFromReg_behind]
  | pushL =>
    refine get ?_ ((reserve _ _ _).bind ((writeWord _ _).bind (writeWord _ _)))
    simp only [first, Cpu.reserve_behind, Cpu.reserveAddr_behind, Cpu.rw_behind]
  | popL =>
    refine get ?_ ((release _ _ _).bind ((readWord _).bind ((readWord _).bind
      (pair _ _ _ _))))
    simp only [first, Cpu.addrFromReg_behind]
  | pushSrc =>
    rw [form] at within
    refine get ?_ ((readWord _).bind ((reserve _ _ _).bind (writeWord _ _)))
    simp only [first, Cpu.usrcAddr_behind within, Cpu.reserveAddr_behind]
  | popDst =>
    rw [form] at within
    refine get ?_ ((release _ _ _).bind ((readWord _).bind (writeWord _ _)))
    have place := fun r => @Cpu.udstAddr_behind (m.cpu.release r 2) w (j + 1) o
      (by rw [Cpu.release_longAddress]; exact within)
    simp only [first, Cpu.release_behind, Cpu.addrFromReg_behind, place]
  | pushLSrc =>
    rw [form] at within
    refine get ?_ ((readWord _).bind ((readWord _).bind ((reserve _ _ _).bind
      ((writeWord _ _).bind (writeWord _ _)))))
    simp only [first, Cpu.usrcAddr_behind within, Cpu.reserveAddr_behind, Cpu.addrFromReg_behind]
  | popLDst =>
    rw [form] at within
    refine get ?_ ((release _ _ _).bind ((readWord _).bind ((readWord _).bind
      ((writeWord _ _).bind (writeWord _ _)))))
    have place := fun r => @Cpu.udstAddr_behind (m.cpu.release r 4) w (j + 1) o
      (by rw [Cpu.release_longAddress]; exact within)
    simp only [first, Cpu.release_behind, Cpu.addrFromReg_behind, place]
  | pushImm =>
    rw [form] at within
    refine get ?_ ((reserve _ _ _).bind (writeWord _ _))
    simp only [first, @Cpu.second_behind m.cpu _ o within, Cpu.reserveAddr_behind]

/-- The operand of multiply and divide. -/
theorem mulDivOperand_passes (within : w.src2.wordsRead
      (if w.width = .word then .word else .long) m.cpu.segW1 (m.cpu.longAddress 1) ≤ n) :
    Passes n o falls (mulDivOperand w) m := by
  have one : 1 ≤ n := Nat.le_trans (w.src2.one_le_wordsRead _ _ _) within
  have first := @Cpu.first_behind m.cpu n o one
  unfold mulDivOperand
  cases form : w.src2 with
  | reg =>
    refine get ?_ (pure _)
    simp only [first]
    rfl
  | imm =>
    rw [form] at within
    refine get ?_ (pure _)
    by_cases word : w.width = .word
    · rw [if_pos word] at within
      simp only [@Cpu.second_behind m.cpu n o within, if_pos word]
    · rw [if_neg word] at within
      simp only [@Cpu.second_behind m.cpu n o (Nat.le_of_succ_le within),
        @Cpu.third_behind m.cpu n o within]
  | _ =>
    have place : (m.cpu.behind n o).usrcAddr w = m.cpu.usrcAddr w := by
      refine @Cpu.usrcAddr_behind m.cpu w n o m.cpu.segW1 ?_
      rw [form] at within ⊢
      exact within
    refine get ?_ (readWide _ _)
    simp only [place]

theorem execMul_passes (kind : w.exec = .mul)
    (within : w.wordsRead m.cpu.segW1 (m.cpu.longAddress 1) (m.cpu.longAddress 2) ≤ j + 1) :
    Passes (j + 1) o falls (execMul w) m := by
  simp only [CtrlWord.wordsRead, kind] at within
  refine (mulDivOperand_passes within).bind ?_
  exact modify (Cpu.multiply_behind ..) fun _ => Cpu.multiply_pc ..

theorem execDiv_passes (kind : w.exec = .div)
    (within : w.wordsRead m.cpu.segW1 (m.cpu.longAddress 1) (m.cpu.longAddress 2) ≤ j + 1) :
    Passes (j + 1) o falls (execDiv w) m := by
  simp only [CtrlWord.wordsRead, kind] at within
  refine (mulDivOperand_passes within).bind ?_
  exact modify (Cpu.divide_behind ..) fun _ => Cpu.divide_pc ..

/-- An address, and an index unless the register is R0. -/
theorem indexed_behind {c : Cpu} {idx : Fin 6} {r : Reg}
    (within : w.src2 ≠ .ir → addressEnd idx (c.longAddress idx) ≤ n) :
    (if w.src2 = .ir then (c.behind n o).addrFromReg r
      else if r = 0 then (c.behind n o).segAddrOp idx
      else addrAdd ((c.behind n o).segAddrOp idx) (((c.behind n o).rw r).setWidth 32)) =
    if w.src2 = .ir then c.addrFromReg r
      else if r = 0 then c.segAddrOp idx
      else addrAdd (c.segAddrOp idx) ((c.rw r).setWidth 32) := by
  by_cases register : w.src2 = .ir
  · simp only [if_pos register, Cpu.addrFromReg_behind]
  · simp only [if_neg register, Cpu.segAddrOp_behind (within register), Cpu.rw_behind]

/-- The load multiple instructions. -/
theorem execLdm_passes (kind : w.exec = .ldm)
    (within : w.wordsRead m.cpu.segW1 (m.cpu.longAddress 1) (m.cpu.longAddress 2) ≤ n) :
    Passes n o falls (execLdm w) m := by
  simp only [CtrlWord.wordsRead, kind] at within
  have address : w.src2 ≠ .ir → addressEnd 2 (m.cpu.longAddress 2) ≤ n := fun memory => by
    rwa [if_neg memory] at within
  have two : 2 ≤ n := by
    by_cases register : w.src2 = .ir
    · rwa [if_pos register] at within
    · exact Nat.le_trans (Nat.le_of_succ_le (addressEnd_pos 2 _)) (address register)
  have element : ∀ (a : Long) (r : Reg) (x : Machine), Passes n o falls
      (if w.ioWrite then getCpu >>= fun c => memW16 a (c.rw r)
        else memR16 a >>= fun v => modifyCpu (·.ww r v)) x := fun a r x =>
    ite (fun _ => get rfl (writeWord _ _)) fun _ =>
      (readWord _).bind (modify rfl fun _ => rfl)
  have run : ∀ (l : List Nat) (base : Long) (first : Reg) (x : Machine), Passes n o falls
      (l.forM fun i => if w.ioWrite
        then getCpu >>= fun c => memW16 (addrAdd base (BitVec.ofNat 32 i <<< 1))
          (c.rw (first + BitVec.ofNat 4 i))
        else memR16 (addrAdd base (BitVec.ofNat 32 i <<< 1)) >>= fun v =>
          modifyCpu (·.ww (first + BitVec.ofNat 4 i) v)) x := by
    intro l base first x
    induction l generalizing x with
    | nil => exact pure _
    | cons i rest inductionHypothesis => exact (element _ _ x).bind (inductionHypothesis _)
  refine get ?_ (run _ _ _ m)
  have base : (m.cpu.behind n o).ldmBase w = m.cpu.ldmBase w := by
    unfold Cpu.ldmBase
    rw [Cpu.first_behind (Nat.le_of_succ_le two)]
    exact indexed_behind address
  simp only [base, Cpu.second_behind two]

/-- LDPS takes the program status. -/
theorem execLdps_passes (kind : w.exec = .ldps)
    (within : w.wordsRead m.cpu.segW1 (m.cpu.longAddress 1) (m.cpu.longAddress 2) ≤ n)
    (user : falls → m.cpu.sysmode = false) : Passes n o falls (execLdps w) m := by
  simp only [CtrlWord.wordsRead, kind] at within
  have address : w.src2 ≠ .ir → addressEnd 1 (m.cpu.longAddress 1) ≤ n := fun memory => by
    rwa [if_neg memory] at within
  have one : 1 ≤ n := by
    by_cases register : w.src2 = .ir
    · rwa [if_pos register] at within
    · exact Nat.le_trans (Nat.le_of_succ_le (addressEnd_pos 1 _)) (address register)
  have load : ∀ (x : Machine) (pc : Long) (nf : Word), ¬ falls →
      Passes n o falls (modifyCpu fun c => { c with pc := pc }.changeFcw nf) x :=
    fun x pc nf never =>
      modify (Cpu.changeFcw_behind { x.cpu with pc := pc } _ _ _) fun is => absurd is never
  refine guarded fun system => ?_
  have never : ¬ falls := fun is => by
    rw [user is] at system
    exact absurd system Bool.false_ne_true
  have base := @indexed_behind w n o m.cpu 1 (nib2 (m.cpu.opcode 0)) address
  refine get ?_ (ite (fun _ => ?_) fun _ => ?_)
  · simp only [Cpu.first_behind one, base]
    rfl
  · exact (readWord _).bind ((readWord _).bind ((readWord _).bind (load _ _ _ never)))
  · exact (readWord _).bind ((readWord _).bind (load _ _ _ never))

/-- IRET takes the program status from the stack. -/
theorem execIret_passes (user : falls → m.cpu.sysmode = false) :
    Passes n o falls execIret m := by
  have load : ∀ (x : Machine) (f : Cpu → Long) (nf : Word), ¬ falls →
      f (x.cpu.behind n o) = f x.cpu →
      Passes n o falls (modifyCpu fun c => { c with pc := f c }.changeFcw nf) x :=
    fun x f nf never same => modify (by
      rw [same]
      exact Cpu.changeFcw_behind { x.cpu with pc := f x.cpu } _ _ _) fun is => absurd is never
  refine guarded fun system => ?_
  have never : ¬ falls := fun is => by
    rw [user is] at system
    exact absurd system Bool.false_ne_true
  refine popWord_passes.bind (popWord_passes.bind (get rfl (ite (fun _ => ?_) fun _ => ?_)))
  · exact popWord_passes.bind (popWord_passes.bind (load _ (fun _ => _) _ never rfl))
  · exact popWord_passes.bind (load _ (fun _ => _) _ never rfl)

theorem ioReadCycle_passes (port : Word) (isByte special : Bool) :
    Passes n o falls (ioReadCycle port isByte special) m := by
  refine ⟨?_, fun _ => ?_⟩
  · unfold ioReadCycle ioRead
    split_ifs <;> rfl
  · exact congrArg Cpu.pc (ioRead_cpu m port special)

theorem ioWriteCycle_passes (port data : Word) (isByte special : Bool) :
    Passes n o falls (ioWriteCycle port data isByte special) m := by
  refine ⟨?_, fun _ => ?_⟩
  · unfold ioWriteCycle ioWrite
    split_ifs <;> rfl
  · exact congrArg Cpu.pc (ioWrite_cpu m port data special)

/-- Input and output. -/
theorem execIo_passes (kind : w.exec = .io)
    (within : w.wordsRead m.cpu.segW1 (m.cpu.longAddress 1) (m.cpu.longAddress 2) ≤ n) :
    Passes n o falls (execIo w) m := by
  simp only [CtrlWord.wordsRead, kind] at within
  have operands : (m.cpu.behind n o).ioOperands w = m.cpu.ioOperands w := by
    unfold Cpu.ioOperands
    by_cases register : w.src2 = .ir
    · rw [if_pos register] at within
      rw [register, Cpu.first_behind within]
      rfl
    · rw [if_neg register] at within
      rw [Cpu.first_behind (Nat.le_of_succ_le within), Cpu.second_behind within]
      rfl
  have load : ∀ (x : Machine) (r : Reg) (v : Word), Passes n o falls
      (modifyCpu fun c => if w.width == .byte then c.wb r (byteIn v w.ioSpec) else c.ww r v) x := by
    intro x r v
    refine modify ?_ fun _ => Cpu.choice_pc (Cpu.wb_pc _ _ _) rfl
    rw [Cpu.choice_behind, Cpu.wb_behind]
    rfl
  refine guarded fun _ => get ?_ (ite (fun _ => ?_) fun _ => ?_)
  · simp only [operands]
    rfl
  · exact ioWriteCycle_passes _ _ _ _
  · exact (ioReadCycle_passes _ _ _).bind (load _ _ _)

/-- The exchanges. -/
theorem execExchange_passes (kind : w.exec = .exchange)
    (within : w.wordsRead m.cpu.segW1 (m.cpu.longAddress 1) (m.cpu.longAddress 2) ≤ n) :
    Passes n o falls (execExchange w) m := by
  simp only [CtrlWord.wordsRead, kind] at within
  have one : 1 ≤ n := Nat.le_trans (w.src2.one_le_wordsRead _ _ _) within
  have byte : ∀ (x : Machine) (r : Reg) (v : Byte), Passes n o falls (modifyCpu (·.wb r v)) x :=
    fun x r v => modify (Cpu.wb_behind _ _ _ _ _) fun _ => Cpu.wb_pc _ _ _
  have word : ∀ (x : Machine) (r : Reg) (v : Word), Passes n o falls (modifyCpu (·.ww r v)) x :=
    fun x r v => modify rfl fun _ => rfl
  have first := @Cpu.first_behind m.cpu n o one
  unfold execExchange
  by_cases memory : w.src2 = .ir ∨ w.src2 = .da ∨ w.src2 = .x
  · simp only [if_pos memory]
    refine get ?_ (ite (fun _ => ?_) fun _ => ?_)
    · rcases memory with form | form | form
      · simp only [first, form, Cpu.addrFromReg_behind, Cpu.rb_behind, Cpu.rw_behind]
      · rw [form] at within
        have place := @Cpu.segAddrOp_behind m.cpu n o 1 within
        simp only [first, form, place, Cpu.rb_behind, Cpu.rw_behind]
      · rw [form] at within
        have place := @Cpu.segAddrOp_behind m.cpu n o 1 within
        simp only [first, form, place, Cpu.rb_behind, Cpu.rw_behind]
    · exact (readByte _).bind ((byte _ _ _).bind (writeByte _ _))
    · exact (readWord _).bind ((word _ _ _).bind (writeWord _ _))
  · simp only [if_neg memory]
    refine get ?_ (ite (fun _ => ?_) fun _ => ?_)
    · simp only [first]
    · refine modify ?_ fun _ => (Cpu.wb_pc _ _ _).trans (Cpu.wb_pc _ _ _)
      rw [Cpu.wb_behind, Cpu.wb_behind]
      rfl
    · exact modify rfl fun _ => rfl

theorem loadAddress_passes (kind : w.exec = .lea)
    (within : w.wordsRead m.cpu.segW1 (m.cpu.longAddress 1) (m.cpu.longAddress 2) ≤ n) :
    Passes n o falls (modifyCpu (·.loadAddress w)) m := by
  simp only [CtrlWord.wordsRead, kind] at within
  have one : 1 ≤ n := Nat.le_trans (w.src2.one_le_wordsRead _ _ _) within
  refine modify ?_ fun _ => Cpu.addrToReg_pc _ _ _
  unfold Cpu.loadAddress
  rw [Cpu.first_behind one, Cpu.usrcAddr_behind within, Cpu.addrToReg_behind]

theorem execFcwOp_passes : Passes (j + 1) o falls (execFcwOp w) m := by
  have operation : Passes (j + 1) o falls (modifyCpu (·.fcwOperation w)) m :=
    modify (Cpu.fcwOperation_behind ..) fun _ => Cpu.fcwOperation_pc ..
  exact ite (fun _ => guarded fun _ => operation) fun _ => operation

theorem execLdctl_passes : Passes (j + 1) o falls execLdctl m := by
  refine guarded fun _ => modify ?_ fun _ => Cpu.choice_pc rfl (Cpu.ldctlWrite_pc _)
  rw [Cpu.choice_behind, ← Cpu.ldctlWrite_behind]
  rfl

/-- The block instructions: they read two words. -/
theorem execBlock_passes (block : w.isBlock = true) : Passes (j + 2) o falls (execute w) m := by
  have transferred : ∀ (x : Machine) (f : Cpu → Cpu),
      (∀ c : Cpu, f (c.behind (j + 2) o) = (f c).behind (j + 2) o) → (∀ c, (f c).pc = c.pc) →
      Passes (j + 2) o falls (modifyCpu fun c => (f c).endTransfer w) x := by
    intro x f same kept
    refine modify ?_ fun _ => kept _
    rw [same]
    exact Cpu.endTransfer_behind ..
  have compared : ∀ (x : Machine) (r : AluResult) (f : Cpu → Cpu),
      (∀ c : Cpu, f (c.behind (j + 2) o) = (f c).behind (j + 2) o) → (∀ c, (f c).pc = c.pc) →
      Passes (j + 2) o falls (modifyCpu fun c => c.endCompare w r f) x := by
    intro x r f same kept
    exact modify (Cpu.endCompare_behind _ _ _ _ _ _ same) fun _ => Cpu.endCompare_pc _ _ _ _ kept
  unfold CtrlWord.isBlock at block
  unfold execute
  cases kind : w.exec with
  | blockTransfer =>
    refine get rfl ((readElement _ _).bind ((writeElement _ _ _).bind ?_))
    exact transferred _ _ (fun _ => rfl) fun _ => rfl
  | blockCompare =>
    refine get rfl ((readElement _ _).bind ?_)
    exact compared _ _ _ (fun _ => rfl) fun _ => rfl
  | blockString =>
    refine get rfl ((readElement _ _).bind ((readElement _ _).bind ?_))
    exact compared _ _ _ (fun _ => rfl) fun _ => rfl
  | blockIo =>
    have moved : ∀ x : Machine, Passes (j + 2) o falls
        (modifyCpu fun c => (c.addToAddrReg (c.ioAddrReg w) w.delta).endTransfer w) x :=
      fun x => transferred x _ (fun _ => rfl) fun _ => rfl
    refine guarded fun _ => get rfl (ite (fun _ => ?_) fun _ => ?_)
    · exact (readElement _ _).bind ((ioWriteCycle_passes _ _ _ _).bind (moved _))
    · exact (ioReadCycle_passes _ _ _).bind ((writeElement _ _ _).bind (moved _))
  | translate =>
    refine get rfl ((readByte _).bind ((readByte _).bind (ite (fun _ => ?_) fun _ => ?_)))
    · refine (writeByte _ _).bind (modify ?_ fun _ => Cpu.endTranslate_pc ..)
      exact Cpu.endTranslate_behind ..
    · exact modify (Cpu.endTranslateTest_behind ..) fun _ => Cpu.endTranslateTest_pc ..
  | _ => rw [kind] at block; exact absurd block nofun

/-- A block instruction reads two words. -/
theorem two_le_of_block (block : w.isBlock = true) {moved long long2 : Bool}
    (within : w.wordsRead moved long long2 ≤ n) : 2 ≤ n := by
  have two : w.wordsRead moved long long2 = 2 := by
    unfold CtrlWord.isBlock at block
    unfold CtrlWord.wordsRead
    split at block
    all_goals first | exact absurd block Bool.false_ne_true | simp only [*]
  exact two ▸ within

/-- Every instruction stays within the words that it counts. -/
theorem execute_passes
    (within : w.wordsRead m.cpu.segW1 (m.cpu.longAddress 1) (m.cpu.longAddress 2) ≤ j + 1) :
    Passes (j + 1) o (w.transfers m.cpu = false) (execute w) m := by
  by_cases block : w.isBlock = true
  · have two := two_le_of_block block within
    obtain ⟨i, rfl⟩ : ∃ i, j = i + 1 := ⟨j - 1, by omega⟩
    exact execBlock_passes block
  have user : (w.exec = .ldps ∨ w.exec = .iret) → w.transfers m.cpu = false →
      m.cpu.sysmode = false := by
    rintro (kind | kind) still
    · rwa [CtrlWord.transfers, kind] at still
    · rwa [CtrlWord.transfers, kind] at still
  have two : (w.exec = .shift ∨ w.exec = .bitDynamic) → ∃ i, j = i + 1 := by
    intro pair
    refine ⟨j - 1, ?_⟩
    rcases pair with kind | kind
    all_goals
      simp only [CtrlWord.wordsRead, kind] at within
      omega
  unfold execute
  cases kind : w.exec with
  | unified => exact execUnified_passes kind within
  | fcwOp => exact execFcwOp_passes
  | exts => exact modify (Cpu.signExtend_behind ..) fun _ => Cpu.signExtend_pc ..
  | stack => exact execStack_passes kind within
  | branch => exact execBranch_passes kind within
  | tcc => exact modify (Cpu.testCondition_behind ..) fun _ => Cpu.testCondition_pc ..
  | dab => exact modify (Cpu.decimalAdjust_behind ..) fun _ => Cpu.decimalAdjust_pc ..
  | exchange => exact execExchange_passes kind within
  | lea => exact loadAddress_passes kind within
  | bcdRotate => exact modify (Cpu.digitRotate_behind ..) fun _ => Cpu.digitRotate_pc ..
  | bitDynamic =>
    obtain ⟨i, rfl⟩ := two (.inr kind)
    exact modify (Cpu.bitDynamic_behind ..) fun _ => Cpu.bitDynamic_pc ..
  | io => exact execIo_passes kind within
  | ldctl => exact execLdctl_passes
  | shift =>
    obtain ⟨i, rfl⟩ := two (.inl kind)
    exact modify (Cpu.shift_behind ..) fun _ => Cpu.shift_pc ..
  | ldm => exact execLdm_passes kind within
  | multiProc =>
    exact guarded fun _ => modify (Cpu.multiProc_behind ..) fun _ => Cpu.multiProc_pc ..
  | mul => exact execMul_passes kind within
  | div => exact execDiv_passes kind within
  | ldps => exact execLdps_passes kind within (user (.inl kind))
  | halt => exact guarded fun _ => modify rfl fun _ => rfl
  | sysCall => exact modify rfl fun _ => rfl
  | iret => exact execIret_passes (user (.inr kind))
  | _ => exact absurd (by rw [CtrlWord.isBlock, kind]) block

end Handlers

/-! ## The instruction -/

section Runs

variable {w : CtrlWord} {n : Nat} {o : Fin 6 → Word}

theorem takeWarning_behind (m : Machine) :
    (m.behind n o).takeWarning = m.takeWarning.behind n o := by
  unfold Machine.takeWarning
  rw [apply_ite (Machine.behind · n o)]
  rfl

theorem executeElement_behind {falls : Prop} {m : Machine}
    (passes : Passes n o falls (execute w) m) :
    executeElement w (m.behind n o) = (executeElement w m).behind n o := by
  unfold executeElement
  rw [passes.blind]
  exact takeWarning_behind { (execute w m).2 with
    cpu := { (execute w m).2.cpu with insns := (execute w m).2.cpu.insns + 1 } }

theorem executeElement_pc {falls : Prop} {m : Machine} (passes : Passes n o falls (execute w) m)
    (still : falls) : (executeElement w m).cpu.pc = m.cpu.pc := by
  obtain ⟨irqReq, counted⟩ := executeElement_cpu w m
  rw [counted]
  exact passes.pc still

theorem leave_behind (m : Machine) (pc : Long) :
    (m.behind n o).leave pc = (m.leave pc).behind n o := by
  unfold Machine.leave
  rw [apply_ite (Machine.behind · n o), apply_ite (Machine.behind · n o)]
  rfl

theorem nextElement_behind (block : w.isBlock = true) (m : Machine) :
    (m.behind (n + 2) o).nextElement w = (m.nextElement w).behind (n + 2) o :=
  @executeElement_behind w (n + 2) o True m.clearRepeat (execBlock_passes block)

theorem repeatLoop_behind_settled {m : Machine} (clean : m.cpu.fault = false)
    (state : m.settled = true) (fuel : Nat) :
    repeatLoop w fuel (m.behind n o) = (repeatLoop w fuel m).map (·.behind n o) := by
  have cleanToo : (m.behind n o).cpu.fault = false := clean
  have stateToo : (m.behind n o).settled = true := state
  rw [repeatLoop_settled cleanToo fuel stateToo, repeatLoop_settled clean fuel state, leave_behind]
  rfl

/-- The repeat loop of a block instruction. -/
theorem repeatLoop_behind (block : w.isBlock = true) (fuel : Nat) {m : Machine}
    (clean : m.cpu.fault = false) : repeatLoop w fuel (m.behind (n + 2) o) =
      (repeatLoop w fuel m).map (·.behind (n + 2) o) := by
  induction fuel generalizing m with
  | zero =>
    cases state : m.settled with
    | true => exact repeatLoop_behind_settled clean state 0
    | false =>
      have cleanToo : (m.behind (n + 2) o).cpu.fault = false := clean
      have goesOn : (m.behind (n + 2) o).settled = false := state
      rw [repeatLoop_exhausted cleanToo goesOn, repeatLoop_exhausted clean state]
      rfl
  | succ fuel inductionHypothesis =>
    cases state : m.settled with
    | true => exact repeatLoop_behind_settled clean state (fuel + 1)
    | false =>
      have cleanToo : (m.behind (n + 2) o).cpu.fault = false := clean
      have goesOn : (m.behind (n + 2) o).settled = false := state
      rw [repeatLoop_next cleanToo fuel goesOn, repeatLoop_next clean fuel state,
        nextElement_behind block]
      by_cases fault : (m.nextElement w).cpu.fault = true
      · have faultToo : ((m.nextElement w).behind (n + 2) o).cpu.fault = true := fault
        rw [if_pos faultToo, if_pos fault, leave_behind]
        rfl
      · have calm : ¬ ((m.nextElement w).behind (n + 2) o).cpu.fault = true := fault
        rw [if_neg calm, if_neg fault]
        exact inductionHypothesis ((Bool.not_eq_true _).mp fault)

/-- An instruction with other words left over. -/
theorem runInstruction_behind {d : Machine} (pooled : w ∈ pool)
    (fresh : d.cpu.repeatPending = false)
    (within : w.wordsRead d.cpu.segW1 (d.cpu.longAddress 1) (d.cpu.longAddress 2) ≤ n)
    (positive : 0 < n) (fuel : Nat) : runInstruction fuel w (d.behind n o) =
      (runInstruction fuel w d).map (·.behind n o) := by
  have element : executeElement w (d.behind n o).started =
      (executeElement w d.started).behind n o := by
    obtain ⟨j, rfl⟩ : ∃ j, n = j + 1 := ⟨n - 1, by omega⟩
    exact executeElement_behind (execute_passes (m := d.started) within)
  have unfolded : ∀ x : Machine, runInstruction fuel w x =
      if (executeElement w x.started).cpu.fault then
        some ((executeElement w x.started).abort x.cpu.pcNext)
      else repeatLoop w fuel (executeElement w x.started) := fun _ => rfl
  rw [unfolded, unfolded, element]
  by_cases fault : (executeElement w d.started).cpu.fault = true
  · have faultToo : ((executeElement w d.started).behind n o).cpu.fault = true := fault
    rw [if_pos faultToo, if_pos fault]
    rfl
  · have faultToo : ¬ ((executeElement w d.started).behind n o).cpu.fault = true := fault
    have clean := (Bool.not_eq_true _).mp fault
    rw [if_neg faultToo, if_neg fault]
    cases repeats : w.blockRept with
    | false =>
      refine repeatLoop_behind_settled clean ?_ fuel
      rw [← started_nextElement fresh]
      exact single_settles pooled d.started (.inl repeats)
    | true =>
      have block := (pool_repeating w pooled repeats).1
      have two := two_le_of_block block within
      obtain ⟨j, rfl⟩ : ∃ j, n = j + 2 := ⟨n - 2, by omega⟩
      exact repeatLoop_behind block fuel clean

/-- Every element of an instruction that transfers no control leaves the program counter behind
the instruction. -/
theorem elementRun_pc {d : Machine} {k : Nat} (pooled : w ∈ pool)
    (fresh : d.cpu.repeatPending = false)
    (within : w.wordsRead d.cpu.segW1 (d.cpu.longAddress 1) (d.cpu.longAddress 2) ≤ n + 1)
    (still : w.transfers d.cpu = false)
    (ends : EndsAfter w (d.started.nextElement w) k) :
    (elementRun w d.started (k + 1)).cpu.pc = d.cpu.pcNext := by
  have first : (d.started.nextElement w).cpu.pc = d.cpu.pcNext := by
    rw [started_nextElement fresh]
    exact executeElement_pc (@execute_passes w d.started n d.cpu.opcode within) still
  cases repeats : w.blockRept with
  | false =>
    have settled := single_settles pooled d.started (.inl repeats)
    obtain rfl := ends.unique (EndsAfter.zero_iff.mpr settled)
    exact first
  | true =>
    have block := (pool_repeating w pooled repeats).1
    clear ends
    induction k with
    | zero => exact first
    | succ k inductionHypothesis =>
      rw [elementRun_succ, ← inductionHypothesis]
      exact executeElement_pc (@execBlock_passes w _ n d.cpu.opcode True block) trivial

theorem nextElement_instrStart (m : Machine) :
    (m.nextElement w).cpu.instrStart = m.cpu.instrStart := by
  obtain ⟨irqReq, counted⟩ := executeElement_cpu w m.clearRepeat
  obtain ⟨events, -, state⟩ := execute_latching w m.clearRepeat
  rw [Machine.nextElement, counted]
  exact congrArg StepState.instrStart state

theorem elementRun_instrStart (m : Machine) (k : Nat) :
    (elementRun w m k).cpu.instrStart = m.cpu.instrStart := by
  induction k with
  | zero => rfl
  | succ k inductionHypothesis => rw [elementRun_succ, nextElement_instrStart, inductionHypothesis]

end Runs

/-! ## An instruction in the buffer -/

/-- The buffer holds the instruction `w`, as a fetch leaves it there. -/
structure Cpu.Loaded (c : Cpu) (w : CtrlWord) : Prop where
  decoded : decodeLookup (c.opcode 0) (c.opcode 1) c.oplen = some w
  oplen : c.oplen = c.reduceLength (decodeLength (c.opcode 0) c.seg)
  segW1 : c.segW1 = decodeSegAddrW1 (c.opcode 0) c.seg
  segW2 : c.segW2 = decodeSegAddrW2 (c.opcode 0) c.seg
  fresh : c.repeatPending = false

/-- The words from `n` on, which earlier instructions left behind, are all that differs. -/
structure Machine.LeftoverOnly (n : Nat) (a b : Machine) : Prop where
  words : ∀ i : Fin 6, i.val < n → b.cpu.opcode i = a.cpu.opcode i
  rest : { b with cpu := { b.cpu with opcode := a.cpu.opcode } } = a

/-- The repetition ends before its time: a later element faults, or the loop makes way for a
request while the instruction wishes to go on. -/
def Machine.CutShort (w : CtrlWord) (d : Machine) : Prop :=
  ∃ k, EndsAfter w (d.started.nextElement w) k ∧
    let last := (elementRun w d.started (k + 1)).cpu
    last.fault = true ∧ k ≠ 0 ∨ last.fault = false ∧ last.repeatPending = true

theorem Machine.leftoverOnly_iff {n : Nat} {a b : Machine} :
    LeftoverOnly n a b ↔ ∃ o, b = a.behind n o := by
  constructor
  · rintro ⟨words, rest⟩
    refine ⟨b.cpu.opcode, ?_⟩
    have same : (fun i : Fin 6 => if i.val < n then a.cpu.opcode i else b.cpu.opcode i) =
        b.cpu.opcode := by
      funext i
      split
      · exact (words i ‹_›).symm
      · rfl
    unfold Machine.behind Cpu.behind
    rw [same, ← rest]
  · rintro ⟨o, rfl⟩
    exact ⟨fun i below => Cpu.opcode_behind below, rfl⟩

section Loaded

variable {w : CtrlWord} {d e : Machine}

theorem Cpu.reduceLength_eq (c : Cpu) (segW1 : c.segW1 = decodeSegAddrW1 (c.opcode 0) c.seg)
    (segW2 : c.segW2 = decodeSegAddrW2 (c.opcode 0) c.seg) :
    c.reduceLength (decodeLength (c.opcode 0) c.seg) =
      reducedLength (c.opcode 0) c.seg (c.opcode 1 &&& 0x8000 != 0)
        (c.opcode 2 &&& 0x8000 != 0) := by
  have bit : ∀ v : Word, (v &&& 0x8000 != 0) = false ↔ v &&& 0x8000 = 0 := fun v => by simp
  unfold reduceLength reducedLength
  simp only [segW1, segW2, bit]

namespace Cpu.Loaded

variable {c : Cpu}

theorem reducedLength (loaded : c.Loaded w) : c.oplen =
    C900.reducedLength (c.opcode 0) c.seg (c.opcode 1 &&& 0x8000 != 0)
      (c.opcode 2 &&& 0x8000 != 0) :=
  loaded.oplen.trans (c.reduceLength_eq loaded.segW1 loaded.segW2)

theorem within (loaded : c.Loaded w) :
    w.wordsRead c.segW1 (c.longAddress 1) (c.longAddress 2) ≤ c.oplen := by
  rw [loaded.reducedLength, loaded.segW1]
  exact wordsRead_le loaded.decoded _ _ _

theorem pooled (loaded : c.Loaded w) : w ∈ pool := decodeLookup_mem loaded.decoded

end Cpu.Loaded

/-- Other words left over are no other instruction. -/
theorem Cpu.Loaded.behind (loaded : d.cpu.Loaded w) (o : Fin 6 → Word) :
    (d.cpu.behind d.cpu.oplen o).Loaded w := by
  have length := loaded.reducedLength
  have positive : 0 < d.cpu.oplen := by
    rw [length]
    exact reducedLength_pos _ _ _ _
  have first := @Cpu.first_behind d.cpu _ o positive
  have second : 2 ≤ d.cpu.oplen →
      (d.cpu.behind d.cpu.oplen o).opcode 1 = d.cpu.opcode 1 := Cpu.second_behind
  have third : 3 ≤ d.cpu.oplen →
      (d.cpu.behind d.cpu.oplen o).opcode 2 = d.cpu.opcode 2 := Cpu.third_behind
  refine ⟨?_, ?_, ?_, ?_, loaded.fresh⟩
  · rw [first]
    exact (decodeLookup_second length second).trans loaded.decoded
  · have segW1 : (d.cpu.behind d.cpu.oplen o).segW1 = decodeSegAddrW1
        ((d.cpu.behind d.cpu.oplen o).opcode 0) (d.cpu.behind d.cpu.oplen o).seg := by
      rw [first]
      exact loaded.segW1
    have segW2 : (d.cpu.behind d.cpu.oplen o).segW2 = decodeSegAddrW2
        ((d.cpu.behind d.cpu.oplen o).opcode 0) (d.cpu.behind d.cpu.oplen o).seg := by
      rw [first]
      exact loaded.segW2
    rw [Cpu.reduceLength_eq _ segW1 segW2, first]
    exact reducedLength_congr length (fun two => by rw [second two]) fun three => by
      rw [third three]
  · rw [first]
    exact loaded.segW1
  · rw [first]
    exact loaded.segW2

theorem cutShort_iff {k : Nat} (ends : EndsAfter w (d.started.nextElement w) k) :
    d.CutShort w ↔ (elementRun w d.started (k + 1)).cpu.fault = true ∧ k ≠ 0 ∨
      (elementRun w d.started (k + 1)).cpu.fault = false ∧
        (elementRun w d.started (k + 1)).cpu.repeatPending = true := by
  constructor
  · rintro ⟨l, endsToo, cut⟩
    obtain rfl := endsToo.unique ends
    exact cut
  · exact fun cut => ⟨k, ends, cut⟩

/-- Only a repetition is cut short. -/
theorem Machine.CutShort.repeats (pooled : w ∈ pool) (cut : d.CutShort w) : w.blockRept = true := by
  obtain ⟨k, ends, last⟩ := cut
  cases repeats : w.blockRept with
  | true => rfl
  | false =>
    have settled := single_settles pooled d.started (.inl repeats)
    have quiet := single_quiet pooled d.started (.inl repeats)
    obtain rfl := ends.unique (EndsAfter.zero_iff.mpr settled)
    rcases last with ⟨-, later⟩ | ⟨-, pending⟩
    · exact absurd rfl later
    · exact absurd (quiet.symm.trans pending) Bool.false_ne_true

/-- How an instruction that transfers no control leaves the program counter. -/
theorem runInstruction_pc (loaded : d.cpu.Loaded w) {fuel : Nat} {after : Machine}
    (returns : runInstruction fuel w d = some after) (still : w.transfers d.cpu = false) :
    (¬ d.CutShort w → after.cpu.pc = d.cpu.pcNext) ∧
      (d.CutShort w → w.blockRept = true ∧ after.cpu.pc = d.cpu.instrStart) := by
  obtain ⟨k, -, ends, rfl⟩ :=
    (runInstruction_eq_some_iff w fuel d after loaded.fresh).mp returns
  have within := loaded.within
  obtain ⟨n, length⟩ : ∃ n, d.cpu.oplen = n + 1 := by
    have positive := reducedLength_pos (d.cpu.opcode 0) d.cpu.seg
      (d.cpu.opcode 1 &&& 0x8000 != 0) (d.cpu.opcode 2 &&& 0x8000 != 0)
    rw [← loaded.reducedLength] at positive
    exact ⟨d.cpu.oplen - 1, by omega⟩
  rw [length] at within
  have pc := elementRun_pc loaded.pooled loaded.fresh within still ends
  have start : (elementRun w d.started (k + 1)).cpu.instrStart = d.cpu.instrStart :=
    elementRun_instrStart d.started (k + 1)
  have repeats : d.CutShort w → w.blockRept = true := fun short => short.repeats loaded.pooled
  have cut := cutShort_iff ends
  unfold Machine.leave
  cases fault : (elementRun w d.started (k + 1)).cpu.fault with
  | true =>
    rw [if_pos rfl]
    show (_ → d.faultPc w k = _) ∧ (_ → _ ∧ d.faultPc w k = _)
    unfold Machine.faultPc
    by_cases first : k = 0
    · rw [if_pos first]
      refine ⟨fun _ => rfl, fun short => ?_⟩
      rcases cut.mp short with ⟨-, later⟩ | ⟨clean, -⟩
      · exact absurd first later
      · exact absurd (fault.symm.trans clean) nofun
    · rw [if_neg first, start]
      exact ⟨fun whole => absurd (cut.mpr (.inl ⟨fault, first⟩)) whole,
        fun short => ⟨repeats short, rfl⟩⟩
  | false =>
    rw [if_neg Bool.false_ne_true]
    cases pending : (elementRun w d.started (k + 1)).cpu.repeatPending with
    | true =>
      rw [if_pos rfl]
      exact ⟨fun whole => absurd (cut.mpr (.inr ⟨fault, pending⟩)) whole,
        fun short => ⟨repeats short, start⟩⟩
    | false =>
      rw [if_neg Bool.false_ne_true]
      refine ⟨fun _ => pc, fun short => ?_⟩
      rcases cut.mp short with ⟨faults, -⟩ | ⟨-, wishes⟩
      · exact absurd (fault.symm.trans faults) nofun
      · exact absurd (pending.symm.trans wishes) nofun

/-- The fetch of a step leaves the decoded instruction in the buffer. -/
theorem fetchDecode_loaded {m : Machine} (fetched : fetchDecode m = (some w, d)) :
    d.cpu.Loaded w := by
  have run := fetchDecode_run m (m.codeWord 0) m.codeWord_zero
  obtain ⟨-, spec⟩ := fetchDecode_spec m
  have fresh := fetchDecode_fresh m
  let noted : Machine := { Fetched.more m.begun 0 m.cpu.pc with
    cpu := { (Fetched.more m.begun 0 m.cpu.pc).cpu with
      segW1 := decodeSegAddrW1 (m.codeWord 0) m.cpu.seg
      segW2 := decodeSegAddrW2 (m.codeWord 0) m.cpu.seg } }
  have same := fetchOperands_sameFetch
    ([1, 2, 3, 4, 5].take (decodeLength (m.codeWord 0) m.cpu.seg - 1)) m.cpu.pc noted
  rw [fetched] at run spec fresh
  have first : d.cpu.opcode 0 = m.codeWord 0 := by
    rw [spec.fetched.opcode, Machine.opcodeAfter,
      if_pos (show (0 : Fin 6).val < m.fetchedWords from (decodeLength_bounds _ _).1)]
    rfl
  obtain ⟨decoded, after⟩ := Prod.mk.inj run
  have form : d.cpu.seg = m.cpu.seg := by
    have mode : noted.cpu.fcw = m.cpu.fcw := rfl
    have kept : noted.cpu.seg = m.cpu.seg := by rw [Cpu.seg, Cpu.seg, mode]
    refine Eq.trans ?_ kept
    rw [after]
    exact same.seg
  refine ⟨?_, ?_, ?_, ?_, fresh⟩
  · rw [first, decoded, after]
  · rw [first, form, after]
    rfl
  · rw [first, form, after]
    exact same.segW1
  · rw [first, form, after]
    exact same.segW2

/-- The length table, the short forms and the operand readers agree about the words of an
instruction. Machines that differ behind its words only decode the same instruction, run it the
same way, and are left the same but for the words behind it. An instruction that transfers no
control goes on behind its words; a repetition that is cut short goes back to its start. -/
theorem runInstruction_ownWords (loaded : d.cpu.Loaded w)
    (leftover : Machine.LeftoverOnly d.cpu.oplen d e) :
    e.cpu.Loaded w ∧
      (∀ fuel, Option.Rel (Machine.LeftoverOnly d.cpu.oplen) (runInstruction fuel w d)
        (runInstruction fuel w e)) ∧
      ∀ fuel after, runInstruction fuel w d = some after → w.transfers d.cpu = false →
        (¬ d.CutShort w → after.cpu.pc =
          addrAdd d.cpu.instrStart (BitVec.ofNat 32 (2 * d.cpu.oplen))) ∧
        (d.CutShort w → w.blockRept = true ∧ after.cpu.pc = d.cpu.instrStart) := by
  obtain ⟨o, rfl⟩ := Machine.leftoverOnly_iff.mp leftover
  have positive : 0 < d.cpu.oplen := by
    rw [loaded.reducedLength]
    exact reducedLength_pos _ _ _ _
  refine ⟨loaded.behind o, fun fuel => ?_, fun fuel after returns still => ?_⟩
  · rw [runInstruction_behind loaded.pooled loaded.fresh loaded.within positive fuel]
    cases runInstruction fuel w d with
    | none => exact .none
    | some after => exact .some (Machine.leftoverOnly_iff.mpr ⟨o, rfl⟩)
  · rw [Nat.mul_comm]
    exact runInstruction_pc loaded returns still

end Loaded

/-- LD R1 from a short segmented address, with the word `v` left over behind it. -/
def shortLoad (v : Word) : Machine :=
  { (default : Machine) with
    cpu := { (default : Cpu) with
      fcw := 0xC000, oplen := 2, segW1 := true
      opcode := fun i => if i = 0 then 0x6101 else if i = 1 then 0x0205 else v } }

theorem runInstruction_ownWords_shortLoad : ∃ w, (shortLoad 0xFFFF).cpu.Loaded w ∧
    ∀ fuel, Option.Rel (Machine.LeftoverOnly 2) (runInstruction fuel w (shortLoad 0))
      (runInstruction fuel w (shortLoad 0xFFFF)) := by
  have accepted : (decodeLookup 0x6101 0x0205 2).isSome = true := by decide
  obtain ⟨w, decoded⟩ := Option.isSome_iff_exists.mp accepted
  have loaded : (shortLoad 0).cpu.Loaded w :=
    ⟨decoded, by decide, by decide, by decide, rfl⟩
  have leftover : Machine.LeftoverOnly 2 (shortLoad 0) (shortLoad 0xFFFF) :=
    ⟨by decide, rfl⟩
  obtain ⟨loadedToo, same, -⟩ := runInstruction_ownWords loaded leftover
  exact ⟨w, loadedToo, same⟩

end C900
