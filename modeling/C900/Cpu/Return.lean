import C900.Cpu.Stacks

/-!
# A trap and the return from it

A trap entry pushes program counter, flag and control word and tag on the system
stack; IRET takes them back. When the frame lies in memory, the return leaves the
interrupted program with every register as it was, whatever its mode.
-/

namespace C900

/-! ## Accesses of the system -/

/-- An access in system mode: the physical address, and whether it is refused. -/
def Mmu.system (u : Mmu) (kind : Access) (a : Long) : Long × Bool :=
  let t := mmuTranslate u (segOf a) (offOf a) (kind == .write) false (kind == .fetch)
  (t.1, t.2.1)

/-- A write that passes the ladder passes it as a read. -/
theorem ladderViol_read {d : MmuDesc} {page : Byte} {n f : Bool}
    (permitted : ladderViol d page true n f = none) : ladderViol d page false n f = none := by
  unfold ladderViol at permitted ⊢
  split_ifs at permitted ⊢ <;> simp_all

/-- Where a store is permitted a load is, and from the same place. -/
theorem mmuTranslate_read {u : Mmu} {sn : Byte} {off : Word} {n : Bool}
    (permitted : (mmuTranslate u sn off true n false).2.1 = false) :
    (mmuTranslate u sn off false n false).1 = (mmuTranslate u sn off true n false).1 ∧
      (mmuTranslate u sn off false n false).2.1 = false := by
  unfold mmuTranslate at permitted ⊢
  dsimp only at permitted ⊢
  split_ifs at permitted ⊢
  · exact ⟨rfl, rfl⟩
  · exact ⟨rfl, rfl⟩
  · unfold protectionLadder at permitted ⊢
    dsimp only at permitted ⊢
    cases ladder : ladderViol (u.desc (segIndex sn)) ((off >>> 8).setWidth 8) true n false with
    | some viol =>
      rw [ladder] at permitted
      exact absurd permitted (by simp)
    | none =>
      rw [ladderViol_read ladder]
      exact ⟨rfl, rfl⟩

/-- A machine in segmented system mode that translates like `m` and has its
general registers; `b` is its banked view. -/
structure Framed (m : Machine) (b : Banked) (x : Machine) : Prop where
  system : b.system = true
  seg : b.seg = true
  shown : b.Shows x.cpu
  map : x.mmu.SameMap m.mmu
  registers : ∀ r : Reg, r ≠ 14 → r ≠ 15 → x.cpu.R r = m.cpu.R r

/-- The word at the top of the system stack, moved by `n`. -/
def Banked.slot (b : Banked) (n : Word) : Long := internalAddr b.s14 (b.s15 + n)

theorem Banked.slot_zero (b : Banked) : b.slot 0 = internalAddr b.s14 b.s15 := by
  simp [slot]

/-- The slot below another. -/
theorem Banked.slot_sub (b : Banked) (n : Long) :
    addrSub (b.slot 0) n = b.slot (-n.setWidth 16) := by
  rw [slot_zero, addrSub_internalAddr, slot, BitVec.sub_eq_add_neg]

theorem internalAddr_segmentBits (hi lo : Word) :
    internalAddr (hi &&& segmentBits) lo = internalAddr hi lo := by
  have bits : ∀ i : Fin 32, segmentBits.getLsbD (8 + i) = decide (i.val < 7) := by decide
  have seven : ∀ i : Fin 32, (0x7F : Word).getLsbD i = decide (i.val < 7) := by decide
  have same : ((hi &&& segmentBits) >>> 8) &&& (0x7F : Word) = (hi >>> 8) &&& (0x7F : Word) := by
    apply BitVec.eq_of_getLsbD_eq
    intro i bound
    have bit := bits ⟨i, by omega⟩
    have sevenBit := seven ⟨i, by omega⟩
    dsimp only at bit sevenBit
    rw [BitVec.getLsbD_and, BitVec.getLsbD_and, BitVec.getLsbD_ushiftRight,
      BitVec.getLsbD_ushiftRight, BitVec.getLsbD_and, bit, sevenBit, Bool.and_assoc,
      Bool.and_self]
  rw [internalAddr, same, internalAddr]

/-- Moving the stack pointer moves the slots. -/
theorem Banked.slot_moveSystem (b : Banked) (n k : Word) :
    (b.moveSystem n).slot k = b.slot (n + k) := by
  unfold Banked.slot Banked.moveSystem
  cases b.seg <;> simp [internalAddr_segmentBits, BitVec.add_assoc]

namespace Framed

variable {m x : Machine} {b : Banked}

/-- An access goes where the interrupted machine's system would go. -/
theorem access (framed : Framed m b x) (kind : Access) (a : Long) :
    x.physOf kind a = (m.mmu.system kind a).1 ∧ x.violates kind a = (m.mmu.system kind a).2 := by
  have mode : x.cpu.sysmode = true := framed.shown.system.trans framed.system
  have same := framed.map.translate (segOf a) (offOf a) (kind == .write) false (kind == .fetch)
  unfold Machine.physOf Machine.violates Machine.translate Mmu.system
  rw [mode]
  exact same

/-- A load from where a store is permitted. -/
theorem load (framed : Framed m b x) {a : Long}
    (permitted : (m.mmu.system .write a).2 = false) :
    x.physOf .read a = (m.mmu.system .write a).1 ∧ x.violates .read a = false := by
  obtain ⟨phys, viol⟩ := framed.access .read a
  obtain ⟨samePhys, notRefused⟩ := mmuTranslate_read permitted
  exact ⟨phys.trans samePhys, viol.trans notRefused⟩

/-- A change of the machine that keeps view, map and registers. -/
theorem of_same (framed : Framed m b x) {c : Banked} {y : Machine} (system : c.system = true)
    (seg : c.seg = true) (shown : c.Shows y.cpu) (map : y.mmu.SameMap x.mmu)
    (registers : ∀ r : Reg, r ≠ 14 → r ≠ 15 → y.cpu.R r = x.cpu.R r) : Framed m c y :=
  ⟨system, seg, shown, map.trans framed.map,
    fun r not14 not15 => (registers r not14 not15).trans (framed.registers r not14 not15)⟩

end Framed

/-- Moving the stack pointer changes R14 and R15 only. -/
theorem Cpu.moveSp_R (c : Cpu) (n : Word) {r : Reg} (not14 : r ≠ 14) (not15 : r ≠ 15) :
    (c.moveSp n).R r = c.R r := by
  unfold moveSp
  split_ifs
  · simp only [ww, setR, Function.update_of_ne not15, Function.update_of_ne not14]
  · simp only [ww, setR, Function.update_of_ne not15]

/-- So does a new flag and control word. -/
theorem Cpu.changeFcw_R (c : Cpu) (nf : Word) {r : Reg} (not14 : r ≠ 14) (not15 : r ≠ 15) :
    (c.changeFcw nf).R r = c.R r := by
  unfold changeFcw
  dsimp only
  split_ifs <;> simp only [swapOffset, swapSegment, ww, setR, Function.update_of_ne not15,
    Function.update_of_ne not14]

/-- A cycle keeps the map. -/
theorem Machine.cycle_sameMap (m : Machine) (kind : Access) (wide : Bool) (a : Long) :
    (m.cycle kind wide a).mmu.SameMap m.mmu := mmuTranslate_sameMap ..

/-! ## The pushes -/

section Frame

variable {m x : Machine} {b : Banked}

/-- A store through the frame's map keeps the view. -/
theorem Framed.memW16 (framed : Framed m b x) (a : Long) (v : Word) :
    Framed m b (C900.memW16 a v x).2 :=
  framed.of_same framed.system framed.seg (framed.shown.ofFault (memW16_cpu a x v))
    (x.cycle_sameMap .write true a) fun _ _ _ => rfl

/-- A permitted store. -/
theorem Framed.memW16_bus (framed : Framed m b x) {a : Long} (v : Word)
    (permitted : (m.mmu.system .write a).2 = false) :
    (C900.memW16 a v x).2.bus = physWrite16 x.bus (m.mmu.system .write a).1 v := by
  obtain ⟨phys, viol⟩ := framed.access .write a
  change (if x.violates .write a then x.bus else physWrite16 x.bus (x.physOf .write a) v) = _
  rw [viol, permitted, phys, if_neg Bool.false_ne_true]

/-- The moved stack pointer keeps the view. -/
theorem Framed.moveSp (framed : Framed m b x) (n : Word) :
    Framed m (b.moveSystem n) { x with cpu := x.cpu.moveSp n } :=
  framed.of_same framed.system framed.seg (framed.shown.moveSp framed.system n)
    (Mmu.SameMap.refl _) fun _ not14 not15 => x.cpu.moveSp_R n not14 not15

/-- The address of the system stack pointer. -/
theorem Framed.address (framed : Framed m b x) :
    x.cpu.addrFromReg x.cpu.spReg = b.slot 0 := by
  have form : x.cpu.seg = true := framed.shown.seg.trans framed.seg
  have stack : x.cpu.spReg = 14 := by rw [Cpu.spReg, if_pos form]
  rw [stack, x.cpu.addrFromReg_stack form, framed.shown.r14, framed.shown.r15, Banked.slot_zero,
    Banked.segment, Banked.offset, framed.system, framed.seg]
  rfl

/-- A push stores below the stack pointer. -/
theorem Framed.pushWord_eq (framed : Framed m b x) (v : Word) :
    C900.pushWord v x = C900.memW16 (b.slot (-2)) v { x with cpu := x.cpu.moveSp (-2) } := by
  have form : x.cpu.seg = true := framed.shown.seg.trans framed.seg
  have stack : x.cpu.spReg = 14 := by rw [Cpu.spReg, if_pos form]
  have address : x.cpu.addrFromReg 14 = b.slot 0 := by rw [← stack, framed.address]
  have below : addrSub (b.slot 0) 2 = b.slot (-2) := b.slot_sub 2
  have moved : x.cpu.addrToReg 14 (b.slot (-2)) = x.cpu.moveSp (-2) := by
    rw [← below, ← address, x.cpu.addrFromReg_stack form, addrSub_internalAddr,
      x.cpu.addrToReg_stack form, Cpu.moveSp, if_pos form, BitVec.sub_eq_add_neg]
    rfl
  simp only [C900.pushWord, StateM.bind_apply, getCpu, form, if_true, stack, modifyCpu, address,
    below, moved]

/-- A push. -/
theorem Framed.push (framed : Framed m b x) (v : Word)
    (permitted : (m.mmu.system .write (b.slot (-2))).2 = false) :
    Framed m (b.moveSystem (-2)) (C900.pushWord v x).2 ∧
      (C900.pushWord v x).2.bus = physWrite16 x.bus (m.mmu.system .write (b.slot (-2))).1 v := by
  rw [framed.pushWord_eq v]
  exact ⟨(framed.moveSp (-2)).memW16 _ v, (framed.moveSp (-2)).memW16_bus v permitted⟩

/-- A pop loads from the stack pointer. -/
theorem Framed.pop (framed : Framed m b x) (permitted : (m.mmu.system .write (b.slot 0)).2 = false) :
    Framed m (b.moveSystem 2) (popWord x).2 ∧ (popWord x).2.bus = x.bus ∧
      (popWord x).1 = physRead16 x.bus (m.mmu.system .write (b.slot 0)).1 ∧
      (popWord x).2.cpu.fault = x.cpu.fault := by
  have form : x.cpu.seg = true := framed.shown.seg.trans framed.seg
  have stack : x.cpu.spReg = 14 := by rw [Cpu.spReg, if_pos form]
  have address : x.cpu.addrFromReg 14 = b.slot 0 := by rw [← stack, framed.address]
  obtain ⟨phys, viol⟩ := framed.load permitted
  have run : popWord x = (physRead16 x.bus (x.physOf .read (b.slot 0)),
      { (memR16 (b.slot 0) x).2 with
        cpu := (memR16 (b.slot 0) x).2.cpu.addrToReg 14 (addrAdd (b.slot 0) 2) }) := by
    simp only [popWord, StateM.bind_apply, getCpu, form, if_true, stack, address]
    rfl
  have shown := popWord_shows framed.shown framed.system
  refine ⟨framed.of_same framed.system framed.seg shown ?_ ?_, ?_, ?_, ?_⟩
  · rw [run]
    exact x.cycle_sameMap .read true _
  · intro r not14 not15
    obtain ⟨fault, same⟩ := popWord_cpu x
    rw [same]
    exact x.cpu.moveSp_R 2 not14 not15
  · rw [run]
    rfl
  · rw [run, phys]
  · rw [run]
    have cycled : (memR16 (b.slot 0) x).2.cpu.fault = (x.cpu.fault || x.violates .read (b.slot 0)) :=
      rfl
    rw [viol, Bool.or_false] at cycled
    rw [← cycled]
    unfold Cpu.addrToReg
    dsimp only
    split_ifs <;> rfl

end Frame

/-! ## The frame -/

/-- The slots of the frame, in the order of the stores: program counter, flag and
control word, tag. -/
def frameSlots : List Word := [-4, -2, -6, -8]

/-- The physical address of a slot. -/
def Machine.framePhys (m : Machine) (b : Banked) (n : Word) : Long :=
  (m.mmu.system .write (b.slot n)).1

/-- The words of the frame and their places. -/
def Machine.frame (m : Machine) (b : Banked) (pc : Long) (fcw tag : Word) : List (Long × Word) :=
  [(m.framePhys b (-4), ((makeSeg pc) >>> 16).setWidth 16),
    (m.framePhys b (-2), (makeSeg pc).setWidth 16), (m.framePhys b (-6), fcw),
    (m.framePhys b (-8), tag)]

theorem Machine.frame_places (m : Machine) (b : Banked) (pc : Long) (fcw tag : Word) :
    (m.frame b pc fcw tag).map Prod.fst = frameSlots.map (m.framePhys b) := rfl

section Frame

variable {m x : Machine} {b : Banked}

/-- The pushes of a trap entry, one after the other. -/
theorem Framed.pushFrame_eq (framed : Framed m b x) (oldfcw tag : Word) :
    C900.pushFrame oldfcw tag x =
      C900.pushWord tag (C900.pushWord oldfcw
        (C900.memW16 (b.slot (-2)) ((makeSeg x.cpu.pc).setWidth 16)
          (C900.memW16 (b.slot (-4)) (((makeSeg x.cpu.pc) >>> 16).setWidth 16)
            { x with cpu := x.cpu.moveSp (-4) }).2).2).2 := by
  have form : x.cpu.seg = true := framed.shown.seg.trans framed.seg
  have below : addrSub (x.cpu.addrFromReg x.cpu.spReg) 4 = b.slot (-4) := by
    rw [framed.address, b.slot_sub, show (-(4 : Long).setWidth 16) = (-4 : Word) by decide]
  have above : addrAdd (b.slot (-4)) 2 = b.slot (-2) := by
    rw [Banked.slot, addrAdd_internalAddr, Banked.slot, BitVec.add_assoc,
      show -4 + (2 : Long).setWidth 16 = (-2 : Word) by decide]
  have run : C900.pushFrame oldfcw tag x =
      C900.pushWord tag (C900.pushWord oldfcw
        (C900.memW16 (addrAdd (addrSub (x.cpu.addrFromReg x.cpu.spReg) 4) 2)
          ((makeSeg x.cpu.pc).setWidth 16)
          (C900.memW16 (addrSub (x.cpu.addrFromReg x.cpu.spReg) 4)
            (((makeSeg x.cpu.pc) >>> 16).setWidth 16)
            { x with cpu := (x.cpu.addrToReg x.cpu.spReg
                (addrSub (x.cpu.addrFromReg x.cpu.spReg) 4)) }).2).2).2 := rfl
  rw [run, x.cpu.reserveFrame form, below, above]

/-- The pushes of a trap entry store the frame. -/
theorem Framed.pushFrame (framed : Framed m b x) (oldfcw tag : Word)
    (permitted : ∀ n ∈ frameSlots, (m.mmu.system .write (b.slot n)).2 = false) :
    Framed m (b.moveSystem (-8)) (C900.pushFrame oldfcw tag x).2 ∧
      (C900.pushFrame oldfcw tag x).2.bus =
        x.bus.storeWords (m.frame b x.cpu.pc oldfcw tag) := by
  have first := framed.moveSp (-4)
  have second := first.memW16 (b.slot (-4)) (((makeSeg x.cpu.pc) >>> 16).setWidth 16)
  have third := second.memW16 (b.slot (-2)) ((makeSeg x.cpu.pc).setWidth 16)
  have highBus := first.memW16_bus (((makeSeg x.cpu.pc) >>> 16).setWidth 16)
    (permitted (-4) (by decide))
  have lowBus := second.memW16_bus ((makeSeg x.cpu.pc).setWidth 16) (permitted (-2) (by decide))
  have slot6 : (b.moveSystem (-4)).slot (-2) = b.slot (-6) := by
    rw [b.slot_moveSystem, show (-4 + -2 : Word) = -6 by decide]
  obtain ⟨fourth, statusBus⟩ := third.push oldfcw (by
    rw [slot6]
    exact permitted (-6) (by decide))
  rw [Banked.moveSystem_moveSystem, show (-4 + -2 : Word) = -6 by decide] at fourth
  have slot8 : (b.moveSystem (-6)).slot (-2) = b.slot (-8) := by
    rw [b.slot_moveSystem, show (-6 + -2 : Word) = -8 by decide]
  obtain ⟨fifth, tagBus⟩ := fourth.push tag (by
    rw [slot8]
    exact permitted (-8) (by decide))
  rw [Banked.moveSystem_moveSystem, show (-6 + -2 : Word) = -8 by decide] at fifth
  rw [framed.pushFrame_eq]
  refine ⟨fifth, ?_⟩
  rw [slot6] at statusBus
  rw [slot8] at tagBus
  rw [tagBus, statusBus, lowBus, highBus]
  rfl

/-- The word that the system reads at an address. -/
def Machine.systemWord (m : Machine) (kind : Access) (a : Long) : Word :=
  physRead16 m.bus (m.mmu.system kind a).1

/-- A word that is read through the frame's map. -/
theorem Framed.memR16 (framed : Framed m b x) (a : Long) :
    Framed m b (C900.memR16 a x).2 ∧ (C900.memR16 a x).2.bus = x.bus ∧
      (C900.memR16 a x).1 = physRead16 x.bus (m.mmu.system .read a).1 :=
  ⟨framed.of_same framed.system framed.seg (framed.shown.ofFault (memR16_cpu a x))
      (x.cycle_sameMap .read true a) fun _ _ _ => rfl, rfl,
    congrArg (physRead16 x.bus) (framed.access .read a).1⟩

/-- The jump to a handler in segmented system mode. -/
theorem Framed.atHandler (framed : Framed m b x) (source : TrapSource) {nf : Word}
    (toSystem : (nf &&& fcwSn != 0) = true) (toSeg : (nf &&& fcwSeg != 0) = true)
    (pcseg pcoff : Word) :
    Framed m b { x with cpu := x.cpu.atHandler source nf pcseg pcoff } := by
  have keeps : b.mode nf = b := by
    have system := framed.system
    have seg := framed.seg
    cases b
    simp_all [Banked.mode]
  have shown := framed.shown.jump framed.system (pcFromWords pcseg pcoff) nf
  rw [keeps] at shown
  exact framed.of_same framed.system framed.seg (shown.of_fields rfl rfl rfl rfl)
    (Mmu.SameMap.refl _) fun r not14 not15 => Cpu.changeFcw_R _ nf not14 not15

theorem Cpu.changeFcw_pc (c : Cpu) (nf : Word) : (c.changeFcw nf).pc = c.pc := by
  unfold changeFcw
  dsimp only
  split_ifs <;> rfl

/-- The reads of the handler's status, when the handler runs in segmented system
mode. -/
theorem Framed.loadHandler (framed : Framed m b x) (source : TrapSource) (c : Cpu) {nf : Word}
    (status : physRead16 x.bus (m.mmu.system .read (c.slotFcw source)).1 = nf)
    (toSystem : (nf &&& fcwSn != 0) = true) (toSeg : (nf &&& fcwSeg != 0) = true) :
    Framed m b (C900.loadHandler source c x).2 ∧
      (C900.loadHandler source c x).2.bus = x.bus ∧
      (C900.loadHandler source c x).2.cpu.halted = false ∧
      (C900.loadHandler source c x).2.cpu.pc =
        pcFromWords (physRead16 x.bus (m.mmu.system .read (c.slotSegment source)).1)
          (physRead16 x.bus (m.mmu.system .read (c.slotOffset source)).1) := by
  let first := C900.memR16 (c.slotFcw source) x
  let second := C900.memR16 (c.slotSegment source) first.2
  let third := C900.memR16 (c.slotOffset source) second.2
  obtain ⟨framed1, bus1, word1⟩ := framed.memR16 (c.slotFcw source)
  obtain ⟨framed2, bus2, word2⟩ := framed1.memR16 (c.slotSegment source)
  obtain ⟨framed3, bus3, word3⟩ := framed2.memR16 (c.slotOffset source)
  have run : (C900.loadHandler source c x).2 =
      { third.2 with cpu := (third.2.cpu.atHandler source first.1 second.1 third.1) } := rfl
  have pc : (C900.loadHandler source c x).2.cpu.pc = pcFromWords second.1 third.1 :=
    Cpu.changeFcw_pc _ _
  rw [bus1] at word2
  rw [bus2, bus1] at word3
  refine ⟨?_, bus3.trans (bus2.trans bus1), rfl, ?_⟩
  · rw [run]
    exact framed3.atHandler source (by rw [word1, status, toSystem])
      (by rw [word1, status, toSeg]) _ _
  · rw [pc, word2, word3]

end Frame

/-! ## The entry -/

/-- Where a trap entry from `m` puts its frame: below the system stack pointer. -/
def Machine.slotPhys (m : Machine) (n : Word) : Long := m.framePhys m.cpu.banked n

/-- A place that the frame does not touch. -/
def Machine.ClearOfFrame (m : Machine) (kind : Access) (a : Long) : Prop :=
  ∀ n ∈ frameSlots, wordsApart (m.mmu.system kind a).1 (m.slotPhys n) = true

instance (m : Machine) (kind : Access) (a : Long) : Decidable (m.ClearOfFrame kind a) :=
  inferInstanceAs (Decidable (∀ n ∈ frameSlots, _))

/-- The program counter of the handler. -/
def Machine.handlerPc (m : Machine) (source : TrapSource) : Long :=
  pcFromWords (m.systemWord .read (m.cpu.slotSegment source))
    (m.systemWord .read (m.cpu.slotOffset source))

/-- The flag and control word of the handler. -/
def Machine.handlerFcw (m : Machine) (source : TrapSource) : Word :=
  m.systemWord .read (m.cpu.slotFcw source)

/-- `IRET`. -/
def iretOpcode : Word := 0x7B00

/-- A trap finds room for its frame and a handler that begins with IRET: the four
words land on distinct RAM words, which touch neither the handler's entry in the
program status area nor its first instruction, and that instruction can be fetched. -/
structure Returnable (m : Machine) (source : TrapSource) : Prop where
  permitted : ∀ n ∈ frameSlots, (m.mmu.system .write (m.cpu.banked.slot n)).2 = false
  inRam : ∀ n ∈ frameSlots, m.bus.isRamWord (m.slotPhys n) = true
  distinct : frameSlots.Pairwise fun n k => wordsApart (m.slotPhys n) (m.slotPhys k) = true
  clearFcw : m.ClearOfFrame .read (m.cpu.slotFcw source)
  clearSegment : m.ClearOfFrame .read (m.cpu.slotSegment source)
  clearOffset : m.ClearOfFrame .read (m.cpu.slotOffset source)
  clearHandler : m.ClearOfFrame .fetch (m.handlerPc source)
  canonical : m.cpu.banked.s14 &&& segmentBits = m.cpu.banked.s14
  toSystem : (m.handlerFcw source &&& fcwSn != 0) = true
  toSeg : (m.handlerFcw source &&& fcwSeg != 0) = true
  fetchable : (m.mmu.system .fetch (m.handlerPc source)).2 = false
  iret : m.systemWord .fetch (m.handlerPc source) = iretOpcode

/-- The banked registers in the mode of the pushes. -/
def Cpu.entering (c : Cpu) : Banked := c.banked.mode (fcwSn ||| fcwSeg)

/-- The memory behind the pushes of a trap entry. -/
def Machine.frameBus (m : Machine) (source : TrapSource) : Bus :=
  m.bus.storeWords (m.frame m.cpu.banked m.cpu.pc m.cpu.fcw source.tag)

namespace Returnable

variable {m : Machine} {source : TrapSource}

theorem frame_isRam (returnable : Returnable m source) (pc : Long) (fcw tag : Word) :
    ∀ word ∈ m.frame m.cpu.banked pc fcw tag, m.bus.isRamWord word.1 = true := by
  intro word member
  have place : word.1 ∈ frameSlots.map m.slotPhys :=
    (m.frame_places m.cpu.banked pc fcw tag) ▸ List.mem_map_of_mem member
  obtain ⟨n, slot, same⟩ := List.mem_map.mp place
  rw [← same]
  exact returnable.inRam n slot

/-- A word that the frame does not touch keeps its value. -/
theorem word_kept (returnable : Returnable m source) {kind : Access} {a : Long}
    (clear : m.ClearOfFrame kind a) :
    physRead16 (m.frameBus source) (m.mmu.system kind a).1 = m.systemWord kind a := by
  refine physRead16_storeWords_apart (returnable.frame_isRam _ _ _) fun word member => ?_
  have place : word.1 ∈ frameSlots.map m.slotPhys :=
    (m.frame_places m.cpu.banked m.cpu.pc m.cpu.fcw source.tag) ▸ List.mem_map_of_mem member
  obtain ⟨n, slot, same⟩ := List.mem_map.mp place
  rw [← same]
  exact clear n slot

/-- A word of the frame is in memory. -/
theorem frame_word (returnable : Returnable m source) {word : Long × Word}
    (stored : word ∈ m.frame m.cpu.banked m.cpu.pc m.cpu.fcw source.tag) :
    physRead16 (m.frameBus source) word.1 = word.2 := by
  refine physRead16_storeWords (returnable.frame_isRam _ _ _) ?_ stored
  have places : ((m.frame m.cpu.banked m.cpu.pc m.cpu.fcw source.tag).map Prod.fst).Pairwise
      fun a b => wordsApart a b = true := by
    rw [m.frame_places]
    exact List.pairwise_map.mpr returnable.distinct
  exact List.pairwise_map.mp places

/-- The machine at the handler. -/
theorem enterTrap (returnable : Returnable m source) :
    Framed m (m.cpu.entering.moveSystem (-8)) (C900.enterTrap source m).2 ∧
      (C900.enterTrap source m).2.bus = m.frameBus source ∧
      (C900.enterTrap source m).2.cpu.halted = false ∧
      (C900.enterTrap source m).2.cpu.pc = m.handlerPc source := by
  have entered : Framed m m.cpu.entering { m with cpu := m.cpu.enter source } :=
    ⟨rfl, rfl, enter_shows m.cpu.banked_shows source, Mmu.SameMap.refl _,
      fun r not14 not15 => m.cpu.changeFcw_R _ not14 not15⟩
  obtain ⟨pushed, bus⟩ := entered.pushFrame m.cpu.fcw source.tag returnable.permitted
  have pc : (m.cpu.enter source).pc = m.cpu.pc := m.cpu.changeFcw_pc _
  have stored : (C900.pushFrame m.cpu.fcw source.tag
      { m with cpu := m.cpu.enter source }).2.bus = m.frameBus source := by
    rw [bus, Machine.frameBus, ← pc]
    rfl
  have status := returnable.word_kept returnable.clearFcw
  rw [← stored] at status
  obtain ⟨atHandler, sameBus, awake, target⟩ :=
    pushed.loadHandler source m.cpu status returnable.toSystem returnable.toSeg
  rw [enterTrap_apply]
  refine ⟨atHandler, sameBus.trans stored, awake, ?_⟩
  rw [target, stored, returnable.word_kept returnable.clearSegment,
    returnable.word_kept returnable.clearOffset, Machine.handlerPc]

end Returnable

/-! ## The return -/

section Return

variable {m x : Machine} {source : TrapSource}

/-- What a return of the handler has given back. -/
structure GivesBack (m r : Machine) : Prop where
  pc : r.cpu.pc = m.cpu.pc &&& 0x7FFFFF
  fcw : r.cpu.fcw = m.cpu.fcw
  shown : m.cpu.banked.Shows r.cpu
  registers : ∀ s : Reg, s ≠ 14 → s ≠ 15 → r.cpu.R s = m.cpu.R s

/-- A pop of a word of the frame. -/
theorem Returnable.pop (returnable : Returnable m source) {n : Word} {v : Word}
    (framed : Framed m (m.cpu.entering.moveSystem n) x) (bus : x.bus = m.frameBus source)
    (slot : n ∈ frameSlots)
    (stored : (m.slotPhys n, v) ∈ m.frame m.cpu.banked m.cpu.pc m.cpu.fcw source.tag) :
    Framed m (m.cpu.entering.moveSystem (n + 2)) (popWord x).2 ∧
      (popWord x).2.bus = m.frameBus source ∧ (popWord x).1 = v ∧
      (popWord x).2.cpu.fault = x.cpu.fault := by
  have place : (m.cpu.entering.moveSystem n).slot 0 = m.cpu.banked.slot n := by
    rw [Banked.slot_moveSystem, show n + 0 = n from BitVec.add_zero n]
    rfl
  obtain ⟨moved, sameBus, word, fault⟩ := framed.pop (by
    rw [place]
    exact returnable.permitted n slot)
  rw [Banked.moveSystem_moveSystem] at moved
  have here : (m.mmu.system .write (m.cpu.banked.slot n)).1 = m.slotPhys n := rfl
  refine ⟨moved, sameBus.trans bus, ?_, fault⟩
  rw [word, bus, place, here]
  have kept := returnable.frame_word stored
  exact kept

theorem Cpu.moveSp_repeatPending (c : Cpu) (n : Word) :
    (c.moveSp n).repeatPending = c.repeatPending := by
  unfold moveSp
  split_ifs <;> simp only [ww, setR]

theorem Cpu.SameButFault.repeatPending {c d : Cpu} (same : c.SameButFault d) :
    d.repeatPending = c.repeatPending := by
  obtain ⟨fault, rfl⟩ := same
  rfl

/-- A pop keeps the wish to repeat. -/
theorem popWord_repeatPending (x : Machine) :
    (popWord x).2.cpu.repeatPending = x.cpu.repeatPending :=
  (popWord_cpu x).repeatPending.trans (x.cpu.moveSp_repeatPending 2)

theorem Cpu.changeFcw_fault (c : Cpu) (nf : Word) : (c.changeFcw nf).fault = c.fault := by
  unfold changeFcw
  dsimp only
  split_ifs <;> rfl

theorem Cpu.changeFcw_repeatPending (c : Cpu) (nf : Word) :
    (c.changeFcw nf).repeatPending = c.repeatPending := by
  unfold changeFcw
  dsimp only
  split_ifs <;> rfl

/-- A stack pointer in canonical form is back in place after the last pop. -/
theorem Returnable.entering_back (returnable : Returnable m source) :
    m.cpu.entering.moveSystem 0 = m.cpu.entering := by
  have same : m.cpu.entering.s14 &&& segmentBits = m.cpu.entering.s14 := returnable.canonical
  have offset : m.cpu.entering.s15 + 0 = m.cpu.entering.s15 := BitVec.add_zero _
  rw [Banked.moveSystem, same, offset, ite_self]

/-- IRET takes the frame back. -/
theorem Returnable.execIret (returnable : Returnable m source)
    (framed : Framed m (m.cpu.entering.moveSystem (-8)) x) (bus : x.bus = m.frameBus source) :
    GivesBack m (C900.execIret x).2 ∧ (C900.execIret x).2.cpu.fault = x.cpu.fault ∧
      (C900.execIret x).2.cpu.repeatPending = x.cpu.repeatPending := by
  let high : Word := ((makeSeg m.cpu.pc) >>> 16).setWidth 16
  let low : Word := (makeSeg m.cpu.pc).setWidth 16
  have stored : m.frame m.cpu.banked m.cpu.pc m.cpu.fcw source.tag =
    [(m.slotPhys (-4), high), (m.slotPhys (-2), low), (m.slotPhys (-6), m.cpu.fcw),
      (m.slotPhys (-8), source.tag)] := rfl
  obtain ⟨first, bus1, -, fault1⟩ :=
    returnable.pop (v := source.tag) framed bus (by decide) (by rw [stored]; simp)
  rw [show (-8 + 2 : Word) = -6 by decide] at first
  obtain ⟨second, bus2, nf, fault2⟩ :=
    returnable.pop (v := m.cpu.fcw) first bus1 (by decide) (by rw [stored]; simp)
  rw [show (-6 + 2 : Word) = -4 by decide] at second
  obtain ⟨third, bus3, hi, fault3⟩ :=
    returnable.pop (v := high) second bus2 (by decide) (by rw [stored]; simp)
  rw [show (-4 + 2 : Word) = -2 by decide] at third
  obtain ⟨fourth, -, lo, fault4⟩ :=
    returnable.pop (v := low) third bus3 (by decide) (by rw [stored]; simp)
  rw [show (-2 + 2 : Word) = 0 by decide, returnable.entering_back] at fourth
  have run := execIret_seg x (framed.shown.system.trans framed.system)
    (second.shown.seg.trans second.seg)
  dsimp only at run
  rw [nf, hi, lo, ← long_halves, segAddr_makeSeg] at run
  have shown := fourth.shown.jump fourth.system (m.cpu.pc &&& 0x7FFFFF) m.cpu.fcw
  have back : m.cpu.entering.mode m.cpu.fcw = m.cpu.banked := rfl
  rw [back] at shown
  rw [run]
  refine ⟨⟨Cpu.changeFcw_pc _ _, rfl, shown, fun r not14 not15 => ?_⟩, ?_, ?_⟩
  · exact (Cpu.changeFcw_R _ _ not14 not15).trans (fourth.registers r not14 not15)
  · exact (Cpu.changeFcw_fault _ _).trans (fault4.trans (fault3.trans (fault2.trans fault1)))
  · refine (Cpu.changeFcw_repeatPending _ _).trans ?_
    exact (popWord_repeatPending _).trans ((popWord_repeatPending _).trans
      ((popWord_repeatPending _).trans (popWord_repeatPending x)))

/-- The opcode of IRET decodes to its handler. -/
theorem decodeLookup_iret (w : Word) :
    ∃ c, decodeLookup iretOpcode w 1 = some c ∧ c.exec = .iret := ⟨_, rfl, rfl⟩

/-- The fetch of an IRET in segmented system mode. -/
theorem Framed.fetchDecode {b : Banked} (framed : Framed m b x)
    (opcode : physRead16 x.bus (m.mmu.system .fetch x.cpu.pc).1 = iretOpcode)
    (fetchable : (m.mmu.system .fetch x.cpu.pc).2 = false) :
    ∃ w y, C900.fetchDecode x = (some w, y) ∧ w.exec = .iret ∧ Framed m b y ∧ y.bus = x.bus ∧
      y.cpu.fault = false ∧ y.cpu.repeatPending = false := by
  let begun : Machine := { x with cpu := x.cpu.beginFetch }
  have atStart : Framed m b begun := framed.of_same framed.system framed.seg
    (framed.shown.of_fields rfl rfl rfl rfl) (Mmu.SameMap.refl _) fun _ _ _ => rfl
  obtain ⟨phys, viol⟩ := atStart.access .fetch x.cpu.pc
  have form : x.cpu.seg = true := framed.shown.seg.trans framed.seg
  let fetched := begun.cycle .fetch true x.cpu.pc
  let y : Machine := { fetched with cpu := { fetched.cpu.setOpcode 0 iretOpcode with
    segW1 := decodeSegAddrW1 iretOpcode x.cpu.seg, segW2 := decodeSegAddrW2 iretOpcode x.cpu.seg
    oplen := 1, curOp := iretOpcode } }
  obtain ⟨w, decoded, kind⟩ := decodeLookup_iret (y.cpu.opcode 1)
  have word : (ifetch16 x.cpu.pc begun).1 = iretOpcode := by
    have here : (ifetch16 x.cpu.pc begun).1 = physRead16 x.bus (begun.physOf .fetch x.cpu.pc) := rfl
    rw [here, phys, opcode]
  have run : C900.fetchDecode x = (decodeLookup iretOpcode (y.cpu.opcode 1) 1, y) := by
    have stages : C900.fetchDecode x = (fetchWords begun) := rfl
    rw [stages, fetchWords]
    simp only [StateM.bind_apply, getCpu]
    have pc : begun.cpu.pc = x.cpu.pc := rfl
    have mode : begun.cpu.seg = true := form
    have length : decodeLength iretOpcode true = 1 := by decide
    have single : ∀ c : Cpu, c.reduceLength 1 = 1 := fun _ => rfl
    rw [pc, word, mode, length]
    simp only [single]
    rfl
  refine ⟨w, y, run.trans (by rw [decoded]), kind, ?_, rfl, ?_, rfl⟩
  · exact atStart.of_same framed.system framed.seg (atStart.shown.of_fields rfl rfl rfl rfl)
      (begun.cycle_sameMap .fetch true x.cpu.pc) fun _ _ _ => rfl
  · have fault : y.cpu.fault = (false || begun.violates .fetch x.cpu.pc) := rfl
    rw [fault, viol, fetchable, Bool.false_or]

/-- The instruction IRET, run on the frame of a trap entry. -/
theorem Returnable.runInstruction (returnable : Returnable m source)
    (framed : Framed m (m.cpu.entering.moveSystem (-8)) x) (bus : x.bus = m.frameBus source)
    (calm : x.cpu.fault = false) (single : x.cpu.repeatPending = false) {w : CtrlWord}
    (kind : w.exec = .iret) (fuel : Nat) :
    ∃ r, C900.runInstruction fuel w x = some r ∧ GivesBack m r := by
  let moved := x.started
  have framedMoved : Framed m (m.cpu.entering.moveSystem (-8)) moved :=
    framed.of_same framed.system framed.seg (framed.shown.of_fields rfl rfl rfl rfl)
      (Mmu.SameMap.refl _) fun _ _ _ => rfl
  obtain ⟨back, fault, repeats⟩ := returnable.execIret framedMoved bus
  have executed : execute w moved = C900.execIret moved := by
    unfold execute
    rw [kind]
  obtain ⟨irqReq, counted⟩ := executeElement_cpu w moved
  rw [executed] at counted
  have done : GivesBack m (executeElement w moved) := by
    refine ⟨?_, ?_, ?_, fun s not14 not15 => ?_⟩
    · rw [counted]
      exact back.pc
    · rw [counted]
      exact back.fcw
    · rw [counted]
      exact back.shown.of_fields rfl rfl rfl rfl
    · rw [counted]
      exact back.registers s not14 not15
  exact ⟨executeElement w moved, runInstruction_single fuel
    (executed ▸ fault.trans calm) (executed ▸ repeats.trans single), done⟩

end Return

/-! ## The interrupted program -/

/-- The processor state that belongs to the interrupted program. -/
structure Cpu.SameProgram (c d : Cpu) : Prop where
  pc : d.pc = c.pc
  fcw : d.fcw = c.fcw
  registers : d.R = c.R
  nspseg : d.nspseg = c.nspseg
  nspoff : d.nspoff = c.nspoff

/-- The 23-bit form of the program counter. -/
def Cpu.InternalPc (c : Cpu) : Prop := c.pc &&& 0x7FFFFF = c.pc

theorem GivesBack.sameProgram {m r : Machine} (back : GivesBack m r)
    (internal : m.cpu.InternalPc) : m.cpu.SameProgram r.cpu := by
  have before := m.cpu.banked_shows
  refine ⟨back.pc.trans internal, back.fcw, ?_, back.shown.nspseg.trans before.nspseg.symm,
    back.shown.nspoff.trans before.nspoff.symm⟩
  funext s
  by_cases is14 : s = 14
  · rw [is14]
    exact back.shown.r14.trans before.r14.symm
  by_cases is15 : s = 15
  · rw [is15]
    exact back.shown.r15.trans before.r15.symm
  exact back.registers s is14 is15

/-- The machine whose status a trap entry pushes: the request lines are sampled, and
a system call has had its service from outside. -/
def Machine.atTrap (hook : SysHook) (source : TrapSource) (m : Machine) : Machine :=
  let m := m.beginStep.sampled
  if source.bit = irqSyscall then
    match hook with
    | none => m
    | some service => service m (loByte m.cpu.curOp) m.cpu.instrStart
  else m

/-- A step that takes a trap. -/
theorem cpuStep_trap {hook : SysHook} {m : Machine} {source : TrapSource}
    (taken : m.beginStep.sampled.cpu.trapSource = some source) (fuel : Nat) :
    cpuStep hook fuel m = some (enterTrap source (m.atTrap hook source)).2 := by
  have interrupts : handleInterrupts hook m.beginStep =
      (true, (enterTrap source (m.atTrap hook source)).2) := by
    rw [handleInterrupts_apply, takeInterrupt, taken]
    unfold Machine.atTrap
    dsimp only
    by_cases call : source.bit = irqSyscall
    · simp only [call, if_true]
      cases hook <;> rfl
    · simp only [call, if_false]
      rfl
  unfold cpuStep
  rw [interrupts]

/-- The sampling of the lines only adds requests. -/
theorem Cpu.sampleLines_request (c : Cpu) : ∃ irqReq, c.sampleLines = { c with irqReq := irqReq } := by
  have step : ∀ (p : Bool) (bits : Byte) (d : Cpu), (∃ irqReq, d = { c with irqReq := irqReq }) →
      ∃ irqReq, (if p then d.request bits else d) = { c with irqReq := irqReq } := by
    rintro p bits d ⟨irqReq, rfl⟩
    cases p
    · exact ⟨irqReq, rfl⟩
    · exact ⟨irqReq ||| bits, rfl⟩
  exact step _ _ _ (step _ _ _ (step _ _ _ (step _ _ _ ⟨c.irqReq, rfl⟩)))

theorem Cpu.sampleLines_pc (c : Cpu) : c.sampleLines.pc = c.pc := by
  obtain ⟨irqReq, sampled⟩ := c.sampleLines_request
  rw [sampled]

theorem Cpu.sampleLines_halted (c : Cpu) : c.sampleLines.halted = c.halted := by
  obtain ⟨irqReq, sampled⟩ := c.sampleLines_request
  rw [sampled]

/-- Without a service from outside the pushed status is that of the step's machine. -/
theorem Machine.atTrap_sameProgram {hook : SysHook} {source : TrapSource} (m : Machine)
    (unhooked : hook = none ∨ source.bit ≠ irqSyscall) :
    m.cpu.SameProgram (m.atTrap hook source).cpu := by
  have sampled : m.atTrap hook source = m.beginStep.sampled := by
    unfold Machine.atTrap
    rcases unhooked with rfl | other
    · dsimp only
      split <;> rfl
    · exact if_neg other
  have stack := m.beginStep.cpu.sampleLines_sameStack
  rw [sampled]
  exact ⟨m.beginStep.cpu.sampleLines_pc, stack.fcw, stack.registers, stack.nspseg, stack.nspoff⟩

/-- An IRET in the place of the handler gives the interrupted program its program
counter, its flag and control word and all its registers back, whatever trap or
interrupt came and in whatever mode. -/
theorem iret_restores (hook : SysHook) (fuel fuel' : Nat) {m entered : Machine}
    {source : TrapSource} (taken : m.beginStep.sampled.cpu.trapSource = some source)
    (internal : (m.atTrap hook source).cpu.InternalPc)
    (returnable : Returnable (m.atTrap hook source) source)
    (trapped : cpuStep hook fuel m = some entered)
    (quiet : entered.beginStep.sampled.cpu.trapSource = none) :
    ∃ r, cpuStep hook fuel' entered = some r ∧
      (m.atTrap hook source).cpu.SameProgram r.cpu ∧
      (hook = none ∨ source.bit ≠ irqSyscall → m.cpu.SameProgram r.cpu) := by
  rw [cpuStep_trap taken fuel] at trapped
  obtain rfl := Option.some.inj trapped
  obtain ⟨framed, bus, awake, pc⟩ := returnable.enterTrap
  let before := (enterTrap source (m.atTrap hook source)).2.beginStep.sampled
  have stack := (enterTrap source (m.atTrap hook source)).2.beginStep.cpu.sampleLines_sameStack
  have framedBefore : Framed (m.atTrap hook source)
      ((m.atTrap hook source).cpu.entering.moveSystem (-8)) before :=
    framed.of_same framed.system framed.seg
      (framed.shown.of_fields stack.registers stack.fcw stack.nspseg stack.nspoff)
      (Mmu.SameMap.refl _) fun r _ _ => congrFun stack.registers r
  have pcBefore : before.cpu.pc = (m.atTrap hook source).handlerPc source :=
    (Cpu.sampleLines_pc _).trans pc
  have busBefore : before.bus = (m.atTrap hook source).frameBus source := bus
  obtain ⟨w, after, fetched, kind, framedAfter, sameBus, calm, single⟩ :=
    framedBefore.fetchDecode
      (by rw [pcBefore, busBefore, returnable.word_kept returnable.clearHandler, returnable.iret])
      (by rw [pcBefore, returnable.fetchable])
  obtain ⟨r, returns, back⟩ := returnable.runInstruction framedAfter (sameBus.trans busBefore) calm
    single kind fuel'
  have step : cpuStep hook fuel' (enterTrap source (m.atTrap hook source)).2 = some r := by
    have halted : before.cpu.halted = false := (Cpu.sampleLines_halted _).trans awake
    unfold cpuStep
    rw [handleInterrupts_idle hook quiet]
    dsimp only
    rw [if_neg (by rw [halted]; exact Bool.false_ne_true)]
    unfold stepInstruction
    rw [fetched]
    exact returns
  have same := back.sameProgram internal
  refine ⟨r, step, same, fun unhooked => ?_⟩
  have start : m.cpu.SameProgram (m.atTrap hook source).cpu := m.atTrap_sameProgram unhooked
  exact ⟨same.pc.trans start.pc, same.fcw.trans start.fcw,
    same.registers.trans start.registers, same.nspseg.trans start.nspseg,
    same.nspoff.trans start.nspoff⟩

/-- Nothing is pending without a request or a line. -/
theorem Cpu.trapSource_calm {c : Cpu} (requests : c.irqReq = 0) (nmi : c.nmiLine = false)
    (segt : c.segtLine = false) (nvi : c.nviLine = false) (vi : c.viLine = false) :
    c.sampleLines.trapSource = none := by
  have sampled : c.sampleLines = c := by
    unfold sampleLines
    simp [nmi, segt, nvi, vi]
  rw [sampled, trapSource, requests]
  rfl

/-- A normal-mode program in segment 4 with an NMI pending; the handler in segment 2
begins with IRET, and the system stack is in segment 3. -/
def interrupted : Machine :=
  { (default : Machine) with
    cpu := { (default : Cpu) with
      pc := 0x040010, psap := 0x010000, nspseg := 0x0300, nspoff := 0x1000, irqReq := irqNmi }
    bus := { (default : Bus) with
      flatMem := true
      flatMaxseg := 0xFF
      ram := fun a =>
        if a = 0x01002A then 0xC0 else if a = 0x01002C then 0x02
        else if a = 0x020000 then 0x7B else 0 } }

/-- The NMI. -/
def nmiSource : TrapSource := ⟨irqNmi, 0x14, 0⟩

/-- The unit of that machine does not translate. -/
theorem interrupted_system (kind : Access) (a : Long) :
    interrupted.mmu.system kind a = (identityAddr (segOf a) (offOf a), false) := rfl

/-- All of its memory is RAM. -/
theorem interrupted_isRam (a : Long) : interrupted.bus.isRamWord a = true := by
  have mapped : interrupted.bus.isRamWord a = decide (busAddress a >>> 16 ≤ 0xFF) := rfl
  rw [mapped, decide_eq_true_eq, BitVec.le_def, BitVec.toNat_ushiftRight, busAddress_toNat,
    Nat.shiftRight_eq_div_pow]
  have last : (0xFF : Long).toNat = 0xFF := rfl
  omega

theorem interrupted_frame :
    frameSlots.map interrupted.slotPhys = [0x030FFC, 0x030FFE, 0x030FFA, 0x030FF8] := by
  have slots : frameSlots.map interrupted.cpu.banked.slot =
      [0x030FFC, 0x030FFE, 0x030FFA, 0x030FF8] := by decide
  have places : frameSlots.map interrupted.slotPhys =
      (frameSlots.map interrupted.cpu.banked.slot).map fun a => identityAddr (segOf a) (offOf a) :=
    rfl
  rw [places, slots]
  decide

theorem interrupted_clear {kind : Access} {a : Long} (phys : identityAddr (segOf a) (offOf a) = a)
    (apart : ([0x030FFC, 0x030FFE, 0x030FFA, 0x030FF8] : List Long).all (wordsApart a) = true) :
    interrupted.ClearOfFrame kind a := by
  intro n slot
  rw [interrupted_system, phys]
  exact List.all_eq_true.mp apart _ (interrupted_frame ▸ List.mem_map_of_mem slot)

theorem interrupted_returnable : Returnable interrupted nmiSource := by
  have status : interrupted.cpu.slotFcw nmiSource = 0x01002A := by decide
  have segment : interrupted.cpu.slotSegment nmiSource = 0x01002C := by decide
  have offset : interrupted.cpu.slotOffset nmiSource = 0x01002E := by decide
  have fcw : interrupted.handlerFcw nmiSource = 0xC000 := by
    rw [Machine.handlerFcw, status]
    decide
  have target : interrupted.handlerPc nmiSource = 0x020000 := by
    rw [Machine.handlerPc, segment, offset]
    decide
  constructor
  case permitted => exact fun _ _ => rfl
  case inRam => exact fun n _ => interrupted_isRam _
  case distinct =>
    have apart : ([0x030FFC, 0x030FFE, 0x030FFA, 0x030FF8] : List Long).Pairwise
        fun p q => wordsApart p q = true := by decide
    rw [← interrupted_frame] at apart
    exact List.pairwise_map.mp apart
  case clearFcw =>
    rw [status]
    exact interrupted_clear (by decide) (by decide)
  case clearSegment =>
    rw [segment]
    exact interrupted_clear (by decide) (by decide)
  case clearOffset =>
    rw [offset]
    exact interrupted_clear (by decide) (by decide)
  case clearHandler =>
    rw [target]
    exact interrupted_clear (by decide) (by decide)
  case canonical => decide
  case toSystem =>
    rw [fcw]
    decide
  case toSeg =>
    rw [fcw]
    decide
  case fetchable => rfl
  case iret =>
    rw [target]
    decide

/-- The entry and the return on that machine. -/
theorem iret_restores_nmi :
    ∃ r, cpuStep none 0 (enterTrap nmiSource (interrupted.atTrap none nmiSource)).2 = some r ∧
      interrupted.cpu.SameProgram r.cpu := by
  have same : interrupted.atTrap none nmiSource = interrupted := rfl
  have taken : interrupted.beginStep.sampled.cpu.trapSource = some nmiSource := rfl
  have requests := enterTrap_requests nmiSource interrupted
  have quiet : (enterTrap nmiSource
      (interrupted.atTrap none nmiSource)).2.beginStep.sampled.cpu.trapSource = none := by
    rw [same]
    exact Cpu.trapSource_calm requests.irqReq requests.nmiLine requests.segtLine requests.nviLine
      requests.viLine
  obtain ⟨r, returns, -, restored⟩ := iret_restores none 0 0 taken (rfl : _ &&& _ = _)
    (same ▸ interrupted_returnable) (cpuStep_trap taken 0) quiet
  exact ⟨r, returns, restored (.inl rfl)⟩

end C900
