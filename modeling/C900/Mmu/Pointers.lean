import C900.Bus.Memory
import C900.Mmu.Cache

/-!
# The descriptor pointers

The descriptor commands reach the bytes of the descriptors one at a time, through SAR and DSC. Reads
and writes move the two in the same way, so the bytes that a sequence of commands has written come
back when it is issued again as reads.
-/

namespace C900

/-! ## The bytes of a descriptor -/

/-- The bytes of a descriptor, in the order in which DSC counts them. -/
def MmuDesc.byte (d : MmuDesc) (which : BitVec 2) : Byte :=
  if which = 0 then hiByte d.base
  else if which = 1 then loByte d.base
  else if which = 2 then d.limit
  else d.attr

/-- The byte at a place: the descriptor and the byte in it. -/
def Mmu.byteAt (u : Mmu) (place : BitVec 6 × BitVec 2) : Byte := (u.desc place.1).byte place.2

theorem lowMask_bit : ∀ i < 16, (0x00FF : Word).getLsbD i = decide (i < 8) := by decide

theorem highMask_bit : ∀ i < 16, (0xFF00 : Word).getLsbD i = decide (8 ≤ i) := by decide

/-- The low byte of a word, masked. -/
theorem and_lowMask (v : Word) : v &&& 0x00FF = (loByte v).setWidth 16 := by
  refine BitVec.eq_of_getLsbD_eq fun i bound => ?_
  rw [BitVec.getLsbD_and, lowMask_bit i bound, BitVec.getLsbD_setWidth, loByte,
    BitVec.getLsbD_setWidth, decide_eq_true bound, Bool.true_and, Bool.and_comm]

/-- A new high byte. -/
theorem or_highByte (base : Word) (v : Byte) :
    (base &&& (0x00FF : Word)) ||| (v.setWidth 16 <<< 8) = v ++ loByte base := by
  refine BitVec.eq_of_getLsbD_eq fun i bound => ?_
  rw [BitVec.getLsbD_or, BitVec.getLsbD_and, lowMask_bit i bound, BitVec.getLsbD_shiftLeft,
    BitVec.getLsbD_setWidth, BitVec.getLsbD_append, loByte, BitVec.getLsbD_setWidth]
  by_cases low : i < 8
  · simp [low]
  · have inside : i - 8 < 16 := by omega
    simp [low, bound, inside]

/-- A new low byte. -/
theorem or_lowByte (base : Word) (v : Byte) :
    (base &&& (0xFF00 : Word)) ||| v.setWidth 16 = hiByte base ++ v := by
  refine BitVec.eq_of_getLsbD_eq fun i bound => ?_
  rw [BitVec.getLsbD_or, BitVec.getLsbD_and, highMask_bit i bound, BitVec.getLsbD_setWidth,
    BitVec.getLsbD_append, hiByte, BitVec.getLsbD_setWidth, BitVec.getLsbD_ushiftRight]
  by_cases low : i < 8
  · simp [low, bound, Nat.not_le.mpr low]
  · have inside : i - 8 < 8 := by omega
    have back : 8 + (i - 8) = i := by omega
    simp [low, bound, inside, back, Nat.not_lt.mp low]

theorem which_cases : ∀ which : BitVec 2, which = 0 ∨ which = 1 ∨ which = 2 ∨ which = 3 := by
  decide

theorem readDescByte_eq (u : Mmu) (which : BitVec 2) :
    readDescByte u (which.setWidth 8) = (u.byteAt (segIndex u.sar, which)).setWidth 16 := by
  obtain rfl | rfl | rfl | rfl := which_cases which
  · exact and_lowMask _
  · exact and_lowMask _
  · rfl
  · rfl

/-- The descriptor with one byte exchanged, as `write_desc_byte` does it. -/
theorem writeDescByte_eq (u : Mmu) (which : BitVec 2) (v : Byte) :
    let d := u.desc (segIndex u.sar)
    writeDescByte u (which.setWidth 8) v = u.setDesc (segIndex u.sar)
      (if which = 0 then { d with base := v ++ loByte d.base }
       else if which = 1 then { d with base := hiByte d.base ++ v }
       else if which = 2 then { d with limit := v }
       else { d with attr := v }) := by
  intro d
  obtain rfl | rfl | rfl | rfl := which_cases which
  · rw [if_pos rfl, ← or_highByte]
    rfl
  · rw [if_neg (by decide), if_pos rfl, ← or_lowByte]
    rfl
  · rfl
  · rfl

/-- A written byte takes its place and leaves the others. -/
theorem writeDescByte_byteAt (u : Mmu) (which : BitVec 2) (v : Byte) :
    (writeDescByte u (which.setWidth 8) v).byteAt =
      Function.update u.byteAt (segIndex u.sar, which) v := by
  funext ⟨seg, other⟩
  rw [writeDescByte_eq]
  by_cases same : seg = segIndex u.sar
  · subst same
    obtain rfl | rfl | rfl | rfl := which_cases which <;>
      obtain rfl | rfl | rfl | rfl := which_cases other <;>
        simp [Mmu.byteAt, MmuDesc.byte, hiByte_append, loByte_append]
  · have apart : ((seg, other) : BitVec 6 × BitVec 2) ≠ (segIndex u.sar, which) :=
      fun equal => same (congrArg Prod.fst equal)
    rw [Function.update_of_ne apart]
    simp only [Mmu.byteAt, Mmu.setDesc_desc, Function.update_of_ne same]

/-! ## The pointers -/

/-- SAR and DSC. -/
structure DescPointer where
  sar : Byte
  dsc : Byte
deriving DecidableEq

namespace DescPointer

/-- The descriptor that the stepping form of a command goes on to. -/
def next (p : DescPointer) (inc : Bool) : Byte := if inc then (p.sar + 1) &&& 0x3F else p.sar

/-- The byte that a command reaches: of the base the one that DSC selects, the limit, the attributes
or any byte that DSC selects. -/
def which (p : DescPointer) (cmd : Byte) : BitVec 2 :=
  if cmd &&& 0x03 = 0 then (p.dsc &&& 1).setWidth 2
  else if cmd &&& 0x03 = 1 then 2
  else if cmd &&& 0x03 = 2 then 3
  else p.dsc.setWidth 2

/-- The place that a command reaches. -/
def place (p : DescPointer) (cmd : Byte) : BitVec 6 × BitVec 2 := (segIndex p.sar, p.which cmd)

/-- The pointers behind a command. -/
def step (p : DescPointer) (cmd : Byte) : DescPointer :=
  let inc := cmd &&& 0x04 != 0
  if cmd &&& 0x03 = 0 then
    if p.dsc &&& 1 == 1 then ⟨p.next inc, 0⟩ else ⟨p.sar, 1⟩
  else if cmd &&& 0x03 = 3 then
    let nd := (p.dsc + 1) &&& 3
    ⟨p.next (nd == 0 && inc), nd⟩
  else ⟨p.next inc, p.dsc⟩

/-- The places that a sequence of commands reaches. -/
def places (p : DescPointer) : List Byte → List (BitVec 6 × BitVec 2)
  | [] => []
  | cmd :: rest => p.place cmd :: (p.step cmd).places rest

/-- The pointers behind a sequence of commands. -/
def run (p : DescPointer) (cmds : List Byte) : DescPointer := cmds.foldl step p

/-- SAR counts 64 descriptors and DSC four bytes. -/
structure Bounded (p : DescPointer) : Prop where
  sar : p.sar < 64
  dsc : p.dsc < 4

end DescPointer

def Mmu.pointer (u : Mmu) : DescPointer := ⟨u.sar, u.dsc⟩

/-- A command that accesses a descriptor. -/
def IsDescCommand (cmd : Byte) : Prop := 0x08 ≤ cmd ∧ cmd ≤ 0x0F

instance : DecidablePred IsDescCommand := fun _ => inferInstanceAs (Decidable (_ ∧ _))

theorem IsDescCommand.cases : ∀ cmd : Byte, IsDescCommand cmd →
    cmd = 0x08 ∨ cmd = 0x09 ∨ cmd = 0x0A ∨ cmd = 0x0B ∨
      cmd = 0x0C ∨ cmd = 0x0D ∨ cmd = 0x0E ∨ cmd = 0x0F := by
  decide

/-- Masked to what it selects, DSC is the number of a byte. -/
theorem dsc_base (dsc : Byte) : dsc &&& 1 = ((dsc &&& 1).setWidth 2 : BitVec 2).setWidth 8 := by
  revert dsc
  decide

theorem dsc_full (dsc : Byte) : dsc &&& 3 = (dsc.setWidth 2 : BitVec 2).setWidth 8 := by
  revert dsc
  decide

/-- The pointer movement that reads and writes share. -/
def Mmu.advance (u : Mmu) (cmd : Byte) : Mmu :=
  let inc := cmd &&& 0x04 != 0
  if cmd &&& 0x03 = 0 then u.stepBase inc
  else if cmd &&& 0x03 = 3 then u.stepFull inc
  else u.stepSar inc

theorem mmuCmdRead_desc (u : Mmu) {cmd : Byte} (command : IsDescCommand cmd) :
    mmuCmdRead u cmd = (readDescByte u ((u.pointer.which cmd).setWidth 8), u.advance cmd) := by
  have base : (u.dsc &&& 1 : Byte) = _ := dsc_base u.dsc
  have full : (u.dsc &&& 3 : Byte) = _ := dsc_full u.dsc
  obtain rfl | rfl | rfl | rfl | rfl | rfl | rfl | rfl := IsDescCommand.cases cmd command
  · exact congrArg (fun which => (readDescByte u which, u.stepBase false)) base
  · rfl
  · rfl
  · exact congrArg (fun which => (readDescByte u which, u.stepFull false)) full
  · exact congrArg (fun which => (readDescByte u which, u.stepBase true)) base
  · rfl
  · rfl
  · exact congrArg (fun which => (readDescByte u which, u.stepFull true)) full

theorem mmuCmdWrite_desc (u : Mmu) {cmd : Byte} (command : IsDescCommand cmd) (data : Byte) :
    mmuCmdWrite u cmd data = mmuRefreshFast
      ((writeDescByte u ((u.pointer.which cmd).setWidth 8) data).advance cmd) (u.sar &&& 0x3F) := by
  have base : (u.dsc &&& 1 : Byte) = _ := dsc_base u.dsc
  have full : (u.dsc &&& 3 : Byte) = _ := dsc_full u.dsc
  have written : ∀ {a b : Byte}, a = b → ∀ step : Mmu → Mmu,
      mmuRefreshFast (step (writeDescByte u a data)) (u.sar &&& 0x3F) =
        mmuRefreshFast (step (writeDescByte u b data)) (u.sar &&& 0x3F) := by
    rintro a b rfl step
    rfl
  obtain rfl | rfl | rfl | rfl | rfl | rfl | rfl | rfl := IsDescCommand.cases cmd command
  · exact written base (·.stepBase false)
  · rfl
  · rfl
  · exact written full (·.stepFull false)
  · exact written base (·.stepBase true)
  · rfl
  · rfl
  · exact written full (·.stepFull true)

theorem advance_desc (u : Mmu) (cmd : Byte) : (u.advance cmd).desc = u.desc := by
  unfold Mmu.advance
  split_ifs
  · exact (u.stepBase_keeps _).1
  · exact (u.stepFull_keeps _).1
  · exact u.stepSar_desc _

theorem stepSar_pointer (u : Mmu) (inc : Bool) :
    (u.stepSar inc).pointer = ⟨u.pointer.next inc, u.dsc⟩ := by
  cases inc <;> rfl

theorem advance_pointer (u : Mmu) (cmd : Byte) : (u.advance cmd).pointer = u.pointer.step cmd := by
  unfold Mmu.advance DescPointer.step
  generalize (cmd &&& 0x04 != 0) = inc
  dsimp only
  split_ifs with base low full
  · rw [Mmu.stepBase, if_pos (show (u.dsc &&& 1 == 1) = true from low), stepSar_pointer]
    rfl
  · rw [Mmu.stepBase, if_neg (show ¬(u.dsc &&& 1 == 1) = true from low)]
    rfl
  · rw [Mmu.stepFull]
    exact congrArg (fun p : DescPointer => (⟨p.sar, (u.dsc + 1) &&& 3⟩ : DescPointer))
      (stepSar_pointer u _)
  · exact stepSar_pointer u inc

/-- A command as a read: it returns the byte it reaches, and moves the pointers. -/
theorem mmuCmdRead_spec (u : Mmu) {cmd : Byte} (command : IsDescCommand cmd) :
    (mmuCmdRead u cmd).1 = (u.byteAt (u.pointer.place cmd)).setWidth 16 ∧
      (mmuCmdRead u cmd).2.pointer = u.pointer.step cmd ∧
      (mmuCmdRead u cmd).2.byteAt = u.byteAt := by
  rw [mmuCmdRead_desc u command]
  refine ⟨readDescByte_eq u _, advance_pointer u cmd, ?_⟩
  funext place
  simp only [Mmu.byteAt, advance_desc]

/-- A command as a write: it stores the byte where the read finds it, and moves the pointers. -/
theorem mmuCmdWrite_spec (u : Mmu) {cmd : Byte} (command : IsDescCommand cmd) (data : Byte) :
    (mmuCmdWrite u cmd data).byteAt = Function.update u.byteAt (u.pointer.place cmd) data ∧
      (mmuCmdWrite u cmd data).pointer = u.pointer.step cmd := by
  rw [mmuCmdWrite_desc u command]
  constructor
  · have written := writeDescByte_byteAt u (u.pointer.which cmd) data
    rw [DescPointer.place, show segIndex u.pointer.sar = segIndex u.sar from rfl, ← written]
    funext place
    simp only [Mmu.byteAt, mmuRefreshFast_desc, advance_desc]
  · exact advance_pointer _ cmd

/-! ## Bounds -/

theorem and_lt (x : Byte) : x &&& 0x3F < 64 := by
  revert x
  decide

theorem DescPointer.Bounded.step {p : DescPointer} (bounded : p.Bounded) (cmd : Byte) :
    (p.step cmd).Bounded := by
  have sar : ∀ inc, p.next inc < 64 := by
    intro inc
    cases inc with
    | false => exact bounded.sar
    | true => exact and_lt _
  have counts : (p.dsc + 1) &&& 3 < 4 := by
    have all : ∀ x : Byte, (x + 1) &&& 3 < 4 := by decide
    exact all _
  unfold DescPointer.step
  dsimp only
  split_ifs
  · exact ⟨sar _, show (0 : Byte) < 4 by decide⟩
  · exact ⟨bounded.sar, show (1 : Byte) < 4 by decide⟩
  · exact ⟨sar _, counts⟩
  · exact ⟨sar _, bounded.dsc⟩

theorem DescPointer.Bounded.run {p : DescPointer} (bounded : p.Bounded) (cmds : List Byte) :
    (p.run cmds).Bounded := by
  induction cmds generalizing p with
  | nil => exact bounded
  | cons cmd rest inductionHypothesis => exact inductionHypothesis (bounded.step cmd)

theorem isDescCommand_iff {cmd : Byte} : IsDescCommand cmd ↔ 8 ≤ cmd.toNat ∧ cmd.toNat ≤ 15 := Iff.rfl

theorem forSegs_pointer {body : Mmu → Byte → Mmu} (u : Mmu)
    (kept : ∀ v i, (body v i).pointer = v.pointer) : (forSegs body u).pointer = u.pointer := by
  unfold forSegs
  refine List.foldlRecOn (motive := fun v : Mmu => v.pointer = u.pointer) _ _ rfl fun v same i _ => ?_
  exact (kept _ _).trans same

/-- Every command keeps the pointers in their bounds. -/
theorem mmuCmdWrite_bounded {u : Mmu} (bounded : u.pointer.Bounded) (cmd data : Byte) :
    (mmuCmdWrite u cmd data).pointer.Bounded := by
  by_cases command : IsDescCommand cmd
  · rw [(mmuCmdWrite_spec u command data).2]
    exact bounded.step cmd
  · rw [isDescCommand_iff] at command
    unfold mmuCmdWrite
    split
    case h_2 => exact ⟨and_lt data, show (0 : Byte) < 4 by decide⟩
    case h_3 =>
      have counts : ∀ x : Byte, x &&& 3 < 4 := by decide
      exact ⟨bounded.sar, counts data⟩
    case h_15 | h_16 => exact (forSegs_pointer u fun _ _ => rfl) ▸ bounded
    case h_1 | h_12 | h_13 | h_14 | h_17 => exact bounded
    all_goals omega

theorem mmuCmdRead_bounded {u : Mmu} (bounded : u.pointer.Bounded) (cmd : Byte) :
    (mmuCmdRead u cmd).2.pointer.Bounded := by
  by_cases command : IsDescCommand cmd
  · rw [(mmuCmdRead_spec u command).2.1]
    exact bounded.step cmd
  · rw [isDescCommand_iff] at command
    unfold mmuCmdRead
    split
    case h_1 | h_2 | h_3 => exact bounded
    all_goals first | exact bounded | omega

theorem latchViol_pointer (u : Mmu) (viol sn : Byte) (off : Word) (w n : Bool) (st : Byte)
    (suppress : Bool) : (latchViol u viol sn off w n st suppress).pointer = u.pointer := by
  unfold latchViol
  dsimp only
  split_ifs <;> rfl

theorem protectionLadder_pointer (u : Mmu) (sn : Byte) (off : Word) (w n f : Bool) :
    (protectionLadder u sn off w n f).2.2.pointer = u.pointer := by
  dsimp only [protectionLadder]
  cases ladderViol (u.desc (segIndex sn)) ((off >>> 8).setWidth 8) w n f with
  | some viol => exact latchViol_pointer ..
  | none =>
    dsimp only
    split
    · exact latchViol_pointer ..
    · rfl

/-- A translation does not move the pointers. -/
theorem mmuTranslate_pointer (u : Mmu) (sn : Byte) (off : Word) (w n f : Bool) :
    (mmuTranslate u sn off w n f).2.2.pointer = u.pointer := by
  unfold mmuTranslate
  dsimp only
  split_ifs
  · rfl
  · rfl
  · exact protectionLadder_pointer u sn off w n f

theorem mmuReset_pointer (u : Mmu) : (mmuReset u).pointer = ⟨0, 0⟩ :=
  forSegs_pointer _ fun _ _ => rfl

/-- From reset on, SAR stays below 64 and DSC below 4. -/
theorem mmuRun_bounded (u : Mmu) (ops : List MmuOp) : (mmuRun u ops).pointer.Bounded := by
  refine List.foldlRecOn (motive := fun v : Mmu => v.pointer.Bounded) _ _ ?_ fun v bounded op _ => ?_
  · rw [mmuReset_pointer]
    exact ⟨show (0 : Byte) < 64 by decide, show (0 : Byte) < 4 by decide⟩
  · cases op with
    | cmdWrite cmd data => exact mmuCmdWrite_bounded bounded cmd data
    | cmdRead cmd => exact mmuCmdRead_bounded bounded cmd
    | translate sn off w n f => exact (mmuTranslate_pointer v sn off w n f).symm ▸ bounded

/-! ## Writing and reading back -/

/-- Descriptor writes, each a command and its data. -/
def mmuWrites (u : Mmu) (writes : List (Byte × Byte)) : Mmu :=
  writes.foldl (fun u write => mmuCmdWrite u write.1 write.2) u

/-- The data that a sequence of commands returns as reads. -/
def mmuReads (u : Mmu) : List Byte → List Word × Mmu
  | [] => ([], u)
  | cmd :: rest =>
    let (v, u) := mmuCmdRead u cmd
    let (vs, u) := mmuReads u rest
    (v :: vs, u)

theorem mmuWrites_pointer (u : Mmu) (writes : List (Byte × Byte))
    (commands : ∀ write ∈ writes, IsDescCommand write.1) :
    (mmuWrites u writes).pointer = u.pointer.run (writes.map Prod.fst) := by
  induction writes generalizing u with
  | nil => rfl
  | cons write rest inductionHypothesis =>
    obtain ⟨first, others⟩ := List.forall_mem_cons.mp commands
    have later := inductionHypothesis (mmuCmdWrite u write.1 write.2) others
    rw [(mmuCmdWrite_spec u first write.2).2] at later
    exact later

/-- A byte that no write reaches is unchanged. -/
theorem mmuWrites_other (u : Mmu) (writes : List (Byte × Byte))
    (commands : ∀ write ∈ writes, IsDescCommand write.1) {place : BitVec 6 × BitVec 2}
    (apart : place ∉ u.pointer.places (writes.map Prod.fst)) :
    (mmuWrites u writes).byteAt place = u.byteAt place := by
  induction writes generalizing u with
  | nil => rfl
  | cons write rest inductionHypothesis =>
    obtain ⟨first, others⟩ := List.forall_mem_cons.mp commands
    have now := List.ne_of_not_mem_cons apart
    have later := List.not_mem_of_not_mem_cons apart
    obtain ⟨stored, moved⟩ := mmuCmdWrite_spec u first write.2
    rw [← moved] at later
    have kept := inductionHypothesis (mmuCmdWrite u write.1 write.2) others later
    rw [stored, Function.update_of_ne now] at kept
    exact kept

/-- Behind the writes, each byte that they reached once holds its data. -/
theorem mmuWrites_byteAt (u : Mmu) (writes : List (Byte × Byte))
    (commands : ∀ write ∈ writes, IsDescCommand write.1)
    (once : (u.pointer.places (writes.map Prod.fst)).Nodup) :
    (u.pointer.places (writes.map Prod.fst)).map (mmuWrites u writes).byteAt =
      writes.map Prod.snd := by
  induction writes generalizing u with
  | nil => rfl
  | cons write rest inductionHypothesis =>
    obtain ⟨first, others⟩ := List.forall_mem_cons.mp commands
    obtain ⟨now, later⟩ := List.nodup_cons.mp once
    obtain ⟨stored, moved⟩ := mmuCmdWrite_spec u first write.2
    rw [← moved] at now later
    have head : (mmuWrites u (write :: rest)).byteAt (u.pointer.place write.1) = write.2 := by
      refine (mmuWrites_other (mmuCmdWrite u write.1 write.2) rest others now).trans ?_
      rw [stored, Function.update_self]
    have tail := inductionHypothesis (mmuCmdWrite u write.1 write.2) others later
    rw [moved] at tail
    exact List.cons_eq_cons.mpr ⟨head, tail⟩

/-- Reads return the bytes they reach, and change none. -/
theorem mmuReads_spec (u : Mmu) (cmds : List Byte) (commands : ∀ cmd ∈ cmds, IsDescCommand cmd) :
    (mmuReads u cmds).1 = (u.pointer.places cmds).map (fun place => (u.byteAt place).setWidth 16) ∧
      (mmuReads u cmds).2.pointer = u.pointer.run cmds ∧ (mmuReads u cmds).2.byteAt = u.byteAt := by
  induction cmds generalizing u with
  | nil => exact ⟨rfl, rfl, rfl⟩
  | cons cmd rest inductionHypothesis =>
    obtain ⟨first, others⟩ := List.forall_mem_cons.mp commands
    obtain ⟨value, moved, kept⟩ := mmuCmdRead_spec u first
    obtain ⟨values, pointer, bytes⟩ := inductionHypothesis (mmuCmdRead u cmd).2 others
    rw [moved, kept] at values
    rw [moved] at pointer
    exact ⟨List.cons_eq_cons.mpr ⟨value, values⟩, pointer, bytes.trans kept⟩

/-- SAR and DSC restored by the commands that load them. -/
theorem restored_spec {p : DescPointer} (bounded : p.Bounded) (u : Mmu) :
    let restored := mmuCmdWrite (mmuCmdWrite u 0x01 p.sar) 0x20 p.dsc
    restored.pointer = p ∧ restored.byteAt = u.byteAt := by
  have sar : ∀ x : Byte, x < 64 → x &&& 0x3F = x := by decide
  have dsc : ∀ x : Byte, x < 4 → x &&& 3 = x := by decide
  refine ⟨?_, rfl⟩
  show (⟨p.sar &&& 0x3F, p.dsc &&& 3⟩ : DescPointer) = p
  rw [sar _ bounded.sar, dsc _ bounded.dsc]

/-- Descriptor writes that reach each byte once at most are read back by the same commands, from the
same pointers and to the same pointers, and leave every other byte alone. -/
theorem mmuWrites_readBack (u : Mmu) (writes : List (Byte × Byte)) (bounded : u.pointer.Bounded)
    (commands : ∀ write ∈ writes, IsDescCommand write.1)
    (once : (u.pointer.places (writes.map Prod.fst)).Nodup) :
    let cmds := writes.map Prod.fst
    let written := mmuWrites u writes
    let restored := mmuCmdWrite (mmuCmdWrite written 0x01 u.sar) 0x20 u.dsc
    let back := mmuReads restored cmds
    (back.1 = writes.map fun write => write.2.setWidth 16) ∧
      (back.2.sar = written.sar ∧ back.2.dsc = written.dsc) ∧
      (∀ place ∉ u.pointer.places cmds,
        written.byteAt place = u.byteAt place ∧ back.2.byteAt place = u.byteAt place) ∧
      ∀ n, (mmuWrites u (writes.take n)).pointer.Bounded ∧
        (mmuReads restored (cmds.take n)).2.pointer.Bounded := by
  intro cmds written restored back
  have reads : ∀ cmd ∈ cmds, IsDescCommand cmd := by
    intro cmd listed
    obtain ⟨write, member, rfl⟩ := List.mem_map.mp listed
    exact commands write member
  have pointer := mmuWrites_pointer u writes commands
  have bytes := mmuWrites_byteAt u writes commands once
  have anchored : restored.pointer = u.pointer := (restored_spec bounded written).1
  have same : restored.byteAt = written.byteAt := (restored_spec bounded written).2
  obtain ⟨values, moved, kept⟩ := mmuReads_spec restored cmds reads
  have ends : back.2.pointer = written.pointer := by
    show (mmuReads restored cmds).2.pointer = _
    rw [moved, anchored, pointer]
  refine ⟨?_, ⟨congrArg DescPointer.sar ends, congrArg DescPointer.dsc ends⟩, ?_, ?_⟩
  · have data := congrArg (List.map fun v : Byte => (v.setWidth 16 : Word)) bytes
    rw [List.map_map, List.map_map] at data
    show (mmuReads restored cmds).1 = _
    rw [values, anchored, same]
    exact data
  · intro place apart
    have other := mmuWrites_other u writes commands apart
    refine ⟨other, ?_⟩
    show (mmuReads restored cmds).2.byteAt place = _
    rw [kept, same]
    exact other
  · intro n
    constructor
    · rw [mmuWrites_pointer u _ fun write taken => commands write (List.mem_of_mem_take taken)]
      exact bounded.run _
    · have early := mmuReads_spec restored (cmds.take n) fun cmd taken =>
        reads cmd (List.mem_of_mem_take taken)
      rw [early.2.1, anchored]
      exact bounded.run _

/-- A high base byte, then the low one, a limit and an attribute byte, across two descriptors. -/
def mixedWrites : List (Byte × Byte) := [(0x0F, 0x12), (0x0C, 0x34), (0x09, 0x56), (0x0E, 0x78)]

theorem mmuWrites_readBack_mixed :
    (mmuReads (mmuCmdWrite (mmuCmdWrite (mmuWrites default mixedWrites) 0x01 0) 0x20 0)
      (mixedWrites.map Prod.fst)).1 = [0x12, 0x34, 0x56, 0x78] := by
  have bounded : (default : Mmu).pointer.Bounded :=
    ⟨show (0 : Byte) < 64 by decide, show (0 : Byte) < 4 by decide⟩
  have commands : ∀ write ∈ mixedWrites, IsDescCommand write.1 :=
    List.forall_mem_cons.mpr ⟨by decide, List.forall_mem_cons.mpr ⟨by decide,
      List.forall_mem_cons.mpr ⟨by decide, List.forall_mem_cons.mpr ⟨by decide, nofun⟩⟩⟩⟩
  exact (mmuWrites_readBack default mixedWrites bounded commands (by decide)).1

end C900
