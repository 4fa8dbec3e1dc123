import C900.Emu.State
import C900.Logic.Loop
import Mathlib.Tactic.SplitIfs

/-!
# Physical memory

The memory half of `bus.c`: the boot ROM at address 0, one megabyte of DRAM in
segments 0x08 to 0x17, and an open bus everywhere else. With `flatMem` set every
segment up to `flatMaxseg` is RAM instead.
-/

namespace C900

def romSize : Long := 0x8000

/-- `PHYS_SIZE`, the number of bytes of `ram`. -/
def physSize : Nat := 2 ^ 24

/-- The 24 address lines of the bus. -/
def busAddress (a : Long) : Long := a &&& 0x00FFFFFF

/-- `seg_populated`: the segment of `a` holds motherboard DRAM. -/
def segPopulated (a : Long) : Bool :=
  let seg := (a >>> 16) &&& 0xFF
  decide (0x08 ≤ seg) && decide (seg ≤ 0x17)

/-- The segment byte of an address. -/
theorem segment_toNat (a : Long) : ((a >>> 16) &&& 0xFF).toNat = a.toNat / 2 ^ 16 % 2 ^ 8 := by
  rw [BitVec.toNat_and, BitVec.toNat_ushiftRight, Nat.shiftRight_eq_div_pow]
  exact Nat.and_two_pow_sub_one_eq_mod _ 8

theorem busAddress_toNat (a : Long) : (busAddress a).toNat = a.toNat % 2 ^ 24 := by
  rw [busAddress, BitVec.toNat_and]
  exact Nat.and_two_pow_sub_one_eq_mod _ 24

theorem segPopulated_iff (a : Long) :
    segPopulated a = true ↔ 8 ≤ a.toNat / 2 ^ 16 % 2 ^ 8 ∧ a.toNat / 2 ^ 16 % 2 ^ 8 ≤ 0x17 := by
  simp only [segPopulated, Bool.and_eq_true, decide_eq_true_eq, BitVec.le_def, segment_toNat]
  rfl

/-- The flat memory decode, `(a >> 16) <= flat_maxseg`. -/
def Bus.flatMapped (b : Bus) (a : Long) : Bool := decide (a >>> 16 ≤ b.flatMaxseg.setWidth 32)

/-- `m->ram[a] = v`. -/
def Bus.setRam (b : Bus) (a : Long) (v : Byte) : Bus :=
  { b with ram := Function.update b.ram a v }

/-- `phys_read8`. -/
def physRead8 (b : Bus) (a : Long) : Byte :=
  let a := busAddress a
  if b.flatMem then (if b.flatMapped a then b.ram a else 0xFF)
  else if a < romSize then b.rom a
  else if segPopulated a then b.ram a
  else 0xFF

/-- `phys_write8`. -/
def physWrite8 (b : Bus) (a : Long) (v : Byte) : Bus :=
  let a := busAddress a
  if b.flatMem then (if b.flatMapped a then b.setRam a v else b)
  else if a < romSize then b
  else if segPopulated a then b.setRam a v
  else b

/-- A byte store changes `ram` only. -/
theorem physWrite8_frame (b : Bus) (a : Long) (v : Byte) :
    ∃ ram, physWrite8 b a v = { b with ram := ram } := by
  unfold physWrite8 Bus.setRam
  dsimp only
  split_ifs <;> exact ⟨_, rfl⟩

@[simp] theorem physWrite8_flatMem (b : Bus) (a : Long) (v : Byte) :
    (physWrite8 b a v).flatMem = b.flatMem := by
  obtain ⟨ram, store⟩ := physWrite8_frame b a v
  rw [store]

@[simp] theorem physWrite8_overrun (b : Bus) (a : Long) (v : Byte) :
    (physWrite8 b a v).overrun = b.overrun := by
  obtain ⟨ram, store⟩ := physWrite8_frame b a v
  rw [store]

/-- Two bytes of an array as a word, high byte first. -/
def wordAt (array : Long → Byte) (a : Long) : Word := array a ++ array (a + 1)

/-- `phys_read16`. -/
def physRead16 (b : Bus) (a : Long) : Word :=
  let a := busAddress a
  if b.flatMem then (if b.flatMapped a then wordAt b.ram a else 0xFFFF)
  else if a < romSize - 1 then wordAt b.rom a
  else if segPopulated a then wordAt b.ram a
  else physRead8 b a ++ physRead8 b (a + 1)

/-- The high byte of a word. -/
def hiByte (v : Word) : Byte := (v >>> 8).setWidth 8

/-- The low byte of a word. -/
def loByte (v : Word) : Byte := v.setWidth 8

/-- `m->ram[a] = v >> 8; m->ram[a+1] = v`. -/
def Bus.setRamWord (b : Bus) (a : Long) (v : Word) : Bus :=
  (b.setRam a (hiByte v)).setRam (a + 1) (loByte v)

/-- `phys_write16`. -/
def physWrite16 (b : Bus) (a : Long) (v : Word) : Bus :=
  let a := busAddress a
  if b.flatMem then (if b.flatMapped a then b.setRamWord a v else b)
  else if a < romSize then b
  else if segPopulated a then b.setRamWord a v
  else physWrite8 (physWrite8 b a (hiByte v)) (a + 1) (loByte v)

theorem setRamWord_frame (b : Bus) (a : Long) (v : Word) :
    ∃ ram, b.setRamWord a v = { b with ram := ram } := ⟨_, rfl⟩

/-- A word store changes `ram` only. -/
theorem physWrite16_frame (b : Bus) (a : Long) (v : Word) :
    ∃ ram, physWrite16 b a v = { b with ram := ram } := by
  dsimp only [physWrite16]
  split_ifs
  · exact setRamWord_frame b _ v
  · exact ⟨_, rfl⟩
  · exact ⟨_, rfl⟩
  · exact setRamWord_frame b _ v
  · obtain ⟨first, high⟩ := physWrite8_frame b (busAddress a) (hiByte v)
    rw [high]
    exact physWrite8_frame _ _ _

/-! ## Words in RAM -/

/-- A word access at `a` reaches `ram`. -/
def Bus.isRamWord (b : Bus) (a : Long) : Bool :=
  if b.flatMem then b.flatMapped (busAddress a) else segPopulated (busAddress a)

/-- The words at two addresses have no byte in common. -/
def wordsApart (a b : Long) : Bool :=
  busAddress a != busAddress b && busAddress a != busAddress b + 1 &&
    busAddress a + 1 != busAddress b

/-- The ROM lies in segment 0. -/
theorem segPopulated_of_lt_romSize {a : Long} (inRom : a < romSize) : segPopulated a = false := by
  have segment : a >>> 16 = 0 := by
    apply BitVec.eq_of_toNat_eq
    rw [BitVec.toNat_ushiftRight, Nat.shiftRight_eq_div_pow]
    exact Nat.div_eq_of_lt (Nat.lt_trans (BitVec.lt_def.mp inRom) (by decide))
  rw [segPopulated, segment]
  rfl

/-- RAM is mapped when the memory is flat; on the board it is populated, and not behind the ROM. -/
theorem Bus.isRamWord_cases {b : Bus} {a : Long} (isRam : b.isRamWord a = true) :
    (b.flatMem = true ∧ b.flatMapped (busAddress a) = true) ∨
      (¬b.flatMem = true ∧ ¬busAddress a < romSize ∧ segPopulated (busAddress a) = true) := by
  unfold Bus.isRamWord at isRam
  by_cases flat : b.flatMem = true
  · rw [if_pos flat] at isRam
    exact .inl ⟨flat, isRam⟩
  · rw [if_neg flat] at isRam
    refine .inr ⟨flat, fun inRom => ?_, isRam⟩
    rw [segPopulated_of_lt_romSize inRom] at isRam
    exact Bool.false_ne_true isRam

theorem physRead8_ram {b : Bus} {a : Long} (isRam : b.isRamWord a = true) :
    physRead8 b a = b.ram (busAddress a) := by
  obtain ⟨flat, mapped⟩ | ⟨board, above, populated⟩ := Bus.isRamWord_cases isRam
  · rw [physRead8, if_pos flat, if_pos mapped]
  · rw [physRead8, if_neg board, if_neg above, if_pos populated]

theorem physWrite8_ram {b : Bus} {a : Long} (isRam : b.isRamWord a = true) (v : Byte) :
    physWrite8 b a v = b.setRam (busAddress a) v := by
  obtain ⟨flat, mapped⟩ | ⟨board, above, populated⟩ := Bus.isRamWord_cases isRam
  · rw [physWrite8, if_pos flat, if_pos mapped]
  · rw [physWrite8, if_neg board, if_neg above, if_pos populated]

theorem physWrite16_ram {b : Bus} {a : Long} (isRam : b.isRamWord a = true) (v : Word) :
    physWrite16 b a v = b.setRamWord (busAddress a) v := by
  obtain ⟨flat, mapped⟩ | ⟨board, above, populated⟩ := Bus.isRamWord_cases isRam
  · rw [physWrite16, if_pos flat, if_pos mapped]
  · rw [physWrite16, if_neg board, if_neg above, if_pos populated]

theorem physRead16_ram {b : Bus} {a : Long} (isRam : b.isRamWord a = true) :
    physRead16 b a = wordAt b.ram (busAddress a) := by
  obtain ⟨flat, mapped⟩ | ⟨board, above, populated⟩ := Bus.isRamWord_cases isRam
  · rw [physRead16, if_pos flat, if_pos mapped]
  · have high : ¬busAddress a < romSize - 1 := fun below =>
      above (BitVec.lt_def.mpr (Nat.lt_trans (BitVec.lt_def.mp below) (by decide)))
    rw [physRead16, if_neg board, if_neg high, if_pos populated]

theorem physWrite16_isRamWord (b : Bus) (a : Long) (v : Word) (c : Long) :
    (physWrite16 b a v).isRamWord c = b.isRamWord c := by
  obtain ⟨ram, store⟩ := physWrite16_frame b a v
  rw [store]
  rfl

theorem word_halves (v : Word) : hiByte v ++ loByte v = v := by
  apply BitVec.eq_of_getLsbD_eq
  intro i bound
  unfold hiByte loByte
  rw [BitVec.getLsbD_append]
  by_cases small : i < 8
  · simp [small]
  · have shifted : 8 + (i - 8) = i := by omega
    have inHigh : i - 8 < 8 := by omega
    simp [small, shifted, inHigh]

theorem hiByte_append (v w : Byte) : hiByte (v ++ w) = v := by
  refine BitVec.eq_of_getLsbD_eq fun i bound => ?_
  have above : ¬8 + i < 8 := by omega
  have index : 8 + i - 8 = i := by omega
  rw [hiByte, BitVec.getLsbD_setWidth, BitVec.getLsbD_ushiftRight, BitVec.getLsbD_append,
    if_neg above, index, decide_eq_true bound, Bool.true_and]

theorem loByte_append (v w : Byte) : loByte (v ++ w) = w := by
  refine BitVec.eq_of_getLsbD_eq fun i bound => ?_
  rw [loByte, BitVec.getLsbD_setWidth, BitVec.getLsbD_append, if_pos bound, decide_eq_true bound,
    Bool.true_and]

/-- A stored word is read back. -/
theorem physRead16_physWrite16 {b : Bus} {a : Long} (isRam : b.isRamWord a = true) (v : Word) :
    physRead16 (physWrite16 b a v) a = v := by
  have still : (physWrite16 b a v).isRamWord a = true := by rw [physWrite16_isRamWord, isRam]
  have next : busAddress a ≠ busAddress a + 1 := by
    intro same
    have values : (busAddress a).toNat = ((busAddress a).toNat + 1) % 2 ^ 32 :=
      congrArg BitVec.toNat same
    omega
  rw [physRead16_ram still, physWrite16_ram isRam]
  unfold wordAt Bus.setRamWord Bus.setRam
  dsimp only
  rw [Function.update_of_ne next, Function.update_self, Function.update_self, word_halves]

/-- A byte store leaves the other bytes alone. -/
theorem physRead8_setRam {b : Bus} {a c : Long} (other : busAddress c ≠ a) (v : Byte) :
    physRead8 (b.setRam a v) c = physRead8 b c := by
  unfold physRead8 Bus.setRam
  dsimp only
  rw [Function.update_of_ne other]
  rfl

/-- The byte behind an address of the bus, unless the bus wraps around. -/
theorem busAddress_next {a : Long} (next : busAddress (busAddress a + 1) ≠ busAddress a + 1) :
    busAddress (busAddress a + 1) = 0 := by
  have small : (busAddress a).toNat < 2 ^ 24 := by
    rw [busAddress_toNat]
    exact Nat.mod_lt _ (by decide)
  have step : (busAddress a + 1).toNat = (busAddress a).toNat + 1 := by
    rw [BitVec.toNat_add]
    exact Nat.mod_eq_of_lt (Nat.lt_of_le_of_lt small (by decide))
  by_cases last : (busAddress a).toNat + 1 = 2 ^ 24
  · apply BitVec.eq_of_toNat_eq
    rw [busAddress_toNat, step, last]
    rfl
  · refine absurd (BitVec.eq_of_toNat_eq ?_) next
    rw [busAddress_toNat, step]
    exact Nat.mod_eq_of_lt (by omega)

/-- A word store leaves the words apart from it alone. -/
theorem physRead16_physWrite16_apart {b : Bus} {a c : Long} (isRam : b.isRamWord a = true)
    (apart : wordsApart c a = true) (v : Word) :
    physRead16 (physWrite16 b a v) c = physRead16 b c := by
  simp only [wordsApart, Bool.and_eq_true, bne_iff_ne] at apart
  obtain ⟨⟨first, low⟩, high⟩ := apart
  have both : busAddress c + 1 ≠ busAddress a + 1 :=
    fun same => first ((BitVec.add_left_inj 1).mp same)
  have word : wordAt ((b.setRamWord (busAddress a) v).ram) (busAddress c) =
      wordAt b.ram (busAddress c) := by
    unfold wordAt Bus.setRamWord Bus.setRam
    dsimp only
    rw [Function.update_of_ne low, Function.update_of_ne first, Function.update_of_ne both,
      Function.update_of_ne high]
  have idempotent : busAddress (busAddress c) = busAddress c := by
    unfold busAddress
    rw [BitVec.and_assoc, BitVec.and_self]
  rw [physWrite16_ram isRam]
  unfold physRead16
  dsimp only
  rw [word]
  by_cases flat : b.flatMem = true
  · rw [if_pos flat]
    exact if_pos flat
  · have populated : segPopulated (busAddress a) = true := by
      rwa [Bus.isRamWord, if_neg flat] at isRam
    have small : (busAddress a).toNat < 2 ^ 24 := by
      rw [busAddress_toNat]
      exact Nat.mod_lt _ (by decide)
    have above := segPopulated_iff _ |>.mp populated
    have here : physRead8 (b.setRamWord (busAddress a) v) (busAddress c) =
        physRead8 b (busAddress c) := by
      unfold Bus.setRamWord
      rw [physRead8_setRam (idempotent.symm ▸ low), physRead8_setRam (idempotent.symm ▸ first)]
    have behind : physRead8 (b.setRamWord (busAddress a) v) (busAddress c + 1) =
        physRead8 b (busAddress c + 1) := by
      have apart : ∀ x : Long, busAddress c + 1 ≠ x → 0 < x.toNat →
          busAddress (busAddress c + 1) ≠ x := by
        intro x other positive same
        by_cases next : busAddress (busAddress c + 1) = busAddress c + 1
        · exact other (next.symm.trans same)
        · rw [busAddress_next next] at same
          rw [← same] at positive
          exact absurd positive (by decide)
      have step : (busAddress a + 1).toNat = (busAddress a).toNat + 1 := by
        rw [BitVec.toNat_add]
        exact Nat.mod_eq_of_lt (Nat.lt_of_le_of_lt small (by decide))
      unfold Bus.setRamWord
      rw [physRead8_setRam (apart _ both (by omega)), physRead8_setRam (apart _ high (by omega))]
    rw [here, behind]
    rfl

/-- The store of a list of words, first to last. -/
def Bus.storeWords (b : Bus) (words : List (Long × Word)) : Bus :=
  words.foldl (fun b word => physWrite16 b word.1 word.2) b

/-- Words apart from every stored one are left alone. -/
theorem physRead16_storeWords_apart {b : Bus} {words : List (Long × Word)} {c : Long}
    (isRam : ∀ word ∈ words, b.isRamWord word.1 = true)
    (apart : ∀ word ∈ words, wordsApart c word.1 = true) :
    physRead16 (b.storeWords words) c = physRead16 b c := by
  induction words generalizing b with
  | nil => rfl
  | cons word rest inductionHypothesis =>
    have still : ∀ other ∈ rest, (physWrite16 b word.1 word.2).isRamWord other.1 = true :=
      fun other member => by
        rw [physWrite16_isRamWord]
        exact isRam other (List.mem_cons_of_mem _ member)
    exact (inductionHypothesis still fun other member =>
      apart other (List.mem_cons_of_mem _ member)).trans
      (physRead16_physWrite16_apart (isRam _ List.mem_cons_self) (apart _ List.mem_cons_self) _)

/-- Words stored apart from each other are all read back. -/
theorem physRead16_storeWords {b : Bus} {words : List (Long × Word)}
    (isRam : ∀ word ∈ words, b.isRamWord word.1 = true)
    (apart : words.Pairwise fun earlier later => wordsApart earlier.1 later.1 = true)
    {word : Long × Word} (stored : word ∈ words) :
    physRead16 (b.storeWords words) word.1 = word.2 := by
  induction words generalizing b with
  | nil => exact absurd stored (List.not_mem_nil)
  | cons head rest inductionHypothesis =>
    obtain ⟨fromHead, amongRest⟩ := List.pairwise_cons.mp apart
    have still : ∀ other ∈ rest, (physWrite16 b head.1 head.2).isRamWord other.1 = true :=
      fun other member => by
        rw [physWrite16_isRamWord]
        exact isRam other (List.mem_cons_of_mem _ member)
    rcases List.mem_cons.mp stored with rfl | later
    · exact (physRead16_storeWords_apart still fromHead).trans
        (physRead16_physWrite16 (isRam _ List.mem_cons_self) _)
    · exact inductionHypothesis still amongRest later

/-! ## Block access -/

/-- `memcpy(m->ram + a, v, n)`, and `fread` or `memset` to the same place: the
array is indexed without the address decode. -/
def Bus.ramStore (b : Bus) (a : Long) (n : Nat) (v : Nat → Byte) : Bus :=
  forUpTo n (fun i b =>
    { b.setRam (a + BitVec.ofNat 32 i) (v i) with
      overrun := b.overrun || decide (physSize ≤ a.toNat + i) }) b

/-- The `n` bytes at `m->ram + a`, read without the address decode. -/
def Bus.ramLoad (b : Bus) (a : Long) (n : Nat) : Bus :=
  forUpTo n (fun i b =>
    { b with overrun := b.overrun || decide (physSize ≤ a.toNat + i) }) b

end C900
