import C900.Bus.Io

/-!
# Words and their bytes

The word accesses of `bus.c` decode the address of the high byte and take the low byte from
the same array. The byte accesses decode each address. `wordIsBytes_iff` tells where the
two agree.
-/

namespace C900

/-! ## Addresses -/

/-- The address of the low byte of a word, modulo the address space. -/
def nextByte (a : Long) : Long := busAddress (a + 1)

theorem busAddress_lt (a : Long) : (busAddress a).toNat < 2 ^ 24 := by
  rw [busAddress_toNat]
  exact Nat.mod_lt _ (by decide)

theorem busAddress_idem (a : Long) : busAddress (busAddress a) = busAddress a := by
  unfold busAddress
  rw [BitVec.and_assoc, BitVec.and_self]

theorem nextByte_toNat (a : Long) : (nextByte a).toNat = ((busAddress a).toNat + 1) % 2 ^ 24 := by
  rw [nextByte, busAddress_toNat, busAddress_toNat, BitVec.toNat_add]
  show (a.toNat + 1) % 2 ^ 32 % 2 ^ 24 = _
  omega

/-- The address behind a byte, seen from the bus. -/
theorem busAddress_succ (a : Long) : busAddress (busAddress a + 1) = nextByte a := by
  apply BitVec.eq_of_toNat_eq
  have small := busAddress_lt a
  rw [nextByte_toNat, busAddress_toNat, BitVec.toNat_add]
  show ((busAddress a).toNat + 1) % 2 ^ 32 % 2 ^ 24 = _
  omega

/-- Below the last address the low byte is the next element of the array. -/
theorem nextByte_inner {a : Long} (inner : (busAddress a).toNat ≠ 0xFFFFFF) :
    busAddress a + 1 = nextByte a := by
  apply BitVec.eq_of_toNat_eq
  have small := busAddress_lt a
  rw [nextByte_toNat, BitVec.toNat_add]
  show ((busAddress a).toNat + 1) % 2 ^ 32 = _
  omega

theorem nextByte_ne (a : Long) : nextByte a ≠ busAddress a := by
  intro same
  have small := busAddress_lt a
  have values := nextByte_toNat a
  rw [same] at values
  omega

theorem segPopulated_busAddress (a : Long) :
    segPopulated (busAddress a) = true ↔
      0x80000 ≤ (busAddress a).toNat ∧ (busAddress a).toNat ≤ 0x17FFFF := by
  have small := busAddress_lt a
  rw [segPopulated_iff]
  omega

theorem flatMapped_iff (b : Bus) (a : Long) :
    b.flatMapped (busAddress a) = true ↔ (busAddress a).toNat / 0x10000 ≤ b.flatMaxseg.toNat := by
  unfold Bus.flatMapped
  rw [decide_eq_true_eq, BitVec.le_def, BitVec.toNat_ushiftRight, Nat.shiftRight_eq_div_pow,
    BitVec.toNat_setWidth, Nat.mod_eq_of_lt (Nat.lt_of_lt_of_le b.flatMaxseg.isLt (by decide))]

/-! ## The two decodes -/

/-- The value of a word is that of its bytes. -/
theorem toNat_pair (x y : Byte) : (x ++ y).toNat = x.toNat * 256 + y.toNat := by
  rw [BitVec.toNat_append, ← Nat.shiftLeft_add_eq_or_of_lt y.isLt, Nat.shiftLeft_eq]

/-- A word access at an address does what two byte accesses do. -/
def WordIsBytes (b : Bus) (a : Long) : Prop :=
  (physRead16 b a).toNat = (physRead8 b a).toNat * 256 + (physRead8 b (nextByte a)).toNat ∧
    ∀ v, physWrite16 b a v = physWrite8 (physWrite8 b a (hiByte v)) (nextByte a) (loByte v)

/-- The high byte is the last one of the installed memory, or of the address space. -/
def Bus.Straddles (b : Bus) (a : Long) : Prop :=
  if b.flatMem then
    (busAddress a).toNat = 0xFFFFFF ∨ (busAddress a).toNat = b.flatMaxseg.toNat * 0x10000 + 0xFFFF
  else (busAddress a).toNat = 0x17FFFF

section Access

variable {b : Bus} {a : Long}

theorem nextByte_idem : busAddress (nextByte a) = nextByte a := busAddress_idem (a + 1)

theorem setRam_ram_of_ne {c : Long} (other : c ≠ a) (v : Byte) : (b.setRam a v).ram c = b.ram c :=
  Function.update_of_ne other ..

theorem physRead8_congr {c : Long} (same : busAddress a = busAddress c) :
    physRead8 b a = physRead8 b c := by
  rw [physRead8, physRead8, same]

theorem physWrite8_congr {c : Long} (same : busAddress a = busAddress c) (v : Byte) :
    physWrite8 b a v = physWrite8 b c v := by
  rw [physWrite8, physWrite8, same]

/-- A byte store outside of RAM does nothing. -/
theorem physWrite8_other (other : b.isRamWord a = false) (v : Byte) : physWrite8 b a v = b := by
  unfold Bus.isRamWord at other
  unfold physWrite8
  dsimp only
  split_ifs at other ⊢ <;> first | rfl | simp_all

theorem physWrite8_isRamWord (v : Byte) (c : Long) :
    (physWrite8 b a v).isRamWord c = b.isRamWord c := by
  obtain ⟨ram, store⟩ := physWrite8_frame b a v
  rw [store]
  rfl

/-- Where both bytes are RAM, and neighbours, a word access is one of both. -/
theorem wordIsBytes_ram (inner : (busAddress a).toNat ≠ 0xFFFFFF) (first : b.isRamWord a = true)
    (second : b.isRamWord (nextByte a) = true) : WordIsBytes b a := by
  have next := nextByte_inner inner
  refine ⟨?_, fun v => ?_⟩
  · rw [physRead16_ram first, physRead8_ram first, physRead8_ram second, wordAt, toNat_pair,
      nextByte_idem, next]
  · rw [physWrite16_ram first, physWrite8_ram first,
      physWrite8_ram (by rwa [← physWrite8_ram first, physWrite8_isRamWord]), nextByte_idem,
      Bus.setRamWord, next]

/-- With flat memory nothing answers at a word outside of the installed segments. -/
theorem wordIsBytes_flat (flat : b.flatMem = true) (first : b.isRamWord a = false)
    (second : b.isRamWord (nextByte a) = false) : WordIsBytes b a := by
  have unmapped : ∀ c, b.isRamWord c = false → ¬b.flatMapped (busAddress c) = true := by
    intro c other
    rw [Bus.isRamWord, if_pos flat] at other
    exact Bool.not_eq_true _ |>.mpr other
  have open_ : ∀ c, b.isRamWord c = false → physRead8 b c = 0xFF := by
    intro c other
    rw [physRead8]
    rw [if_pos flat, if_neg (unmapped c other)]
  refine ⟨?_, fun v => ?_⟩
  · rw [open_ a first, open_ _ second, physRead16]
    rw [if_pos flat, if_neg (unmapped a first)]
    rfl
  · rw [physWrite8_other first, physWrite8_other second, physWrite16]
    rw [if_pos flat, if_neg (unmapped a first)]

/-- On the board a word outside of RAM is accessed as its bytes. -/
theorem wordIsBytes_board (board : b.flatMem = false) (first : b.isRamWord a = false) :
    WordIsBytes b a := by
  have unflat : ¬b.flatMem = true := Bool.not_eq_true _ |>.mpr board
  have vacant : ¬segPopulated (busAddress a) = true := by
    rw [Bus.isRamWord, if_neg unflat] at first
    exact Bool.not_eq_true _ |>.mpr first
  have romByte : ∀ c, busAddress c < romSize → physRead8 b c = b.rom (busAddress c) := by
    intro c inRom
    rw [physRead8, if_neg unflat, if_pos inRom]
  have behind : busAddress (busAddress a + 1) = busAddress (nextByte a) :=
    (busAddress_succ a).trans nextByte_idem.symm
  refine ⟨?_, fun v => ?_⟩
  · rw [physRead16, if_neg unflat]
    by_cases inRom : busAddress a < romSize - 1
    · have bound : (busAddress a).toNat < 0x7FFF := BitVec.lt_def.mp inRom
      have next := nextByte_inner (a := a) (by omega)
      have after : (nextByte a).toNat < 0x8000 := by
        rw [nextByte_toNat]
        omega
      have low : busAddress (nextByte a) < romSize := nextByte_idem.symm ▸ BitVec.lt_def.mpr after
      rw [if_pos inRom, wordAt, toNat_pair, romByte a (BitVec.lt_def.mpr (Nat.lt_succ_of_lt bound)),
        romByte _ low, nextByte_idem, next]
    · rw [if_neg inRom, if_neg vacant, toNat_pair, physRead8_congr behind,
        physRead8_congr (busAddress_idem a)]
  · rw [physWrite16, if_neg unflat]
    by_cases inRom : busAddress a < romSize
    · have bound : (busAddress a).toNat < 0x8000 := BitVec.lt_def.mp inRom
      have above : b.isRamWord (nextByte a) = false := by
        rw [Bus.isRamWord, if_neg unflat, ← Bool.not_eq_true, nextByte, busAddress_idem,
          segPopulated_busAddress]
        have after := nextByte_toNat a
        rw [nextByte] at after
        omega
      rw [if_pos inRom, physWrite8_other first, physWrite8_other above]
    · rw [if_neg inRom, if_neg vacant, physWrite8_congr (busAddress_idem a), physWrite8_congr behind]

/-- A word store that does to the low byte what the byte store does not. -/
theorem not_wordIsBytes (differs : ∀ v,
    (physWrite16 b a v).ram (nextByte a) = loByte v ∧
      (physWrite8 (physWrite8 b a (hiByte v)) (nextByte a) (loByte v)).ram (nextByte a) =
        b.ram (nextByte a) ∨
    (physWrite16 b a v).ram (nextByte a) = b.ram (nextByte a) ∧
      (physWrite8 (physWrite8 b a (hiByte v)) (nextByte a) (loByte v)).ram (nextByte a) =
        loByte v) :
    ¬WordIsBytes b a := by
  intro right
  let v : Word := (0 : Byte) ++ ~~~b.ram (nextByte a)
  have low : loByte v = ~~~b.ram (nextByte a) := loByte_append _ _
  have same := congrArg (fun x => x.ram (nextByte a)) (right.2 v)
  have changed : ∀ x : Byte, ~~~x ≠ x := by decide
  rcases differs v with ⟨word, bytes⟩ | ⟨word, bytes⟩
  · exact changed _ (low.symm.trans (word.symm.trans (same.trans bytes)))
  · exact changed _ (low.symm.trans (bytes.symm.trans (same.symm.trans word)))

/-- A store on RAM whose low byte is in the array but not in the installed memory. -/
theorem not_wordIsBytes_end (inner : (busAddress a).toNat ≠ 0xFFFFFF) (first : b.isRamWord a = true)
    (second : b.isRamWord (nextByte a) = false) : ¬WordIsBytes b a := by
  refine not_wordIsBytes fun v => Or.inl ⟨?_, ?_⟩
  · rw [physWrite16_ram first, Bus.setRamWord, nextByte_inner inner]
    exact Function.update_self ..
  · rw [physWrite8_other (by rwa [physWrite8_isRamWord]), physWrite8_ram first]
    exact setRam_ram_of_ne (nextByte_ne a) _

/-- The last word of the flat address space does not wrap around. -/
theorem not_wordIsBytes_wrap (last : (busAddress a).toNat = 0xFFFFFF) (flat : b.flatMem = true) :
    ¬WordIsBytes b a := by
  have address : busAddress a = 0xFFFFFF := BitVec.eq_of_toNat_eq last
  have zero : nextByte a = 0 := by
    apply BitVec.eq_of_toNat_eq
    rw [nextByte_toNat, last]
    rfl
  have mapped : b.isRamWord (nextByte a) = true := by
    rw [Bus.isRamWord, if_pos flat, flatMapped_iff, nextByte_idem, zero]
    exact Nat.zero_le _
  refine not_wordIsBytes fun v => Or.inr ⟨?_, ?_⟩
  · by_cases first : b.isRamWord a = true
    · have low : (0 : Long) ≠ 0xFFFFFF + 1 := by decide
      have high : (0 : Long) ≠ 0xFFFFFF := by decide
      rw [physWrite16_ram first, Bus.setRamWord, zero, address]
      rw [setRam_ram_of_ne low, setRam_ram_of_ne high]
    · rw [Bus.isRamWord, if_pos flat] at first
      rw [physWrite16, if_pos flat, if_neg first]
  · rw [physWrite8_ram (by rwa [physWrite8_isRamWord]), nextByte_idem]
    exact Function.update_self ..

end Access

/-- A word access is one of its two bytes exactly if the word does not straddle the end of
the installed memory. -/
theorem wordIsBytes_iff (b : Bus) (a : Long) : WordIsBytes b a ↔ ¬b.Straddles a := by
  have small := busAddress_lt a
  have after := nextByte_toNat a
  unfold Bus.Straddles
  by_cases flat : b.flatMem = true
  · rw [if_pos flat]
    have here : b.isRamWord a = true ↔ (busAddress a).toNat / 0x10000 ≤ b.flatMaxseg.toNat := by
      rw [Bus.isRamWord, if_pos flat, flatMapped_iff]
    have next : b.isRamWord (nextByte a) = true ↔
        (nextByte a).toNat / 0x10000 ≤ b.flatMaxseg.toNat := by
      rw [Bus.isRamWord, if_pos flat, flatMapped_iff, nextByte_idem]
    by_cases last : (busAddress a).toNat = 0xFFFFFF
    · exact iff_of_false (not_wordIsBytes_wrap last flat) (fun apart => apart (Or.inl last))
    by_cases top : (busAddress a).toNat = b.flatMaxseg.toNat * 0x10000 + 0xFFFF
    · have first := here.mpr (by omega)
      have second : b.isRamWord (nextByte a) = false :=
        Bool.not_eq_true _ |>.mp (fun isRam => absurd (next.mp isRam) (by omega))
      exact iff_of_false (not_wordIsBytes_end last first second) (fun apart => apart (Or.inr top))
    refine iff_of_true ?_ (fun straddles => straddles.elim last top)
    by_cases isRam : b.isRamWord a = true
    · exact wordIsBytes_ram last isRam (next.mpr (by have := here.mp isRam; omega))
    · refine wordIsBytes_flat flat (Bool.not_eq_true _ |>.mp isRam) (Bool.not_eq_true _ |>.mp ?_)
      rw [here] at isRam
      rw [next]
      omega
  · rw [if_neg flat]
    have board : b.flatMem = false := Bool.not_eq_true _ |>.mp flat
    have here : b.isRamWord a = true ↔
        0x80000 ≤ (busAddress a).toNat ∧ (busAddress a).toNat ≤ 0x17FFFF := by
      rw [Bus.isRamWord, if_neg flat, segPopulated_busAddress]
    have next : b.isRamWord (nextByte a) = true ↔
        0x80000 ≤ (nextByte a).toNat ∧ (nextByte a).toNat ≤ 0x17FFFF := by
      rw [Bus.isRamWord, if_neg flat, segPopulated_busAddress, nextByte_idem]
    by_cases isRam : b.isRamWord a = true
    · have populated := here.mp isRam
      have inner : (busAddress a).toNat ≠ 0xFFFFFF := by omega
      by_cases top : (busAddress a).toNat = 0x17FFFF
      · have second : b.isRamWord (nextByte a) = false :=
          Bool.not_eq_true _ |>.mp (fun isRam => absurd (next.mp isRam) (by omega))
        exact iff_of_false (not_wordIsBytes_end inner isRam second) (fun apart => apart top)
      · exact iff_of_true (wordIsBytes_ram inner isRam (next.mpr (by omega))) top
    · refine iff_of_true (wordIsBytes_board board (Bool.not_eq_true _ |>.mp isRam)) fun top => ?_
      exact isRam (here.mpr (by omega))

/-- The word at the end of the motherboard memory takes its low byte from behind it. -/
theorem lastWord_differs :
    (physRead16 machineNew.bus 0x17FFFF = 0x0000 ∧ physRead8 machineNew.bus 0x17FFFF = 0x00 ∧
      physRead8 machineNew.bus 0x180000 = 0xFF) ∧ ¬∀ b a, WordIsBytes b a := by
  have word : physRead16 machineNew.bus 0x17FFFF = 0x0000 := by decide
  have high : physRead8 machineNew.bus 0x17FFFF = 0x00 := by decide
  have low : physRead8 machineNew.bus 0x180000 = 0xFF := by decide
  refine ⟨⟨word, high, low⟩, fun claimed => ?_⟩
  have value := (claimed machineNew.bus 0x17FFFF).1
  have next : nextByte 0x17FFFF = 0x180000 := by decide
  rw [next, word, high, low] at value
  exact absurd value (by decide)

end C900
