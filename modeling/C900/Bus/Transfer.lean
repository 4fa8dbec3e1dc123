import C900.Bus.Disk

/-!
# The data phase moves bytes

When does the data phase of a disk command have the effect of the byte loop
through `phys_read8` and `phys_write8`? Both loops reduce to `deposit`, which
sends a byte sequence to the addresses of a command; what remains is to compare
the sequences.
-/

namespace C900

/-! ## Addresses -/

/-- On the board a byte store reaches DRAM or nothing. -/
theorem physWrite8_board {b : Bus} (board : b.flatMem = false) (a : Long) (v : Byte) :
    physWrite8 b a v =
      if segPopulated (busAddress a) then b.setRam (busAddress a) v else b := by
  have rom : segPopulated (busAddress a) = true → ¬ busAddress a < romSize := by
    rw [segPopulated_iff, BitVec.lt_def]
    intro populated low
    have small : romSize.toNat = 0x8000 := rfl
    omega
  unfold physWrite8
  simp only [board, Bool.false_eq_true, if_false]
  by_cases populated : segPopulated (busAddress a) = true
  · simp [populated, rom populated]
  · simp [populated]

theorem HdcCommand.length_le (c : HdcCommand) : c.length ≤ 255 * 512 := by
  have small := c.bcnt.isLt
  unfold HdcCommand.length
  omega

theorem HdcCommand.dma_lt (c : HdcCommand) : c.dma.toNat < 2 ^ 24 := by
  have byte : ∀ (x : Byte) (k : Nat), k ≤ 16 →
      (x.setWidth 32 <<< k : Long).toNat < 2 ^ 24 := by
    intro x k small
    rw [BitVec.toNat_shiftLeft, BitVec.toNat_setWidth]
    have wide : x.toNat % 2 ^ 32 < 2 ^ 8 := by omega
    refine Nat.lt_of_le_of_lt (Nat.mod_le _ _) ?_
    rw [Nat.shiftLeft_eq]
    have scale : 2 ^ k ≤ 2 ^ 16 := Nat.pow_le_pow_right (by decide) small
    calc x.toNat % 2 ^ 32 * 2 ^ k < 2 ^ 8 * 2 ^ k := Nat.mul_lt_mul_of_pos_right wide (Nat.two_pow_pos k)
      _ ≤ 2 ^ 24 := by omega
  have low : (c.dmaLo.setWidth 32 : Long).toNat < 2 ^ 24 := by
    simpa using byte c.dmaLo 0 (by decide)
  rw [HdcCommand.dma, BitVec.toNat_or, BitVec.toNat_or]
  exact Nat.or_lt_two_pow (Nat.or_lt_two_pow (byte _ 16 (by decide)) (byte _ 8 (by decide))) low

theorem HdcCommand.address_toNat (c : HdcCommand) {i : Nat} (small : i < c.length) :
    (c.address i).toNat = c.dma.toNat + i := by
  have := c.dma_lt
  have := c.length_le
  rw [HdcCommand.address, BitVec.toNat_add, BitVec.toNat_ofNat]
  omega

/-- The transfer does not run past the top of physical memory. -/
def HdcCommand.Fits (c : HdcCommand) : Prop := c.dma.toNat + c.length ≤ physSize

instance (c : HdcCommand) : Decidable c.Fits := inferInstanceAs (Decidable (_ ≤ _))

/-- The whole transfer lies in DRAM. -/
def HdcCommand.WithinDram (c : HdcCommand) : Prop :=
  0x080000 ≤ c.dma.toNat ∧ c.dma.toNat + c.length ≤ 0x180000

/-- The segment test takes the block copy for transfers within DRAM, and also
for every transfer that wraps: the segment of its last address is then 0 or 1. -/
theorem HdcCommand.blockCopy_iff (c : HdcCommand) :
    c.blockCopy = true ↔ c.WithinDram ∨ ¬ c.Fits := by
  have dma := c.dma_lt
  have length := c.length_le
  simp only [HdcCommand.blockCopy, Bool.and_eq_true, decide_eq_true_eq, BitVec.le_def,
    segment_toNat, HdcCommand.WithinDram, HdcCommand.Fits, physSize]
  have last : (c.dma + BitVec.ofNat 32 c.length - 1).toNat =
      (2 ^ 32 - 1 + (c.dma.toNat + c.length)) % 2 ^ 32 := by
    have one : (1 : Long).toNat = 1 := rfl
    simp only [BitVec.toNat_sub, BitVec.toNat_add, BitVec.toNat_ofNat, one]
    omega
  have eight : (0x08 : Long).toNat = 8 := rfl
  have top : (0x17 : Long).toNat = 0x17 := rfl
  rw [last, eight, top]
  omega

/-! ## Block access -/

/-- Two stores in a row are one store. -/
theorem Bus.ramStore_append (b : Bus) (a : Long) (m n : Nat) {v w : Nat → Byte}
    (noWrap : a.toNat + m < 2 ^ 32) (same : ∀ i < n, w i = v (m + i)) :
    (b.ramStore a m v).ramStore (a + BitVec.ofNat 32 m) n w = b.ramStore a (m + n) v := by
  have base : (a + BitVec.ofNat 32 m).toNat = a.toNat + m := by
    rw [BitVec.toNat_add, BitVec.toNat_ofNat]
    omega
  refine Eq.trans ?_ (forUpTo.add m n _ b).symm
  refine forUpTo.congr (fun _ => True) n trivial fun i bus small _ => ⟨?_, trivial⟩
  rw [base, same i small, BitVec.add_assoc, ← BitVec.ofNat_add, Nat.add_assoc]

/-- A store of `n` bytes leaves the array when its last index does. -/
theorem Bus.ramStore_overrun (b : Bus) (a : Long) (n : Nat) (v : Nat → Byte) :
    (b.ramStore a n v).overrun =
      (b.overrun || decide (n ≠ 0 ∧ physSize < a.toNat + n)) := by
  refine forUpTo.invariant (fun n (s : Bus) =>
    s.overrun = (b.overrun || decide (n ≠ 0 ∧ physSize < a.toNat + n))) n (by simp) ?_
  intro i s _ before
  have step : (i ≠ 0 ∧ physSize < a.toNat + i) ∨ physSize ≤ a.toNat + i ↔
      i + 1 ≠ 0 ∧ physSize < a.toNat + (i + 1) := by omega
  simp only [before, Bool.or_assoc, ← Bool.decide_or, step]

/-- The same for a load, which changes nothing else. -/
theorem Bus.ramLoad_eq (b : Bus) (a : Long) (n : Nat) :
    b.ramLoad a n =
      { b with overrun := b.overrun || decide (n ≠ 0 ∧ physSize < a.toNat + n) } := by
  refine forUpTo.invariant (fun n (s : Bus) => s =
    { b with overrun := b.overrun || decide (n ≠ 0 ∧ physSize < a.toNat + n) }) n (by simp) ?_
  rintro i s _ rfl
  have step : (i ≠ 0 ∧ physSize < a.toNat + i) ∨ physSize ≤ a.toNat + i ↔
      i + 1 ≠ 0 ∧ physSize < a.toNat + (i + 1) := by omega
  simp only [Bool.or_assoc, ← Bool.decide_or, step]

/-- A load inside the array changes nothing. -/
theorem Bus.ramLoad_inside (b : Bus) {a : Long} {n : Nat} (inside : a.toNat + n ≤ physSize) :
    b.ramLoad a n = b := by
  have stays : ¬ (n ≠ 0 ∧ physSize < a.toNat + n) := by omega
  rw [Bus.ramLoad_eq, decide_eq_false stays, Bool.or_false]

/-! ## Depositing a byte sequence -/

/-- Store the sequence `v` at the addresses of the transfer, byte by byte. -/
def HdcCommand.deposit (c : HdcCommand) (b : Bus) (n : Nat) (v : Nat → Byte) : Bus :=
  forUpTo n (fun i b => physWrite8 b (c.address i) (v i)) b

@[simp] theorem HdcCommand.deposit_zero (c : HdcCommand) (b : Bus) (v : Nat → Byte) :
    c.deposit b 0 v = b := forUpTo.zero ..

theorem HdcCommand.deposit_succ (c : HdcCommand) (b : Bus) (n : Nat) (v : Nat → Byte) :
    c.deposit b (n + 1) v = physWrite8 (c.deposit b n v) (c.address n) (v n) := forUpTo.succ ..

@[simp] theorem HdcCommand.deposit_flatMem (c : HdcCommand) (b : Bus) (n : Nat)
    (v : Nat → Byte) : (c.deposit b n v).flatMem = b.flatMem :=
  forUpTo.invariant (fun _ (s : Bus) => s.flatMem = b.flatMem) n rfl fun i s _ kept => by simpa using kept

@[simp] theorem HdcCommand.deposit_overrun (c : HdcCommand) (b : Bus) (n : Nat)
    (v : Nat → Byte) : (c.deposit b n v).overrun = b.overrun :=
  forUpTo.invariant (fun _ (s : Bus) => s.overrun = b.overrun) n rfl fun i s _ kept => by simpa using kept

/-- Continue a deposit of `m` bytes with `n` more. -/
theorem HdcCommand.deposit_add (c : HdcCommand) (b : Bus) (m n : Nat) {v w : Nat → Byte}
    (same : ∀ i < n, w i = v (m + i)) :
    forUpTo n (fun i b => physWrite8 b (c.address (m + i)) (w i)) (c.deposit b m v) =
      c.deposit b (m + n) v := by
  refine Eq.trans ?_ (forUpTo.add m n _ b).symm
  exact forUpTo.congr (fun _ => True) n trivial fun i bus small _ =>
    ⟨congrArg (physWrite8 _ _) (same i small), trivial⟩

/-- An address of a transfer that fits is a bus address already. -/
theorem HdcCommand.Fits.busAddress {c : HdcCommand} (fits : c.Fits) {i : Nat}
    (small : i < c.length) : busAddress (c.address i) = c.address i := by
  apply BitVec.eq_of_toNat_eq
  have bound : c.dma.toNat + c.length ≤ 2 ^ 24 := fits
  rw [busAddress_toNat, c.address_toNat small]
  omega

/-- The addresses of a transfer are distinct. -/
theorem HdcCommand.address_ne (c : HdcCommand) {i j : Nat} (iSmall : i < c.length)
    (jSmall : j < c.length) (ne : i ≠ j) : c.address i ≠ c.address j := by
  intro same
  have numbers := congrArg BitVec.toNat same
  rw [c.address_toNat iSmall, c.address_toNat jSmall] at numbers
  omega

/-- After `n` rounds the DRAM addresses visited so far hold their bytes. -/
theorem HdcCommand.Fits.deposit_ram {c : HdcCommand} (fits : c.Fits) {b : Bus}
    (board : b.flatMem = false) (v : Nat → Byte) {n k : Nat} (bound : n ≤ c.length)
    (visited : k < n) (populated : segPopulated (c.address k) = true) :
    (c.deposit b n v).ram (c.address k) = v k := by
  induction n with
  | zero => omega
  | succ n inductionHypothesis =>
    have before : (c.deposit b n v).flatMem = false := by simpa using board
    rw [c.deposit_succ, physWrite8_board before, fits.busAddress (by omega)]
    by_cases last : k = n
    · subst last
      simp [populated, Bus.setRam]
    · have earlier := inductionHypothesis (by omega) (by omega)
      have other := c.address_ne (i := k) (j := n) (by omega) (by omega) last
      split
      · simpa [Bus.setRam, Function.update_of_ne other] using earlier
      · exact earlier

/-- Two deposits agree exactly when their sequences agree on DRAM. -/
theorem HdcCommand.Fits.deposit_eq_iff {c : HdcCommand} (fits : c.Fits) {b : Bus}
    (board : b.flatMem = false) (v w : Nat → Byte) :
    c.deposit b c.length v = c.deposit b c.length w ↔
      ∀ i < c.length, segPopulated (c.address i) = true → v i = w i := by
  constructor
  · intro same i small populated
    have left := fits.deposit_ram board v (Nat.le_refl _) small populated
    have right := fits.deposit_ram board w (Nat.le_refl _) small populated
    rw [← left, ← right, same]
  · intro agree
    refine forUpTo.congr (fun s => s.flatMem = false) _ board fun i s small kept => ?_
    refine ⟨?_, by simpa using kept⟩
    rw [physWrite8_board kept, physWrite8_board kept, fits.busAddress small]
    split
    case isTrue populated => rw [agree i small populated]
    case isFalse => rfl

/-! ## The stream -/

/-- Byte `i` of the addressed sectors, 0 past the end of the image. -/
def HdcCommand.imageByte (c : HdcCommand) (f : HostFile) (i : Nat) : Byte :=
  if c.start + i < f.size then f.byte (c.start + i) else 0

/-- Byte `i` as the sector loop delivers it: 0 unless its whole sector is in the
image. -/
def HdcCommand.sectorByte (c : HdcCommand) (f : HostFile) (i : Nat) : Byte :=
  if c.start + (i / 512 + 1) * 512 ≤ f.size then f.byte (c.start + i) else 0

/-- Byte `i` belongs to the image, but its sector is cut off by the end of the
image. -/
def HdcCommand.InPartialSector (c : HdcCommand) (f : HostFile) (i : Nat) : Prop :=
  c.start + i < f.size ∧ f.size < c.start + (i / 512 + 1) * 512

/-- The sector loop and the image differ only on a partial sector. -/
theorem HdcCommand.sectorByte_eq_iff (c : HdcCommand) (f : HostFile) (i : Nat) :
    c.sectorByte f i = c.imageByte f i ↔ (c.InPartialSector f i → f.byte (c.start + i) = 0) := by
  have inside : i < (i / 512 + 1) * 512 := by omega
  unfold HdcCommand.sectorByte HdcCommand.imageByte HdcCommand.InPartialSector
  by_cases whole : c.start + (i / 512 + 1) * 512 ≤ f.size
  · have stored : c.start + i < f.size := by omega
    have notCut : ¬ f.size < c.start + (i / 512 + 1) * 512 := by omega
    simp [whole, stored, notCut]
  · have cut : f.size < c.start + (i / 512 + 1) * 512 := by omega
    by_cases stored : c.start + i < f.size
    · simp [whole, stored, cut, eq_comm]
    · simp [whole, stored]

theorem HostFile.afterRead_zero (f : HostFile) : f.afterRead 0 = f := by
  simp [HostFile.afterRead, HostFile.available]

/-- Two reads in a row are one read. -/
theorem HostFile.afterRead_afterRead (f : HostFile) (m n : Nat) :
    (f.afterRead m).afterRead n = f.afterRead (m + n) := by
  have count : f.pos + min m (f.size - f.pos) + min n (f.size - (f.pos + min m (f.size - f.pos))) =
      f.pos + min (m + n) (f.size - f.pos) := by omega
  simp [HostFile.afterRead, HostFile.available, count]

/-- A write split in two. -/
theorem HostFile.fwrite_add (f : HostFile) (m n : Nat) (v : Nat → Byte) :
    f.fwrite (m + n) v = (f.fwrite m v).fwrite n fun i => v (m + i) := by
  rcases Nat.eq_zero_or_pos m with rfl | mPos
  · simp [HostFile.fwrite]
  rcases Nat.eq_zero_or_pos n with rfl | nPos
  · simp [HostFile.fwrite]
  cases writable : f.writable with
  | false => simp [HostFile.fwrite, writable]
  | true =>
    have some : m + n ≠ 0 := by omega
    simp only [HostFile.fwrite, writable, Nat.ne_of_gt mPos, Nat.ne_of_gt nPos, some,
      Bool.not_true, Bool.false_or, beq_iff_eq, if_false, HostFile.mk.injEq, true_and]
    refine ⟨?_, by omega, by omega⟩
    funext j
    have noGap : ¬ (max f.size (f.pos + m) ≤ j ∧ j < f.pos + m) := by omega
    by_cases first : f.pos ≤ j ∧ j < f.pos + m
    · have whole : f.pos ≤ j ∧ j < f.pos + (m + n) := by omega
      have notSecond : ¬ (f.pos + m ≤ j ∧ j < f.pos + m + n) := by omega
      rw [if_pos whole, if_neg notSecond, if_neg noGap, if_pos first]
    · by_cases second : f.pos + m ≤ j ∧ j < f.pos + m + n
      · have whole : f.pos ≤ j ∧ j < f.pos + (m + n) := by omega
        have index : m + (j - (f.pos + m)) = j - f.pos := by omega
        rw [if_pos whole, if_pos second, index]
      · have outside : ¬ (f.pos ≤ j ∧ j < f.pos + (m + n)) := by omega
        rw [if_neg outside, if_neg second, if_neg noGap, if_neg first]

/-- A write depends on the bytes written only. -/
theorem HostFile.fwrite_congr (f : HostFile) (n : Nat) {v w : Nat → Byte}
    (same : ∀ i < n, v i = w i) : f.fwrite n v = f.fwrite n w := by
  unfold HostFile.fwrite
  split
  · rfl
  · congr 1
    funext j
    split
    case isTrue inside => exact same _ (by omega)
    case isFalse => rfl

/-! ## The two data phases and the two byte loops as deposits and writes -/

/-- What is left of the image after `n` bytes of a transfer were read. -/
theorem HdcCommand.available_afterRead (c : HdcCommand) (f : HostFile) (n k : Nat) :
    ((f.fseek c.start).afterRead n).available k = min k (f.size - c.start - n) := by
  simp only [HostFile.available, HostFile.afterRead, HostFile.fseek]
  omega

/-- The byte read next, while the image lasts. -/
theorem HdcCommand.readByte_afterRead (c : HdcCommand) (f : HostFile) (n i : Nat)
    (stored : n ≤ f.size - c.start) :
    ((f.fseek c.start).afterRead n).readByte i = f.byte (c.start + (n + i)) := by
  simp only [HostFile.readByte, HostFile.available, HostFile.afterRead, HostFile.fseek,
    Nat.min_eq_left stored, Nat.add_assoc]

theorem hdcReadBytes_eq (b : Bus) (f : HostFile) (c : HdcCommand) :
    hdcReadBytes b f c =
      (c.deposit b c.length (c.imageByte f), (f.fseek c.start).afterRead c.length) := by
  refine forUpTo.invariant (fun n (p : Bus × HostFile) =>
    p = (c.deposit b n (c.imageByte f), (f.fseek c.start).afterRead n)) c.length ?_ ?_
  · rw [HostFile.afterRead_zero, HdcCommand.deposit_zero]
  · rintro n p - rfl
    dsimp only
    rw [HostFile.afterRead_afterRead, c.available_afterRead]
    refine Prod.ext (Eq.trans (congrArg (physWrite8 _ _) ?_) (c.deposit_succ ..).symm) rfl
    unfold HdcCommand.imageByte
    by_cases stored : c.start + n < f.size
    · rw [if_pos (by omega), if_pos stored, c.readByte_afterRead f n 0 (by omega)]
      rfl
    · rw [if_neg (by omega), if_neg stored]

/-- The sector loop of Read deposits whole sectors only. -/
theorem hdcReadData_sectors (b : Bus) (f : HostFile) (c : HdcCommand)
    (sectors : c.blockCopy = false) :
    hdcReadData b f c =
      (c.deposit b c.length (c.sectorByte f), (f.fseek c.start).afterRead c.length) := by
  unfold hdcReadData
  simp only [sectors, Bool.false_eq_true, if_false]
  refine forUpTo.invariant (fun s (p : Bus × HostFile) =>
    p = (c.deposit b (s * 512) (c.sectorByte f), (f.fseek c.start).afterRead (s * 512)))
    c.bcnt.toNat ?_ ?_
  · rw [Nat.zero_mul, HostFile.afterRead_zero, HdcCommand.deposit_zero]
  · rintro s p - rfl
    dsimp only
    rw [HostFile.afterRead_afterRead, Nat.succ_mul, c.available_afterRead]
    refine Prod.ext (c.deposit_add b (s * 512) 512 fun i small => ?_) rfl
    have sector : (s * 512 + i) / 512 = s := by omega
    unfold HdcCommand.sectorByte
    rw [sector]
    by_cases whole : c.start + (s + 1) * 512 ≤ f.size
    · rw [if_neg (by omega), if_pos whole, c.readByte_afterRead f (s * 512) i (by omega)]
    · rw [if_pos (by omega), if_neg whole]

/-- The block copy stores the image bytes at consecutive array indices. -/
theorem hdcReadData_blockCopy (b : Bus) (f : HostFile) (c : HdcCommand)
    (copy : c.blockCopy = true) :
    hdcReadData b f c =
      (b.ramStore c.dma c.length (c.imageByte f), (f.fseek c.start).afterRead c.length) := by
  have got := c.available_afterRead f 0 c.length
  rw [HostFile.afterRead_zero, Nat.sub_zero] at got
  have stored : ∀ i < min c.length (f.size - c.start),
      (f.fseek c.start).readByte i = c.imageByte f i := by
    intro i small
    rw [HdcCommand.imageByte, if_pos (by omega)]
    rfl
  unfold hdcReadData
  simp only [copy, if_true, got]
  refine Prod.ext ?_ rfl
  dsimp only
  have head : b.ramStore c.dma (min c.length (f.size - c.start)) (f.fseek c.start).readByte =
      b.ramStore c.dma (min c.length (f.size - c.start)) (c.imageByte f) :=
    forUpTo.congr (fun _ => True) _ trivial fun i bus small _ =>
      ⟨by rw [stored i small], trivial⟩
  rw [head]
  split
  case isFalse all =>
    have whole : min c.length (f.size - c.start) = c.length := by omega
    rw [whole]
  case isTrue short =>
    have total : min c.length (f.size - c.start) + (c.length - min c.length (f.size - c.start)) =
        c.length := by omega
    have dma := c.dma_lt
    have length := c.length_le
    rw [HdcCommand.address, Bus.ramStore_append b c.dma _ _ (by omega) (v := c.imageByte f), total]
    intro i small
    rw [HdcCommand.imageByte, if_neg (by omega)]

/-! ## The block copy against the byte loop -/

/-- Within DRAM the array is indexed by the addresses the byte loop uses. -/
theorem HdcCommand.WithinDram.ramStore_eq {c : HdcCommand} (within : c.WithinDram) {b : Bus}
    (board : b.flatMem = false) (v : Nat → Byte) :
    b.ramStore c.dma c.length v = c.deposit b c.length v := by
  obtain ⟨low, high⟩ := within
  have fits : c.Fits := by
    unfold HdcCommand.Fits physSize
    omega
  refine forUpTo.congr (fun s => s.flatMem = false) _ board fun i s small kept => ?_
  have populated : segPopulated (c.address i) = true := by
    rw [segPopulated_iff, c.address_toNat small]
    omega
  have inside : ¬ physSize ≤ c.dma.toNat + i := by
    unfold physSize
    omega
  rw [physWrite8_board kept, fits.busAddress small, if_pos populated]
  refine ⟨?_, kept⟩
  simp [inside, HdcCommand.address, Bus.setRam]

/-- Within DRAM the bytes of the array are the bytes the byte loop reads. -/
theorem HdcCommand.WithinDram.physRead8_eq {c : HdcCommand} (within : c.WithinDram) {b : Bus}
    (board : b.flatMem = false) {i : Nat} (small : i < c.length) :
    physRead8 b (c.address i) = b.ram (c.address i) := by
  obtain ⟨low, high⟩ := within
  have fits : c.Fits := by
    unfold HdcCommand.Fits physSize
    omega
  have populated : segPopulated (c.address i) = true := by
    rw [segPopulated_iff, c.address_toNat small]
    omega
  have notRom : ¬ c.address i < romSize := by
    rw [BitVec.lt_def, c.address_toNat small]
    have : romSize.toNat = 0x8000 := rfl
    omega
  simp [physRead8, board, fits.busAddress small, notRom, populated]

/-! ## The controller's data phases -/

theorem hdcWriteBytes_eq (b : Bus) (f : HostFile) (c : HdcCommand) :
    hdcWriteBytes b f c =
      (b, (f.fseek c.start).fwrite c.length fun i => physRead8 b (c.address i)) := by
  refine forUpTo.invariant (fun n (p : Bus × HostFile) =>
    p = (b, (f.fseek c.start).fwrite n fun i => physRead8 b (c.address i))) c.length ?_ ?_
  · simp [HostFile.fwrite]
  · rintro n p - rfl
    dsimp only
    rw [HostFile.fwrite_add]
    refine congrArg (Prod.mk b) (HostFile.fwrite_congr _ 1 fun i small => ?_)
    rw [Nat.lt_one_iff.mp small, Nat.add_zero]

/-- The sector loop of Write is the byte loop. -/
theorem hdcWriteData_sectors (b : Bus) (f : HostFile) (c : HdcCommand)
    (sectors : c.blockCopy = false) : hdcWriteData b f c = hdcWriteBytes b f c := by
  rw [hdcWriteBytes_eq]
  unfold hdcWriteData
  simp only [sectors, Bool.false_eq_true, if_false]
  refine forUpTo.invariant (fun s (p : Bus × HostFile) =>
    p = (b, (f.fseek c.start).fwrite (s * 512) fun i => physRead8 b (c.address i)))
    c.bcnt.toNat ?_ ?_
  · simp [HostFile.fwrite]
  · rintro s p - rfl
    rw [Nat.succ_mul, HostFile.fwrite_add]

/-- A transfer that does not fit has an index beyond the array. -/
theorem HdcCommand.leaves_array (c : HdcCommand) (past : ¬ c.Fits) :
    c.length ≠ 0 ∧ physSize < c.dma.toNat + c.length := by
  have dma := c.dma_lt
  unfold HdcCommand.Fits physSize at past
  unfold physSize
  omega

/-- A transfer that runs past the top of memory makes the block copy of Read
leave the array. -/
theorem hdcReadData_overrun {b : Bus} {c : HdcCommand} (past : ¬ c.Fits) (f : HostFile) :
    (hdcReadData b f c).1.overrun = true := by
  rw [hdcReadData_blockCopy b f c (c.blockCopy_iff.mpr (Or.inr past)), Bus.ramStore_overrun]
  simp [c.leaves_array past]

/-- The same for Write. -/
theorem hdcWriteData_overrun {b : Bus} {c : HdcCommand} (past : ¬ c.Fits) (f : HostFile) :
    (hdcWriteData b f c).1.overrun = true := by
  unfold hdcWriteData
  rw [c.blockCopy_iff.mpr (Or.inr past), if_pos rfl, Bus.ramLoad_eq]
  simp [c.leaves_array past]

/-- Read has the effect of the byte loop, and stays inside the array, exactly
when the transfer fits and no byte of a partial last sector is lost on its way
to DRAM. -/
theorem hdcReadData_eq_bytes_iff {b : Bus} (board : b.flatMem = false) (inside : b.overrun = false)
    (f : HostFile) (c : HdcCommand) :
    (hdcReadData b f c = hdcReadBytes b f c ∧ (hdcReadData b f c).1.overrun = false) ↔
      c.Fits ∧ (c.WithinDram ∨ ∀ i < c.length, c.InPartialSector f i →
        segPopulated (c.address i) = true → f.byte (c.start + i) = 0) := by
  by_cases fits : c.Fits
  case neg =>
    simp [fits, hdcReadData_overrun fits f]
  by_cases within : c.WithinDram
  · have copy := hdcReadData_blockCopy b f c (c.blockCopy_iff.mpr (Or.inl within))
    rw [copy, within.ramStore_eq board, hdcReadBytes_eq]
    simp [fits, within, inside]
  · have sectors : c.blockCopy = false := by
      rw [← Bool.not_eq_true, c.blockCopy_iff]
      simp [fits, within]
    rw [hdcReadData_sectors b f c sectors, hdcReadBytes_eq]
    simp only [Prod.mk.injEq, and_true, HdcCommand.deposit_overrun, inside, fits, within,
      false_or, true_and, fits.deposit_eq_iff board, HdcCommand.sectorByte_eq_iff]
    exact ⟨fun same i small cut populated => same i small populated cut,
      fun same i small populated cut => same i small cut populated⟩

/-- Write has the effect of the byte loop, and stays inside the array, exactly
when the transfer fits. -/
theorem hdcWriteData_eq_bytes_iff {b : Bus} (board : b.flatMem = false)
    (inside : b.overrun = false) (f : HostFile) (c : HdcCommand) :
    (hdcWriteData b f c = hdcWriteBytes b f c ∧ (hdcWriteData b f c).1.overrun = false) ↔
      c.Fits := by
  by_cases fits : c.Fits
  case neg =>
    simp [fits, hdcWriteData_overrun fits f]
  by_cases within : c.WithinDram
  · have copy : c.blockCopy = true := c.blockCopy_iff.mpr (Or.inl within)
    have bytes := HostFile.fwrite_congr (f.fseek c.start) c.length
      fun i small => (within.physRead8_eq board small).symm
    rw [hdcWriteBytes_eq]
    unfold hdcWriteData
    simp [copy, Bus.ramLoad_inside b fits, bytes, fits, inside]
  · have sectors : c.blockCopy = false := by
      rw [← Bool.not_eq_true, c.blockCopy_iff]
      simp [fits, within]
    rw [hdcWriteData_sectors b f c sectors, hdcWriteBytes_eq]
    simp [fits, inside]

/-- On the board the data phase of a Read or Write command has the effect of
moving its bytes one at a time, with no index outside the RAM array, exactly
when the transfer ends by the top of physical memory and, for a Read that is not
wholly within DRAM, the bytes of a cut-off last sector that are due in DRAM are
all zero. -/
theorem hdcData_bytewise_iff (b : Bus) (f : HostFile) (c : HdcCommand)
    (board : b.flatMem = false) (inside : b.overrun = false) :
    ((hdcReadData b f c = hdcReadBytes b f c ∧ (hdcReadData b f c).1.overrun = false) ↔
      c.dma.toNat + c.length ≤ physSize ∧
        (c.WithinDram ∨ ∀ i < c.length, c.InPartialSector f i →
          segPopulated (c.address i) = true → f.byte (c.start + i) = 0)) ∧
    ((hdcWriteData b f c = hdcWriteBytes b f c ∧ (hdcWriteData b f c).1.overrun = false) ↔
      c.dma.toNat + c.length ≤ physSize) :=
  ⟨hdcReadData_eq_bytes_iff board inside f c, hdcWriteData_eq_bytes_iff board inside f c⟩

/-- Read one block to 0xFFFF00: the second half of the block lies beyond the
array. -/
def wrapCommand : HdcCommand where
  opcode := 0x08
  lunhi := 0
  mid := 0
  low := 0
  bcnt := 1
  dmaHi := 0xFF
  dmaMid := 0xFF
  dmaLo := 0x00

/-- An image of one block. -/
def oneBlock : HostFile where
  byte := fun _ => 0xA5
  size := 512
  writable := true
  pos := 0

theorem hdcData_bytewise_iff_wrap :
    (hdcReadData default oneBlock wrapCommand = hdcReadBytes default oneBlock wrapCommand ∧
      (hdcReadData default oneBlock wrapCommand).1.overrun = false) ↔
      wrapCommand.dma.toNat + wrapCommand.length ≤ physSize ∧
        (wrapCommand.WithinDram ∨ ∀ i < wrapCommand.length,
          wrapCommand.InPartialSector oneBlock i →
            segPopulated (wrapCommand.address i) = true →
              oneBlock.byte (wrapCommand.start + i) = 0) :=
  (hdcData_bytewise_iff default oneBlock wrapCommand rfl rfl).1

/-- The block copy of that command writes outside the array, which the byte loop
never does. -/
theorem wrapCommand_leaves_array :
    (hdcReadData default oneBlock wrapCommand).1.overrun = true ∧
      hdcReadData default oneBlock wrapCommand ≠ hdcReadBytes default oneBlock wrapCommand := by
  have past : ¬ wrapCommand.Fits := by decide
  have overrun := hdcReadData_overrun (b := default) past oneBlock
  refine ⟨overrun, fun same => ?_⟩
  rw [same, hdcReadBytes_eq, HdcCommand.deposit_overrun] at overrun
  exact Bool.false_ne_true overrun

end C900
