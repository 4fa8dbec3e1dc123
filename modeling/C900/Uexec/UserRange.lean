import C900.Uexec.Exit

/-!
# Buffers of the guest

`u_range_ok` looks at a buffer of the guest a segment at a time, `u_r8` and `u_w8` go
through it byte by byte. The bytes that the check passes over lie in the segment that it
has looked at, so that none of them is outside installed memory.
-/

namespace C900

/-- `u_r8`. -/
def Bus.uR8 (b : Bus) (v : Long) (k : Nat) : Byte :=
  let (s, o) := uAddr v k
  b.gr8 (BitVec.ofNat 8 s) o

/-- `u_w8`. -/
def Bus.uW8 (b : Bus) (v : Long) (k : Nat) (x : Byte) : Bus :=
  let (s, o) := uAddr v k
  b.gw8 (BitVec.ofNat 8 s) o x

/-- Byte `k` of a buffer resolves to an installed segment of the 7-bit space. -/
def Resolves (instMax : Nat) (v : Long) (k : Nat) : Prop :=
  (uAddr v k).1 ≤ instMax ∧ (uAddr v k).1 ≤ 0x7F

/-- An address of the guest memory up to segment `instMax`. -/
def Installed (instMax : Nat) (a : Long) : Prop := a.toNat < (instMax + 1) * 0x10000

section Resolution

variable (v : Long) (pos : Nat)

/-- The first byte of the buffer, as an offset from the start of segment 0. -/
def bufferStart : Nat := ((v >>> 24) &&& 0x7F).toNat * 0x10000 + (v &&& 0xFFFF).toNat

/-- The segment is the quotient and the offset the remainder of the place, up to the end of
the space. -/
theorem uAddr_eq : uAddr v pos =
    (if 0x7F < (bufferStart v + pos) / 0x10000 then 0x100 else (bufferStart v + pos) / 0x10000,
      (bufferStart v + pos) % 0x10000) := by
  have seg : ((v >>> 24) &&& 0x7F).toNat + ((v &&& 0xFFFF).toNat + pos) / 0x10000 =
      (bufferStart v + pos) / 0x10000 := by
    unfold bufferStart
    omega
  have off : ((v &&& 0xFFFF).toNat + pos) % 0x10000 = (bufferStart v + pos) % 0x10000 := by
    unfold bufferStart
    omega
  unfold uAddr
  dsimp only
  rw [seg, off]

/-- The bytes that a pass moves over lie in one segment. -/
theorem uAddr_same {k : Nat} (here : pos ≤ k) (before : k < pos + (0x10000 - (uAddr v pos).2)) :
    (uAddr v k).1 = (uAddr v pos).1 := by
  simp only [uAddr_eq] at before ⊢
  have same : (bufferStart v + k) / 0x10000 = (bufferStart v + pos) / 0x10000 := by omega
  rw [same]

/-- A pass that finds its segment mapped ends inside the space, so that the sums of the loop
are C `int` values. -/
theorem uAddr_next_le {instMax : Nat} (limit : instMax < 0x100)
    (mapped : (uAddr v pos).1 ≤ instMax) : pos + (0x10000 - (uAddr v pos).2) ≤ 0x800000 := by
  simp only [uAddr_eq] at mapped ⊢
  split_ifs at mapped <;> omega

/-- A mapped segment is one of the space: the mark for having left it is above every
limit. -/
theorem mapped_iff_resolves {instMax : Nat} (limit : instMax < 0x100) :
    (uAddr v pos).1 ≤ instMax ↔ Resolves instMax v pos := by
  unfold Resolves
  simp only [uAddr_eq]
  split_ifs <;> omega

end Resolution

/-- The loop from a position on, given a pass for each byte that is left. -/
theorem uRangeFrom_iff (instMax : Nat) (v : Long) (n passes pos : Nat) (enough : n ≤ pos + passes) :
    uRangeFrom instMax v n passes pos = true ↔
      ∀ k, pos ≤ k → k < n → (uAddr v k).1 ≤ instMax := by
  induction passes generalizing pos with
  | zero => exact ⟨fun _ k here before => by omega, fun _ => rfl⟩
  | succ passes inductionHypothesis =>
    by_cases more : pos < n
    · have offset : (uAddr v pos).2 < 0x10000 := by
        simp only [uAddr_eq]
        omega
      have rest := inductionHypothesis (pos + (0x10000 - (uAddr v pos).2)) (by omega)
      simp only [uRangeFrom, if_pos more, Bool.and_eq_true, decide_eq_true_eq, rest]
      constructor
      · rintro ⟨mapped, later⟩ k here before
        by_cases jumped : k < pos + (0x10000 - (uAddr v pos).2)
        · rw [uAddr_same v pos here jumped]
          exact mapped
        · exact later k (by omega) before
      · intro all
        exact ⟨all pos (Nat.le_refl pos) more, fun k here => all k (by omega)⟩
    · simp only [uRangeFrom, if_neg more, true_iff]
      intro k here before
      omega

/-- The address of an offset in a segment of the space. -/
theorem guestAddress_toNat {s o : Nat} (inSpace : s ≤ 0x7F) (inside : o < 0x10000) :
    ((BitVec.ofNat 8 s).setWidth 32 <<< 16 ||| BitVec.ofNat 32 (o % 0x10000) : Long).toNat =
      s * 0x10000 + o := by
  have high : ((BitVec.ofNat 8 s).setWidth 32 <<< 16 : Long).toNat = s <<< 16 := by
    rw [BitVec.toNat_shiftLeft, BitVec.toNat_setWidth, BitVec.toNat_ofNat, Nat.shiftLeft_eq,
      Nat.shiftLeft_eq]
    omega
  have low : (BitVec.ofNat 32 (o % 0x10000)).toNat = o := by
    rw [BitVec.toNat_ofNat]
    omega
  rw [BitVec.toNat_or, high, low, ← Nat.shiftLeft_add_eq_or_of_lt inside, Nat.shiftLeft_eq]

/-- The one address that an access to a byte goes to, where the byte resolves. -/
theorem Resolves.touches {instMax : Nat} {v : Long} {k : Nat} (resolves : Resolves instMax v k) :
    ∃ a : Long, Installed instMax a ∧ ∀ b : Bus, b.uR8 v k = b.ram a ∧
      ∀ x, b.uW8 v k x = b.setRam a x := by
  obtain ⟨mapped, inSpace⟩ := resolves
  have offset : (uAddr v k).2 < 0x10000 := by
    simp only [uAddr_eq]
    omega
  refine ⟨(BitVec.ofNat 8 (uAddr v k).1).setWidth 32 <<< 16 |||
    BitVec.ofNat 32 ((uAddr v k).2 % 0x10000), ?_, fun b => ⟨rfl, fun x => rfl⟩⟩
  unfold Installed
  rw [guestAddress_toNat inSpace offset]
  omega

/-- `u_range_ok` accepts a buffer exactly when every byte of it resolves to an installed
segment of the space, and then the accesses to its bytes touch installed memory only. -/
theorem uRangeOk_iff (instMax : Nat) (v : Long) (n : Nat) (limit : instMax < 0x100) :
    (uRangeOk instMax v n = true ↔ ∀ k < n, Resolves instMax v k) ∧
      (uRangeOk instMax v n = true → ∀ k < n, ∃ a : Long, Installed instMax a ∧
        ∀ b : Bus, b.uR8 v k = b.ram a ∧ ∀ x, b.uW8 v k x = b.setRam a x) := by
  have exact : uRangeOk instMax v n = true ↔ ∀ k < n, Resolves instMax v k := by
    rw [uRangeOk, uRangeFrom_iff instMax v n n 0 (Nat.le_add_left n 0)]
    constructor
    · exact fun all k before => (mapped_iff_resolves v k limit).mp (all k (Nat.zero_le k) before)
    · exact fun all k _ before => (mapped_iff_resolves v k limit).mpr (all k before)
  exact ⟨exact, fun accepted k before => (exact.mp accepted k before).touches⟩

/-- A buffer that runs from segment 3 into the last installed one. -/
theorem uRangeOk_iff_carry : (4 : Nat) < 0x100 ∧
    (uRangeOk 4 0x0300FFF0 0x20 = true ↔ ∀ k < 0x20, Resolves 4 0x0300FFF0 k) := by
  have limit : (4 : Nat) < 0x100 := by decide
  exact ⟨limit, (uRangeOk_iff 4 0x0300FFF0 0x20 limit).1⟩

end C900
