import Mathlib.Tactic.SplitIfs
import Mathlib.Data.Nat.Notation
import Mathlib.Algebra.Group.Nat.Defs

/-!
# Byte buffers

Integer fields in a byte buffer: 16-bit little-endian words, and 32-bit fields
stored with the high word first. A buffer is a function from the byte position;
its length is the owner's affair.
-/

/-- A byte buffer. -/
abbrev Buffer := Nat → BitVec 8

namespace Buffer

/-- The 16-bit word at `o`, low byte first. -/
def get16 (buf : Buffer) (o : Nat) : Nat := (buf o).toNat + 256 * (buf (o + 1)).toNat

/-- Store a 16-bit word. -/
def set16 (buf : Buffer) (o v : Nat) : Buffer := fun i =>
  if i = o then BitVec.ofNat 8 v else if i = o + 1 then BitVec.ofNat 8 (v / 256) else buf i

/-- The 32-bit field at `o`, high word first. -/
def get32 (buf : Buffer) (o : Nat) : Nat := 65536 * get16 buf o + get16 buf (o + 2)

/-- Store a 32-bit field. -/
def set32 (buf : Buffer) (o v : Nat) : Buffer :=
  set16 (set16 buf o (v / 65536 % 65536)) (o + 2) (v % 65536)

/-- Store one byte. -/
def set8 (buf : Buffer) (o : Nat) (v : BitVec 8) : Buffer := fun i => if i = o then v else buf i

/-- Copy `n` bytes of `src` from position `s` to position `d`. -/
def blit (buf : Buffer) (d : Nat) (src : Buffer) (s n : Nat) : Buffer := fun i =>
  if d ≤ i ∧ i < d + n then src (s + (i - d)) else buf i

variable {buf src : Buffer} {o p v : Nat}

/-! ## Reading back -/

theorem get16_lt (buf : Buffer) (o : Nat) : get16 buf o < 65536 := by
  have low := (buf o).isLt
  have high := (buf (o + 1)).isLt
  unfold get16
  omega

theorem get32_lt (buf : Buffer) (o : Nat) : get32 buf o < 2 ^ 32 := by
  have high := get16_lt buf o
  have low := get16_lt buf (o + 2)
  unfold get32
  omega

theorem get16_set16_same (small : v < 65536) : get16 (set16 buf o v) o = v := by
  have next : o + 1 ≠ o := by omega
  simp only [get16, set16, if_true, next, if_false, BitVec.toNat_ofNat]
  omega

theorem get32_set32_same : get32 (set32 buf o v) o = v % 2 ^ 32 := by
  have low : get16 (set32 buf o v) (o + 2) = v % 65536 := get16_set16_same (by omega)
  have high : get16 (set32 buf o v) o = v / 65536 % 65536 := by
    have word : get16 (set16 buf o (v / 65536 % 65536)) o = v / 65536 % 65536 :=
      get16_set16_same (by omega)
    have a : o ≠ o + 2 := by omega
    have b : o ≠ o + 2 + 1 := by omega
    have c : o + 1 ≠ o + 2 := by omega
    have d : o + 1 ≠ o + 2 + 1 := by omega
    unfold set32
    simpa only [get16, set16, a, b, c, d, if_false] using word
  rw [get32, high, low]
  omega

/-! ## Fields that do not overlap -/

/-- A word depends on its two bytes. -/
theorem get16_congr {other : Buffer} (p : Nat) (low : buf o = other p)
    (high : buf (o + 1) = other (p + 1)) : get16 buf o = get16 other p := by
  rw [get16, low, high, get16]

/-- A 32-bit field depends on its four bytes. -/
theorem get32_congr {other : Buffer} (p : Nat) (same : ∀ i < 4, buf (o + i) = other (p + i)) :
    get32 buf o = get32 other p := by
  have high : get16 buf o = get16 other p := get16_congr p (same 0 (by omega)) (same 1 (by omega))
  have low : get16 buf (o + 2) = get16 other (p + 2) :=
    get16_congr (p + 2) (same 2 (by omega)) (same 3 (by omega))
  rw [get32, high, low, get32]

theorem set16_apply_of_ne {i : Nat} (apart : i < p ∨ p + 2 ≤ i) : set16 buf p v i = buf i := by
  rw [set16, if_neg (by omega), if_neg (by omega)]

theorem set32_apply_of_ne {i : Nat} (apart : i < p ∨ p + 4 ≤ i) : set32 buf p v i = buf i := by
  rw [set32, set16_apply_of_ne (by omega), set16_apply_of_ne (by omega)]

theorem set8_apply_of_ne {i : Nat} {x : BitVec 8} (apart : i ≠ p) : set8 buf p x i = buf i := by
  rw [set8, if_neg apart]

theorem blit_apply_of_ne {i d s n : Nat} (apart : i < d ∨ d + n ≤ i) :
    blit buf d src s n i = buf i := by
  rw [blit, if_neg (by omega)]

theorem blit_apply_of_mem {i d s n : Nat} (inside : d ≤ i ∧ i < d + n) :
    blit buf d src s n i = src (s + (i - d)) := by
  rw [blit, if_pos inside]

theorem get16_set16_apart (apart : o + 2 ≤ p ∨ p + 2 ≤ o) :
    get16 (set16 buf p v) o = get16 buf o :=
  get16_congr o (set16_apply_of_ne (by omega)) (set16_apply_of_ne (by omega))

theorem get16_set32_apart (apart : o + 2 ≤ p ∨ p + 4 ≤ o) :
    get16 (set32 buf p v) o = get16 buf o :=
  get16_congr o (set32_apply_of_ne (by omega)) (set32_apply_of_ne (by omega))

theorem get16_blit_apart {d s n : Nat} (apart : o + 2 ≤ d ∨ d + n ≤ o) :
    get16 (blit buf d src s n) o = get16 buf o :=
  get16_congr o (blit_apply_of_ne (by omega)) (blit_apply_of_ne (by omega))

theorem get32_set16_apart (apart : o + 4 ≤ p ∨ p + 2 ≤ o) :
    get32 (set16 buf p v) o = get32 buf o :=
  get32_congr o fun _ _ => set16_apply_of_ne (by omega)

theorem get32_set32_apart (apart : o + 4 ≤ p ∨ p + 4 ≤ o) :
    get32 (set32 buf p v) o = get32 buf o :=
  get32_congr o fun _ _ => set32_apply_of_ne (by omega)

theorem get32_blit_apart {d s n : Nat} (apart : o + 4 ≤ d ∨ d + n ≤ o) :
    get32 (blit buf d src s n) o = get32 buf o :=
  get32_congr o fun _ _ => blit_apply_of_ne (by omega)

/-- A field inside a copied range is the field of the source. -/
theorem get32_blit_inside {d s n k : Nat} (inside : k + 4 ≤ n) :
    get32 (blit buf d src s n) (d + k) = get32 src (s + k) := by
  refine get32_congr (s + k) fun i small => ?_
  rw [blit_apply_of_mem (by omega)]
  congr 1
  omega

end Buffer
