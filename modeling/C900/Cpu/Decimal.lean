import C900.Cpu.Conditions
import C900.Cpu.Encode
import Mathlib.Data.Nat.Digits.Defs

/-!
# Decimal arithmetic

Packed decimal numbers are added and subtracted a byte at a time: the binary operation,
then DAB. `doDab` corrects a sum. It does not look at the DA flag, so it corrects the
byte of a difference the same way; `decimal_exact_iff` tells when that does no harm.
-/

namespace C900

/-! ## Packed decimal numbers -/

/-- A byte of two decimal digits. -/
abbrev DecimalByte := {v : Byte // v.toNat % 16 ≤ 9 ∧ v.toNat / 16 ≤ 9}

/-- The number of a byte of two decimal digits. -/
def DecimalByte.value (v : DecimalByte) : Nat := v.val.toNat / 16 * 10 + v.val.toNat % 16

/-- Both digits of a byte are at least the digits of another. -/
def DecimalByte.Covers (a b : DecimalByte) : Prop :=
  b.val.toNat % 16 ≤ a.val.toNat % 16 ∧ b.val.toNat / 16 ≤ a.val.toNat / 16

/-- The number of a packed decimal string, least significant byte first. -/
def decimalNumber (bytes : List DecimalByte) : Nat := Nat.ofDigits 100 (bytes.map DecimalByte.value)

/-- The byte of a number below 100. -/
def packByte (v : Nat) : Byte := BitVec.ofNat 8 (v / 10 * 16 + v % 10)

/-- The last `2 * n` decimal digits of a number, packed, least significant byte first. -/
def packed : Nat → Nat → List Byte
  | 0, _ => []
  | n + 1, v => packByte (v % 100) :: packed n (v / 100)

theorem packed_succ (n v : Nat) : packed (n + 1) v = packByte (v % 100) :: packed n (v / 100) := rfl

theorem packed_mod (n v : Nat) : packed n (v % 100 ^ n) = packed n v := by
  induction n generalizing v with
  | zero => rfl
  | succ n inductionHypothesis =>
    have digit : v % 100 ^ (n + 1) % 100 = v % 100 :=
      Nat.mod_mod_of_dvd v ⟨100 ^ n, by rw [Nat.pow_succ, Nat.mul_comm]⟩
    have quotient : v % 100 ^ (n + 1) / 100 = v / 100 % 100 ^ n := by
      rw [Nat.pow_succ, Nat.mul_comm, Nat.mod_mul_right_div_self]
    rw [packed_succ, packed_succ, digit, quotient, inductionHypothesis]

theorem packByte_toNat {v : Nat} (small : v < 100) :
    (packByte v).toNat = v / 10 * 16 + v % 10 := by
  rw [packByte, BitVec.toNat_ofNat]
  exact Nat.mod_eq_of_lt (by omega)

theorem DecimalByte.value_lt (v : DecimalByte) : v.value < 100 := by
  have digits := v.property
  unfold value
  omega

theorem decimalNumber_lt (bytes : List DecimalByte) :
    decimalNumber bytes < 100 ^ bytes.length := by
  rw [← List.length_map DecimalByte.value]
  refine Nat.ofDigits_lt_base_pow_length (by decide) fun v member => ?_
  obtain ⟨byte, -, rfl⟩ := List.mem_map.mp member
  exact byte.value_lt

theorem decimalNumber_cons (byte : DecimalByte) (bytes : List DecimalByte) :
    decimalNumber (byte :: bytes) = byte.value + 100 * decimalNumber bytes :=
  Nat.ofDigits_cons

/-! ## The adjustment -/

/-- The low digit has to be corrected. -/
def lowCorrection (v : Nat) (h : Bool) : Bool := decide (9 < v % 16) || h

/-- The byte behind the correction of its low digit. -/
def lowCorrected (v : Nat) (h : Bool) : Nat := if lowCorrection v h then (v + 6) % 256 else v

/-- The high digit has to be corrected. -/
def highCorrection (v : Nat) (h c : Bool) : Bool :=
  decide (9 < lowCorrected v h / 16) ||
    (c || (lowCorrection v h && decide (lowCorrected v h < 16)))

/-- The byte behind both corrections. -/
def adjusted (v : Nat) (h c : Bool) : Nat :=
  if highCorrection v h c then (lowCorrected v h + 0x60) % 256 else lowCorrected v h

/-- What `do_dab` makes of a byte, in numbers. -/
theorem doDab_spec (v : Quad) (h c : Bool) (small : v.toNat < 256) :
    (doDab v h c).value.toNat = adjusted v.toNat h c ∧
      raised (doDab v h c).flags fC = highCorrection v.toNat h c := by
  have byte : (v.setWidth 8).toNat = v.toNat := by
    rw [BitVec.toNat_setWidth, Nat.mod_eq_of_lt small]
  have low : (decide (9 < (v.setWidth 8 &&& (0x0F : Byte)).toNat) || h) =
      lowCorrection v.toNat h := by
    rw [BitVec.toNat_and, byte]
    exact congrArg (fun n => decide (9 < n) || h) (Nat.and_two_pow_sub_one_eq_mod _ 4)
  have fixed : (if lowCorrection v.toNat h = true then v.setWidth 8 + (0x06 : Byte)
      else v.setWidth 8).toNat = lowCorrected v.toNat h := by
    rw [lowCorrected]
    split
    · rw [BitVec.toNat_add, byte]
      rfl
    · exact byte
  have halves : ∀ x : Byte, (x >>> 4).toNat = x.toNat / 16 ∧
      (x &&& 0xF0 == 0) = decide (x.toNat < 16) := by
    decide
  have carry : ∀ z s p e : Bool,
      raised (flagIf z fZ ||| flagIf s fS ||| flagIf p fPv ||| flagIf e fC) fC = e := by
    decide
  have absorbed : ∀ d e : Bool, (e || (d || e)) = (d || e) := by decide
  unfold doDab
  dsimp only
  rw [low, (halves _).1, (halves _).2, fixed, ← highCorrection, adjusted]
  constructor
  · rw [BitVec.toNat_setWidth, Nat.mod_eq_of_lt (Nat.lt_trans (BitVec.isLt _) (by decide))]
    split
    · rw [BitVec.toNat_add, fixed]
      rfl
    · exact fixed
  · exact (carry _ _ _ _).trans (absorbed _ _)

/-- The correction of a sum of two decimal digits over a sum of two digits and a carry,
with the half carry and the carry of the binary addition. -/
theorem adjusted_sum {high low : Nat} (smallHigh : high ≤ 18) (smallLow : low ≤ 19) :
    let s := 16 * high + low
    let half := decide (16 ≤ low)
    let carry := decide (256 ≤ s)
    let digits := 10 * high + low
    adjusted (s % 256) half carry = digits % 100 / 10 * 16 + digits % 10 ∧
      highCorrection (s % 256) half carry = decide (100 ≤ digits) := by
  intro s half carry digits
  have correct : lowCorrection (s % 256) half = decide (10 ≤ low) := by
    rw [lowCorrection, Bool.eq_iff_iff]
    simp only [half, s, Bool.or_eq_true, decide_eq_true_eq]
    omega
  -- The low digit is `ones`, and `tens` counts the digit above with its carry.
  obtain ⟨tens, ones, small, count, apart⟩ : ∃ tens ones, ones ≤ 9 ∧ tens ≤ 19 ∧
      (low ≤ 9 ∧ high = tens ∧ low = ones ∨ 10 ≤ low ∧ high + 1 = tens ∧ low = ones + 10) := by
    rcases Nat.lt_or_ge low 10 with one | two
    · exact ⟨high, low, by omega⟩
    · exact ⟨high + 1, low - 10, by omega⟩
  have value : digits = 10 * tens + ones := by omega
  have corrected : lowCorrected (s % 256) half = 16 * (tens % 16) + ones := by
    rw [lowCorrected, correct]
    simp only [decide_eq_true_eq]
    split <;> omega
  have top : lowCorrected (s % 256) half / 16 = tens % 16 := by omega
  have carried : highCorrection (s % 256) half carry = decide (100 ≤ digits) := by
    rw [highCorrection, top, corrected, correct, Bool.eq_iff_iff]
    simp only [carry, Bool.or_eq_true, Bool.and_eq_true, decide_eq_true_eq]
    omega
  refine ⟨?_, carried⟩
  rw [adjusted, carried, corrected, value]
  simp only [decide_eq_true_eq]
  split
  · have tenth : (10 * tens + ones) % 100 / 10 = tens - 10 := by omega
    have last : (10 * tens + ones) % 10 = ones := by omega
    rw [tenth, last]
    rcases Nat.lt_or_ge tens 16 with one | two
    · rw [Nat.mod_eq_of_lt one]
      omega
    · have wrapped : tens % 16 = tens - 16 := by omega
      rw [wrapped]
      omega
  · have tenth : (10 * tens + ones) % 100 / 10 = tens := by omega
    have last : (10 * tens + ones) % 10 = ones := by omega
    rw [tenth, last, Nat.mod_eq_of_lt (by omega : tens < 16)]
    omega

/-- The same correction of a difference is right exactly if no digit borrows: a half borrow
moves the low digit six up where it has to go six down, a borrow does so with the high
digit. -/
theorem adjusted_difference {ha la hb lb : Nat} (smallHa : ha ≤ 9) (smallLa : la ≤ 9)
    (smallHb : hb ≤ 9) (smallLb : lb ≤ 9) :
    let d := (16 * ha + la + 256 - (16 * hb + lb)) % 256
    let half := decide (la < lb)
    let borrow := decide (16 * ha + la < 16 * hb + lb)
    let digits := 10 * ha + la + 100 - (10 * hb + lb)
    (adjusted d half borrow = digits % 100 / 10 * 16 + digits % 10 ↔ lb ≤ la ∧ hb ≤ ha) ∧
      (lb ≤ la → hb ≤ ha → highCorrection d half borrow = false) := by
  intro d half borrow digits
  by_cases low : lb ≤ la
  · have unhalved : half = false := decide_eq_false (Nat.not_lt.mpr low)
    have uncorrected : lowCorrection d half = false := by
      rw [lowCorrection, unhalved, Bool.or_false, decide_eq_false_iff_not]
      omega
    have kept : lowCorrected d half = d := by rw [lowCorrected, uncorrected, if_neg Bool.false_ne_true]
    obtain ⟨p, rfl⟩ := Nat.exists_eq_add_of_le low
    by_cases high : hb ≤ ha
    · obtain ⟨q, rfl⟩ := Nat.exists_eq_add_of_le high
      have value : d = 16 * q + p := by omega
      have difference : digits = 100 + 10 * q + p := by omega
      have carried : highCorrection d half borrow = false := by
        rw [highCorrection, kept, uncorrected, Bool.false_and, Bool.or_false, Bool.or_eq_false_iff]
        exact ⟨decide_eq_false (by omega), decide_eq_false (by omega)⟩
      refine ⟨⟨fun _ => ⟨low, high⟩, fun _ => ?_⟩, fun _ _ => carried⟩
      rw [adjusted, carried, if_neg Bool.false_ne_true, kept, value, difference]
      omega
    · obtain ⟨q, rfl⟩ := Nat.exists_eq_add_of_lt (Nat.not_le.mp high)
      have value : d = 240 - 16 * q + p := by omega
      have difference : digits = 10 * (9 - q) + p := by omega
      have carried : highCorrection d half borrow = true := by
        have borrows : borrow = true := decide_eq_true (by omega)
        rw [highCorrection, borrows, Bool.true_or, Bool.or_true]
      refine ⟨⟨fun right => ?_, fun both => absurd both.2 high⟩, fun _ both => absurd both high⟩
      rw [adjusted, carried, if_pos rfl, kept, value, difference] at right
      omega
  · obtain ⟨p, rfl⟩ := Nat.exists_eq_add_of_lt (Nat.not_le.mp low)
    have lastHex : d % 16 = 15 - p := by omega
    have lastDigit : digits % 10 = 9 - p := by omega
    have halved : half = true := decide_eq_true (Nat.not_le.mp low)
    have corrected : lowCorrected d half = (d + 6) % 256 := by
      rw [lowCorrected, lowCorrection, halved, Bool.or_true, if_pos rfl]
    refine ⟨⟨fun right => ?_, fun both => absurd both.1 low⟩, fun both => absurd both low⟩
    have last : adjusted d half borrow % 16 = (d + 6) % 16 := by
      rw [adjusted, corrected]
      split <;> omega
    rw [right, lastDigit] at last
    omega

/-! ## The instructions -/

section Instructions

variable (m : Machine) (operands : Fin 6 → Word) (d s : Reg)

/-- A byte operation from register to register. -/
theorem perform_byte {hi : Byte} {name : String} {op : AluOp} (result : op ≠ .cp)
    (slot : rom.lookup hi.toNat = some (.ctrl (mkReg name op .byte))) :
    let r := aluExec op ((m.cpu.rb d).setWidth 64) ((m.cpu.rb s).setWidth 64) m.cpu.carry .byte
    let x := m.perform (codeWords (instruction hi s d) operands)
    x.cpu.rb d = r.value.setWidth 8 ∧ x.cpu.fcw = (m.cpu.applyFlags r).fcw := by
  intro r x
  let f := m.cpu.fetchedWith (codeWords (instruction hi s d) operands)
  have run : x = (execute (mkReg name op .byte) { m with cpu := f }).2 :=
    m.perform_decoded fun _ => Instruction.decode_ctrl _ slot
  have word : mkReg name op .byte = { mkReg name op .byte with dst := .reg } := by
    rw [mkReg, if_neg result]
  have first : nib2 (f.opcode 0) = s := Instruction.nib2_eq hi s d
  have second : nib3 (f.opcode 0) = d := Instruction.nib3_eq hi s d
  have cpu : x.cpu =
      let r := aluExec op ((f.rb (nib3 (f.opcode 0))).setWidth 64)
        ((f.rb (nib2 (f.opcode 0))).setWidth 64) f.carry .byte
      (f.applyFlags r).wb (nib3 (f.opcode 0)) (r.value.setWidth 8) := by
    rw [run, word]
    rfl
  rw [first, second] at cpu
  rw [cpu]
  exact ⟨Cpu.wb_rb _ _ _, Cpu.wb_fcw _ _ _⟩

/-- The decimal adjustment of a register. -/
theorem perform_dab :
    let r := doDab ((m.cpu.rb d).setWidth 64) (raised m.cpu.fcw fH) m.cpu.carry
    let x := m.perform (codeWords (instruction 0xB0 d 0) operands)
    x.cpu.rb d = r.value.setWidth 8 ∧ x.cpu.carry = raised r.flags fC := by
  intro r x
  let f := m.cpu.fetchedWith (codeWords (instruction 0xB0 d 0) operands)
  have run : x = (execute { name := "DAB", exec := .dab } { m with cpu := f }).2 :=
    m.perform_decoded fun _ => Instruction.decode_ctrl _ rfl
  have target : nib2 (f.opcode 0) = d := Instruction.nib2_eq 0xB0 d 0
  have half : ((if m.cpu.fcw &&& fH != 0 then 1 else 0 : Quad) &&& 1 != 0) =
      raised m.cpu.fcw fH := by
    rw [raised]
    cases m.cpu.fcw &&& fH != 0 <;> rfl
  have cpu : x.cpu =
      let r := doDab ((f.rb (nib2 (f.opcode 0))).setWidth 64)
        ((if m.cpu.fcw &&& fH != 0 then 1 else 0 : Quad) &&& 1 != 0) f.carry
      (f.wb (nib2 (f.opcode 0)) (r.value.setWidth 8)).applyFlags r := by
    rw [run]
    rfl
  rw [target, half] at cpu
  have masked : (fC ||| fZ ||| fS) &&& fC = fC := by decide
  rw [cpu]
  exact ⟨Cpu.wb_rb _ _ _, Cpu.applyFlags_affected _ _ masked⟩

end Instructions

/-! ## The decimal loop -/

namespace Machine

variable (m : Machine) (operands : Fin 6 → Word) (d s : Reg)

/-- A byte operation on two bytes loaded into registers. -/
def operateBytes (hi : Byte) (a b : Byte) : Machine :=
  { m with cpu := (m.cpu.wb d a).wb s b }.perform (codeWords (C900.instruction hi s d) operands)

/-- The byte operation followed by DAB. -/
def decimalByte (hi : Byte) (a b : Byte) : Machine :=
  (m.operateBytes operands d s hi a b).perform (codeWords (C900.instruction 0xB0 d 0) operands)

/-- The bytes of two packed numbers, least significant first: the first operation on the
first pair, the one with a carry on the others. The results are collected. -/
def decimalRun (later : Byte) : Byte → List (DecimalByte × DecimalByte) → Machine →
    List Byte × Machine
  | _, [], m => ([], m)
  | hi, (a, b) :: rest, m =>
    let x := m.decimalByte operands d s hi a.val b.val
    let y := decimalRun later later rest x
    (x.cpu.rb d :: y.1, y.2)

/-- The carry that enters a byte operation. -/
def carryInto (later hi : Byte) : Bool := hi == later && m.cpu.carry

variable {d s} (a b : Byte)

/-- The operation leaves its result and its flags. -/
theorem operateBytes_spec (apart : d ≠ s) {hi : Byte} {name : String} {op : AluOp} (result : op ≠ .cp)
    (slot : rom.lookup hi.toNat = some (.ctrl (mkReg name op .byte))) :
    let r := aluExec op (a.setWidth 64) (b.setWidth 64) m.cpu.carry .byte
    let x := m.operateBytes operands d s hi a b
    r.mask = addMask .byte → x.cpu.rb d = r.value.setWidth 8 ∧
      ∀ flag, addMask .byte &&& flag = flag → raised x.cpu.fcw flag = raised r.flags flag := by
  intro r x mask
  let loaded : Machine := { m with cpu := (m.cpu.wb d a).wb s b }
  have first : loaded.cpu.rb d = a := by rw [Cpu.wb_rb_of_ne _ apart, Cpu.wb_rb]
  have second : loaded.cpu.rb s = b := Cpu.wb_rb _ _ _
  have carry : loaded.cpu.carry = m.cpu.carry := by
    rw [Cpu.carry, Cpu.wb_fcw, Cpu.wb_fcw]
    rfl
  obtain ⟨value, flags⟩ := perform_byte loaded operands d s result slot
  rw [first, second, carry] at value flags
  exact ⟨value, fun flag affected => (congrArg (raised · flag) flags).trans
    (loaded.cpu.applyFlags_affected _ (mask.symm ▸ affected))⟩

/-- The adjusted byte and the decimal carry, in numbers. -/
theorem decimalByte_spec {hi : Byte} {r : AluResult} (small : r.value.toNat < 256)
    (value : (m.operateBytes operands d s hi a b).cpu.rb d = r.value.setWidth 8)
    (flags : ∀ flag, addMask .byte &&& flag = flag →
      raised (m.operateBytes operands d s hi a b).cpu.fcw flag = raised r.flags flag) :
    let x := m.decimalByte operands d s hi a b
    (x.cpu.rb d).toNat = adjusted r.value.toNat (raised r.flags fH) (raised r.flags fC) ∧
      x.cpu.carry = highCorrection r.value.toNat (raised r.flags fH) (raised r.flags fC) := by
  intro x
  obtain ⟨byte, carry⟩ := perform_dab (m.operateBytes operands d s hi a b) operands d
  have same : ((r.value.setWidth 8).setWidth 64).toNat = r.value.toNat := by
    rw [BitVec.toNat_setWidth, BitVec.toNat_setWidth, Nat.mod_eq_of_lt small,
      Nat.mod_eq_of_lt (Nat.lt_trans small (by decide))]
  have carried : (m.operateBytes operands d s hi a b).cpu.carry = raised r.flags fC :=
    flags fC (by decide)
  rw [value, flags fH (by decide), carried] at byte carry
  obtain ⟨toNat, high⟩ := doDab_spec ((r.value.setWidth 8).setWidth 64) (raised r.flags fH)
    (raised r.flags fC) (same ▸ small)
  rw [same] at toNat high
  refine ⟨?_, carry.trans high⟩
  have bound : adjusted r.value.toNat (raised r.flags fH) (raised r.flags fC) < 256 := by
    rw [adjusted, lowCorrected]
    split <;> split <;> omega
  rw [← toNat] at bound ⊢
  exact (congrArg BitVec.toNat byte).trans ((BitVec.toNat_setWidth ..).trans (Nat.mod_eq_of_lt bound))

end Machine

section Loop

theorem toNat_wide (v : Byte) : (v.setWidth 64 : Quad).toNat = v.toNat := by
  rw [BitVec.toNat_setWidth, Nat.mod_eq_of_lt (Nat.lt_of_lt_of_le v.isLt (by decide))]

theorem unsigned_byte (v : Byte) : Width.unsigned .byte (v.setWidth 64) = v.toNat := by
  rw [Width.unsigned_of_lt, toNat_wide]
  rw [toNat_wide]
  exact v.isLt

theorem toNat_digits (v : DecimalByte) :
    v.val.toNat = 16 * (v.val.toNat / 16) + v.val.toNat % 16 := (Nat.div_add_mod _ _).symm

variable (m : Machine) (operands : Fin 6 → Word) {d s : Reg} (apart : d ≠ s)

include apart

/-- ADDB and ADCB on two bytes. -/
theorem operateBytes_add {hi : Byte} (add : hi = 0x80 ∨ hi = 0xB4) (a b : Byte) :
    let r := doAdd (a.setWidth 64) (b.setWidth 64) (m.carryInto 0xB4 hi) .byte
    let x := m.operateBytes operands d s hi a b
    x.cpu.rb d = r.value.setWidth 8 ∧
      ∀ flag, addMask .byte &&& flag = flag → raised x.cpu.fcw flag = raised r.flags flag := by
  rcases add with rfl | rfl
  · have slot : rom.lookup (0x80 : Byte).toNat = some (.ctrl (mkReg "ADDB" .add .byte)) := rfl
    exact m.operateBytes_spec operands a b apart (by decide) slot rfl
  · have slot : rom.lookup (0xB4 : Byte).toNat = some (.ctrl (mkReg "ADCB" .adc .byte)) := rfl
    exact m.operateBytes_spec operands a b apart (by decide) slot rfl

/-- SUBB and SBCB on two bytes. -/
theorem operateBytes_sub {hi : Byte} (sub : hi = 0x82 ∨ hi = 0xB6) (a b : Byte) :
    let r := doSub (a.setWidth 64) (b.setWidth 64) (m.carryInto 0xB6 hi) .byte
    let x := m.operateBytes operands d s hi a b
    x.cpu.rb d = r.value.setWidth 8 ∧
      ∀ flag, addMask .byte &&& flag = flag → raised x.cpu.fcw flag = raised r.flags flag := by
  rcases sub with rfl | rfl
  · have slot : rom.lookup (0x82 : Byte).toNat = some (.ctrl (mkReg "SUBB" .sub .byte)) := rfl
    exact m.operateBytes_spec operands a b apart (by decide) slot rfl
  · have slot : rom.lookup (0xB6 : Byte).toNat = some (.ctrl (mkReg "SBCB" .sbc .byte)) := rfl
    exact m.operateBytes_spec operands a b apart (by decide) slot rfl

/-- One byte of a sum is right, and so is its carry. -/
theorem decimalByte_sum {hi : Byte} (add : hi = 0x80 ∨ hi = 0xB4) (a b : DecimalByte) :
    let x := m.decimalByte operands d s hi a.val b.val
    let sum := a.value + b.value + (m.carryInto 0xB4 hi).toNat
    x.cpu.rb d = packByte (sum % 100) ∧ x.cpu.carry = decide (100 ≤ sum) := by
  intro x sum
  obtain ⟨byte, flags⟩ := operateBytes_add m operands apart add a.val b.val
  have result := doAdd_isSum (a.val.setWidth 64) (b.val.setWidth 64) (m.carryInto 0xB4 hi) .byte
  have carryBit := Bool.toNat_le (m.carryInto 0xB4 hi)
  have digitsA := a.property
  have digitsB := b.property
  have splitA := toNat_digits a
  have splitB := toNat_digits b
  have exact := result.exact
  rw [unsigned_byte, unsigned_byte] at exact
  have value : (doAdd (a.val.setWidth 64) (b.val.setWidth 64) (m.carryInto 0xB4 hi) .byte).value.toNat =
      (16 * (a.val.toNat / 16 + b.val.toNat / 16) +
        (a.val.toNat % 16 + b.val.toNat % 16 + (m.carryInto 0xB4 hi).toNat)) % 256 := by
    have value := exact.value
    simp only [Width.bits] at value
    omega
  have half := (Bool.eq_iff_iff.mpr ((result.half rfl).trans decide_eq_true_iff.symm))
  rw [toNat_wide, toNat_wide] at half
  have carry : raised (doAdd (a.val.setWidth 64) (b.val.setWidth 64) (m.carryInto 0xB4 hi) .byte).flags fC =
      decide (256 ≤ 16 * (a.val.toNat / 16 + b.val.toNat / 16) +
        (a.val.toNat % 16 + b.val.toNat % 16 + (m.carryInto 0xB4 hi).toNat)) := by
    rw [Bool.eq_iff_iff, exact.carry, decide_eq_true_eq]
    simp only [Width.bits]
    omega
  obtain ⟨toNat, high⟩ := m.decimalByte_spec operands a.val b.val
    (value ▸ Nat.mod_lt _ (by decide)) byte flags
  obtain ⟨right, carried⟩ := adjusted_sum
    (show a.val.toNat / 16 + b.val.toNat / 16 ≤ 18 by omega)
    (show a.val.toNat % 16 + b.val.toNat % 16 + (m.carryInto 0xB4 hi).toNat ≤ 19 by omega)
  rw [value, half, carry] at toNat high
  have number : 10 * (a.val.toNat / 16 + b.val.toNat / 16) +
      (a.val.toNat % 16 + b.val.toNat % 16 + (m.carryInto 0xB4 hi).toNat) = sum := by
    show _ = a.value + b.value + _
    unfold DecimalByte.value
    omega
  rw [number] at right carried
  refine ⟨BitVec.eq_of_toNat_eq ?_, high.trans carried⟩
  rw [packByte_toNat (Nat.mod_lt _ (by decide)), toNat, right]
  omega

/-- One byte of a difference into which nothing is borrowed is right exactly if none of
its digits borrows. -/
theorem decimalByte_difference {hi : Byte} (sub : hi = 0x82 ∨ hi = 0xB6)
    (unborrowed : m.carryInto 0xB6 hi = false) (a b : DecimalByte) :
    let x := m.decimalByte operands d s hi a.val b.val
    (x.cpu.rb d = packByte ((a.value + 100 - b.value) % 100) ↔ a.Covers b) ∧
      (a.Covers b → x.cpu.carry = false) := by
  intro x
  obtain ⟨byte, flags⟩ := operateBytes_sub m operands apart sub a.val b.val
  have result := doSub_isDifference (a.val.setWidth 64) (b.val.setWidth 64) false .byte
  rw [unborrowed] at byte flags
  have digitsA := a.property
  have digitsB := b.property
  have splitA := toNat_digits a
  have splitB := toNat_digits b
  have exact := result.exact
  rw [unsigned_byte, unsigned_byte] at exact
  have value : (doSub (a.val.setWidth 64) (b.val.setWidth 64) false .byte).value.toNat =
      (16 * (a.val.toNat / 16) + a.val.toNat % 16 + 256 -
        (16 * (b.val.toNat / 16) + b.val.toNat % 16)) % 256 := by
    have value := exact.value
    simp only [Width.bits, Bool.toNat_false] at value
    omega
  have half := (Bool.eq_iff_iff.mpr ((result.half rfl).trans decide_eq_true_iff.symm))
  rw [toNat_wide, toNat_wide] at half
  have borrow : raised (doSub (a.val.setWidth 64) (b.val.setWidth 64) false .byte).flags fC =
      decide (16 * (a.val.toNat / 16) + a.val.toNat % 16 <
        16 * (b.val.toNat / 16) + b.val.toNat % 16) := by
    rw [Bool.eq_iff_iff, exact.carry, decide_eq_true_eq]
    simp only [Width.bits, Bool.toNat_false]
    omega
  obtain ⟨toNat, high⟩ := m.decimalByte_spec operands a.val b.val
    (value ▸ Nat.mod_lt _ (by decide)) byte flags
  obtain ⟨right, carried⟩ := adjusted_difference digitsA.2 digitsA.1 digitsB.2 digitsB.1
  rw [value, half, borrow] at toNat high
  have number : 10 * (a.val.toNat / 16) + a.val.toNat % 16 + 100 -
      (10 * (b.val.toNat / 16) + b.val.toNat % 16) = a.value + 100 - b.value := by
    unfold DecimalByte.value
    omega
  rw [number] at right
  refine ⟨?_, fun covers => high.trans (carried covers.1 covers.2)⟩
  have tens : (a.value + 100 - b.value) % 100 % 10 = (a.value + 100 - b.value) % 10 := by omega
  rw [DecimalByte.Covers, ← right, ← BitVec.toNat_inj, packByte_toNat (Nat.mod_lt _ (by decide)), toNat, tens]
  rfl

/-- The sum of two packed numbers and the carry into the first byte. -/
theorem decimalRun_sum {hi : Byte} (add : hi = 0x80 ∨ hi = 0xB4)
    (pairs : List (DecimalByte × DecimalByte)) :
    let x := m.decimalRun operands d s 0xB4 hi pairs
    let sum := decimalNumber (pairs.map Prod.fst) + decimalNumber (pairs.map Prod.snd) +
      (m.carryInto 0xB4 hi).toNat
    x.1 = packed pairs.length sum ∧
      (pairs ≠ [] → x.2.cpu.carry = decide (100 ^ pairs.length ≤ sum)) := by
  induction pairs generalizing m hi with
  | nil => exact ⟨rfl, fun nonempty => absurd rfl nonempty⟩
  | cons pair rest inductionHypothesis =>
    obtain ⟨a, b⟩ := pair
    let x := m.decimalByte operands d s hi a.val b.val
    obtain ⟨byte, carry⟩ := decimalByte_sum m operands apart add a b
    obtain ⟨bytes, carried⟩ := inductionHypothesis x (Or.inr rfl)
    have into : x.carryInto 0xB4 0xB4 = decide (100 ≤ a.value + b.value +
        (m.carryInto 0xB4 hi).toNat) := carry
    rw [List.map_cons, List.map_cons, decimalNumber_cons, decimalNumber_cons]
    rw [into] at bytes carried
    have carryBit := Bool.toNat_le (m.carryInto 0xB4 hi)
    have boundA := a.value_lt
    have boundB := b.value_lt
    -- The carry out of this byte is the quotient of its sum.
    have quotient : (a.value + 100 * decimalNumber (rest.map Prod.fst) + (b.value +
        100 * decimalNumber (rest.map Prod.snd)) + (m.carryInto 0xB4 hi).toNat) / 100 =
        decimalNumber (rest.map Prod.fst) + decimalNumber (rest.map Prod.snd) +
          (decide (100 ≤ a.value + b.value + (m.carryInto 0xB4 hi).toNat)).toNat := by
      by_cases full : 100 ≤ a.value + b.value + (m.carryInto 0xB4 hi).toNat
      · rw [decide_eq_true full, Bool.toNat_true]
        omega
      · rw [decide_eq_false full, Bool.toNat_false]
        omega
    have digit : (a.value + 100 * decimalNumber (rest.map Prod.fst) + (b.value +
        100 * decimalNumber (rest.map Prod.snd)) + (m.carryInto 0xB4 hi).toNat) % 100 =
        (a.value + b.value + (m.carryInto 0xB4 hi).toNat) % 100 := by
      omega
    refine ⟨?_, fun _ => ?_⟩
    · rw [List.length_cons, packed, digit, quotient, ← bytes, ← byte]
      rfl
    · have grows : decide (100 ^ (rest.length + 1) ≤
          a.value + 100 * decimalNumber (rest.map Prod.fst) +
            (b.value + 100 * decimalNumber (rest.map Prod.snd)) + (m.carryInto 0xB4 hi).toNat) =
          decide (100 ^ rest.length ≤
            decimalNumber (rest.map Prod.fst) + decimalNumber (rest.map Prod.snd) +
              (decide (100 ≤ a.value + b.value + (m.carryInto 0xB4 hi).toNat)).toNat) := by
        rw [decide_eq_decide, ← quotient, Nat.pow_succ, Nat.le_div_iff_mul_le (by decide)]
      refine Eq.trans ?_ grows.symm
      by_cases last : rest = []
      · subst last
        refine carry.trans ?_
        cases decide (100 ≤ a.value + b.value + (m.carryInto 0xB4 hi).toNat) <;> rfl
      · exact carried last

/-- The difference of two packed numbers is right exactly if no digit borrows. -/
theorem decimalRun_difference {hi : Byte} (sub : hi = 0x82 ∨ hi = 0xB6)
    (unborrowed : m.carryInto 0xB6 hi = false) (pairs : List (DecimalByte × DecimalByte)) :
    let x := m.decimalRun operands d s 0xB6 hi pairs
    let a := decimalNumber (pairs.map Prod.fst)
    let b := decimalNumber (pairs.map Prod.snd)
    (x.1 = packed pairs.length (a + 100 ^ pairs.length - b) ↔ ∀ p ∈ pairs, p.1.Covers p.2) ∧
      ((∀ p ∈ pairs, p.1.Covers p.2) → b ≤ a ∧ (pairs ≠ [] → x.2.cpu.carry = false)) := by
  induction pairs generalizing m hi with
  | nil =>
    refine ⟨⟨fun _ p member => absurd member List.not_mem_nil, fun _ => rfl⟩, fun _ => ?_⟩
    exact ⟨Nat.le_refl _, fun nonempty => absurd rfl nonempty⟩
  | cons pair rest inductionHypothesis =>
    obtain ⟨a, b⟩ := pair
    let x := m.decimalByte operands d s hi a.val b.val
    obtain ⟨byte, carry⟩ := decimalByte_difference m operands apart sub unborrowed a b
    have bound := decimalNumber_lt (rest.map Prod.snd)
    rw [List.length_map] at bound
    have boundA := a.value_lt
    have boundB := b.value_lt
    rw [List.map_cons, List.map_cons, decimalNumber_cons, decimalNumber_cons, List.forall_mem_cons,
      List.length_cons, Nat.pow_succ]
    have digit : (a.value + 100 * decimalNumber (rest.map Prod.fst) + 100 ^ rest.length * 100 -
        (b.value + 100 * decimalNumber (rest.map Prod.snd))) % 100 =
        (a.value + 100 - b.value) % 100 := by
      omega
    have quotient : b.value ≤ a.value → (a.value + 100 * decimalNumber (rest.map Prod.fst) +
        100 ^ rest.length * 100 - (b.value + 100 * decimalNumber (rest.map Prod.snd))) / 100 =
        decimalNumber (rest.map Prod.fst) + 100 ^ rest.length -
          decimalNumber (rest.map Prod.snd) := by
      intro covered
      omega
    dsimp only
    rw [packed_succ, digit]
    have equal : (m.decimalRun operands d s 0xB6 hi ((a, b) :: rest)).1 =
        x.cpu.rb d :: (x.decimalRun operands d s 0xB6 0xB6 rest).1 := rfl
    rw [equal, List.cons.injEq]
    have least : a.Covers b → b.value ≤ a.value := by
      intro covers
      have low := covers.1
      have high := covers.2
      unfold DecimalByte.value
      omega
    refine ⟨⟨fun right => ?_, fun covers => ?_⟩, fun covers => ?_⟩
    · have first := byte.mp right.1
      obtain ⟨bytes, -⟩ := inductionHypothesis x (Or.inr rfl) (carry first)
      exact ⟨first, bytes.mp (right.2.trans (congrArg (packed rest.length) (quotient (least first))))⟩
    · obtain ⟨bytes, -⟩ := inductionHypothesis x (Or.inr rfl) (carry covers.1)
      exact ⟨byte.mpr covers.1, (bytes.mpr covers.2).trans
        (congrArg (packed rest.length) (quotient (least covers.1)).symm)⟩
    · obtain ⟨-, rest_le⟩ := inductionHypothesis x (Or.inr rfl) (carry covers.1)
      obtain ⟨order, carried⟩ := rest_le covers.2
      have first := least covers.1
      refine ⟨by omega, fun _ => ?_⟩
      by_cases last : rest = []
      · subst last
        exact carry covers.1
      · exact carried last

end Loop

/-- DAB does the same whether DA is raised or not. -/
theorem decimalAdjust_da (c : Cpu) :
    let t : Cpu := { c with fcw := c.fcw ^^^ fDa }
    t.decimalAdjust.R = c.decimalAdjust.R ∧ t.decimalAdjust.carry = c.decimalAdjust.carry := by
  intro t
  have toggled : ∀ flag, fDa &&& flag = 0 → t.fcw &&& flag = c.fcw &&& flag := by
    intro flag other
    show (c.fcw ^^^ fDa) &&& flag = c.fcw &&& flag
    ext i bound
    have apart : (fDa[i] && flag[i]) = false := by
      rw [← BitVec.getElem_and, other]
      exact BitVec.getElem_zero (h := bound)
    simp only [BitVec.getElem_and, BitVec.getElem_xor]
    revert apart
    cases fDa[i] <;> cases flag[i] <;> simp
  have half := toggled fH (by decide)
  have carry : t.carry = c.carry := congrArg (· != 0) (toggled fC (by decide))
  let result (half : Bool) (carry : Bool) : AluResult :=
    aluExec .dab ((c.rb (nib2 (c.opcode 0))).setWidth 64) (if half then 1 else 0) carry .byte
  have same : result (t.fcw &&& fH != 0) t.carry = result (c.fcw &&& fH != 0) c.carry := by
    rw [half, carry]
  have masked : (fC ||| fZ ||| fS) &&& fC = fC := by decide
  have adjusted : t.decimalAdjust =
      (t.wb (nib2 (c.opcode 0)) ((result (t.fcw &&& fH != 0) t.carry).value.setWidth 8)).applyFlags
        (result (t.fcw &&& fH != 0) t.carry) := rfl
  have registers (r : Reg) (v : Byte) : (t.wb r v).R = (c.wb r v).R := by
    unfold Cpu.wb
    split <;> rfl
  rw [adjusted, same]
  exact ⟨registers _ _, (Cpu.applyFlags_affected _ _ masked).trans
    (Cpu.applyFlags_affected _ _ masked).symm⟩

/-- ADDB and ADCB with DAB leave the digits and the decimal carry of a sum. -/
def SumExact (m : Machine) (operands : Fin 6 → Word) (d s : Reg)
    (pairs : List (DecimalByte × DecimalByte)) : Prop :=
  let n := pairs.length
  let a := decimalNumber (pairs.map Prod.fst)
  let b := decimalNumber (pairs.map Prod.snd)
  let sum := m.decimalRun operands d s 0xB4 0x80 pairs
  sum.1 = packed n ((a + b) % 100 ^ n) ∧
    (pairs ≠ [] → sum.2.cpu.carry = decide (100 ^ n ≤ a + b))

/-- SUBB and SBCB with DAB leave the digits and the decimal borrow of a difference. -/
def DifferenceExact (m : Machine) (operands : Fin 6 → Word) (d s : Reg)
    (pairs : List (DecimalByte × DecimalByte)) : Prop :=
  let n := pairs.length
  let a := decimalNumber (pairs.map Prod.fst)
  let b := decimalNumber (pairs.map Prod.snd)
  let difference := m.decimalRun operands d s 0xB6 0x82 pairs
  difference.1 = packed n ((a + 100 ^ n - b) % 100 ^ n) ∧
    (pairs ≠ [] → difference.2.cpu.carry = decide (a < b))

/-- Packed decimal addition is right at every length. Subtraction is right exactly if no
digit of the subtrahend exceeds the digit it is taken from: a subtraction sets DA, but DAB
does the same either way. -/
theorem decimal_exact_iff (m : Machine) (operands : Fin 6 → Word) {d s : Reg} (apart : d ≠ s)
    (pairs : List (DecimalByte × DecimalByte)) :
    SumExact m operands d s pairs ∧
      (DifferenceExact m operands d s pairs ↔ ∀ p ∈ pairs, p.1.Covers p.2) ∧
      (∀ x y : Byte,
        (∀ hi, hi = 0x80 ∨ hi = 0xB4 →
          raised (m.operateBytes operands d s hi x y).cpu.fcw fDa = false) ∧
        (∀ hi, hi = 0x82 ∨ hi = 0xB6 →
          raised (m.operateBytes operands d s hi x y).cpu.fcw fDa = true)) ∧
      ∀ c : Cpu,
        let t : Cpu := { c with fcw := c.fcw ^^^ fDa }
        t.decimalAdjust.R = c.decimalAdjust.R ∧
          t.decimalAdjust.carry = c.decimalAdjust.carry := by
  obtain ⟨bytes, carry⟩ := decimalRun_sum m operands apart (Or.inl rfl) pairs
  obtain ⟨exact, order⟩ := decimalRun_difference m operands apart (Or.inl rfl) rfl pairs
  rw [← packed_mod] at bytes exact
  refine ⟨⟨bytes, carry⟩, ⟨fun right => exact.mp right.1, fun covers =>
    ⟨exact.mpr covers, fun nonempty => ?_⟩⟩, fun x y => ⟨fun hi add => ?_, fun hi sub => ?_⟩,
    decimalAdjust_da⟩
  · obtain ⟨least, unborrowed⟩ := order covers
    rw [unborrowed nonempty]
    exact (decide_eq_false (Nat.not_lt.mpr least)).symm
  · obtain ⟨-, flags⟩ := operateBytes_add m operands apart add x y
    exact (flags fDa (by decide)).trans ((doAdd_isSum _ _ _ .byte).decimal rfl)
  · obtain ⟨-, flags⟩ := operateBytes_sub m operands apart sub x y
    exact (flags fDa (by decide)).trans ((doSub_isDifference _ _ _ .byte).decimal rfl)

/-- The pair of bytes of 10 and 1. -/
def tenAndOne : DecimalByte × DecimalByte := (⟨0x10, by decide⟩, ⟨0x01, by decide⟩)

/-- 10 minus 1 comes out as 15. -/
theorem tenMinusOne_wrong :
    ((machineNew.decimalRun (fun _ => 0) 0 1 0xB6 0x82 [tenAndOne]).1 = [0x15] ∧
      packed 1 ((10 + 100 ^ 1 - 1) % 100 ^ 1) = [0x09]) ∧
      ¬∀ (m : Machine) (operands : Fin 6 → Word) (d s : Reg), d ≠ s → ∀ pairs,
        SumExact m operands d s pairs ∧ DifferenceExact m operands d s pairs := by
  have run : (machineNew.decimalRun (fun _ => 0) 0 1 0xB6 0x82 [tenAndOne]).1 = [0x15] := by
    decide +kernel
  have right : packed 1 ((10 + 100 ^ 1 - 1) % 100 ^ 1) = [0x09] := by decide
  refine ⟨⟨run, right⟩, fun claimed => ?_⟩
  have digits := (claimed machineNew (fun _ => 0) 0 1 (by decide) [tenAndOne]).2.1
  have wrong : ([0x15] : List Byte) = [0x09] := run.symm.trans (digits.trans right)
  exact absurd wrong (by decide)

/-- 99 plus 99, and 98 minus 57. -/
theorem decimal_exact_iff_two :
    SumExact machineNew (fun _ => 0) 0 1
        [(⟨0x99, by decide⟩, ⟨0x99, by decide⟩)] ∧
      DifferenceExact machineNew (fun _ => 0) 0 1
        [(⟨0x98, by decide⟩, ⟨0x57, by decide⟩)] :=
  ⟨(decimal_exact_iff machineNew (fun _ => 0) (by decide) _).1,
    (decimal_exact_iff machineNew (fun _ => 0) (by decide) _).2.1.mpr
      (List.forall_mem_singleton.mpr ⟨by decide, by decide⟩)⟩

end C900
