import C900.Emu.State
import C900.Logic.Loop
import Mathlib.Tactic.SplitIfs

/-!
# The arithmetic and logic unit

`alu.c`. Operands and results travel as 64-bit values; the width says how much
of them counts. A result names the flags it affects in `mask`.
-/

namespace C900

/-- `AluOp`. -/
inductive AluOp where
  | add | adc | sub | sbc | and | or | xor | com | neg
  | test | cp | inc | dec | sla | sra | sll | srl | rl | rr
  | rlc | rrc | dab | exts | ld | bit | set | res | tset
deriving DecidableEq

/-- `Width`. -/
inductive Width where
  | byte | word | long
deriving DecidableEq

/-- `AluResult`. -/
structure AluResult where
  value : Quad
  flags : Word
  mask : Word

namespace Width

/-- `nbits_of`. -/
def bits : Width → Nat
  | byte => 8
  | word => 16
  | long => 32

/-- The width mask. -/
def mask : Width → Quad
  | byte => 0xFF
  | word => 0xFFFF
  | long => 0xFFFFFFFF

/-- The sign bit. -/
def sign : Width → Quad
  | byte => 0x80
  | word => 0x8000
  | long => 0x80000000

/-- A value cut to the width. -/
def trunc (w : Width) (v : Quad) : Quad := v &&& w.mask

/-- The width of the forms that know bytes and words only. -/
def short : Width → Width
  | byte => byte
  | _ => word

end Width

/-! ## Flags -/

/-- `if (p) f |= flag`, as a summand. -/
def flagIf (p : Bool) (flag : Word) : Word := if p then flag else 0

/-- `popcount8(v) & 1` is zero. -/
def evenParity (v : Byte) : Bool := (List.range 8).countP (fun i => v.getLsbD i) % 2 == 0

/-- `lflags_byte`, `lflags_word` and `lflags_long`: Z and S of the width, and
the parity of the low byte except for longs. -/
def lflags (w : Width) (v : Quad) : Word :=
  let v := w.trunc v
  flagIf (v == 0) fZ ||| flagIf (v &&& w.sign != 0) fS |||
    flagIf (w != .long && evenParity (v.setWidth 8)) fPv

/-- `logic`. -/
def aluLogic (v : Quad) (w : Width) (mask : Word) : AluResult := ⟨v, lflags w v, mask⟩

/-- The flags of a byte logical operation include parity. -/
def logicMask (w : Width) : Word := if w = .byte then fZ ||| fS ||| fPv else fZ ||| fS

/-! ## Addition and subtraction -/

/-- What `carry_chain` returns. -/
structure CarryChain where
  result : Quad
  cout : Bool
  c4 : Bool
  cmsbin : Bool

/-- `carry_chain`: bit-serial addition. -/
def carryChain (a b : Quad) (cin : Bool) (nbits : Nat) : CarryChain :=
  forUpTo nbits (fun i s =>
    let ai := a.getLsbD i
    let bi := b.getLsbD i
    let c := (ai && bi) || (bi && s.cout) || (ai && s.cout)
    { result := if (ai ^^ bi ^^ s.cout) then s.result ||| (1 <<< i) else s.result
      cout := c
      c4 := if i = 3 then c else s.c4
      cmsbin := if i = nbits - 1 then s.cout else s.cmsbin })
    { result := 0, cout := cin, c4 := false, cmsbin := false }

/-- The flags that byte arithmetic affects beyond the others. -/
def addMask (w : Width) : Word :=
  fC ||| fZ ||| fS ||| fPv ||| (if w = .byte then fDa ||| fH else 0)

/-- `do_add`. -/
def doAdd (a b : Quad) (carry : Bool) (w : Width) : AluResult :=
  let s := carryChain a b carry w.bits
  let r := w.trunc s.result
  { value := r
    flags := flagIf s.cout fC ||| flagIf (r == 0) fZ ||| flagIf (r &&& w.sign != 0) fS |||
      flagIf (s.cout != s.cmsbin) fPv ||| flagIf s.c4 fH
    mask := addMask w }

/-- `do_sub`: the carry and the half carry come out inverted. -/
def doSub (a b : Quad) (borrow : Bool) (w : Width) : AluResult :=
  let s := carryChain a (w.trunc (~~~b)) (!borrow) w.bits
  let r := w.trunc s.result
  { value := r
    flags := flagIf (!s.cout) fC ||| flagIf (r == 0) fZ ||| flagIf (r &&& w.sign != 0) fS |||
      flagIf (s.cout != s.cmsbin) fPv ||| flagIf (!s.c4) fH ||| flagIf (w == .byte) fDa
    mask := addMask w }

/-- `do_neg`. -/
def doNeg (a : Quad) (w : Width) : AluResult :=
  let v := w.trunc (-a)
  { value := v
    flags := flagIf (w.trunc a != 0) fC ||| flagIf (v == 0) fZ ||| flagIf (v &&& w.sign != 0) fS |||
      flagIf (w.trunc a == w.sign) fPv
    mask := fC ||| fZ ||| fS ||| fPv }

/-- `do_inc`. -/
def doInc (a n : Quad) (w : Width) : AluResult :=
  let w := w.short
  let v := w.trunc (a + n)
  { value := v
    flags := flagIf (v == 0) fZ ||| flagIf (v &&& w.sign != 0) fS |||
      flagIf ((a ^^^ n) &&& w.sign == 0 && (a ^^^ v) &&& w.sign != 0) fPv
    mask := fZ ||| fS ||| fPv }

/-- `do_dec`. -/
def doDec (a n : Quad) (w : Width) : AluResult :=
  let w := w.short
  let v := w.trunc (a - n)
  { value := v
    flags := flagIf (v == 0) fZ ||| flagIf (v &&& w.sign != 0) fS |||
      flagIf ((a ^^^ n) &&& w.sign != 0 && (a ^^^ v) &&& w.sign != 0) fPv
    mask := fZ ||| fS ||| fPv }

/-! ## Shifts and rotates -/

/-- The state of a shift loop. -/
structure ShiftState where
  val : Quad
  cout : Bool
  ovf : Bool

/-- The flags of a shift: a zero count leaves C alone. -/
def shiftMask (n : Nat) (arith : Bool) : Word :=
  (if n = 0 then 0 else fC) ||| fZ ||| fS ||| (if arith then fPv else 0)

/-- `do_shift_left`. -/
def doShiftLeft (a cnt : Quad) (arith : Bool) (w : Width) : AluResult :=
  let n := (cnt &&& 0x3F).toNat
  let orig := w.trunc a
  let s := forUpTo n (fun _ (s : ShiftState) =>
    let val := w.trunc (s.val <<< 1)
    { val := val
      cout := s.val &&& w.sign != 0
      ovf := s.ovf || val &&& w.sign != orig &&& w.sign })
    ⟨orig, false, false⟩
  { value := s.val
    flags := (lflags w s.val &&& ~~~fPv) ||| flagIf s.cout fC ||| flagIf (arith && s.ovf) fPv
    mask := shiftMask n arith }

/-- `do_shift_right`. An arithmetic shift re-injects the sign bit. -/
def doShiftRight (a cnt : Quad) (arith : Bool) (w : Width) : AluResult :=
  let n := (cnt &&& 0x3F).toNat
  let s := forUpTo n (fun _ (s : ShiftState) =>
    { s with
      val := (s.val >>> 1) ||| (if arith then s.val &&& w.sign else 0)
      cout := s.val &&& 1 != 0 })
    ⟨w.trunc a, false, false⟩
  let v := w.trunc s.val
  { value := v
    flags := (if arith then lflags w v &&& ~~~fPv else lflags w v) ||| flagIf s.cout fC
    mask := shiftMask n arith }

/-- `do_rotate`: a count of zero is one place. -/
def doRotate (a cnt : Quad) (right thru cin : Bool) (w : Width) : AluResult :=
  let n := if (cnt &&& 0x3F).toNat = 0 then 1 else (cnt &&& 0x3F).toNat
  let orig := w.trunc a
  let s := forUpTo n (fun _ (s : ShiftState) =>
    if right then
      let lsb := s.val &&& 1 != 0
      let enters := if thru then s.cout else lsb
      { s with val := (s.val >>> 1) ||| (if enters then w.sign else 0), cout := lsb }
    else
      let msb := s.val &&& w.sign != 0
      let enters := if thru then s.cout else msb
      { s with val := w.trunc (s.val <<< 1) ||| (if enters then 1 else 0), cout := msb })
    ⟨orig, cin, false⟩
  { value := s.val
    flags := (lflags w s.val &&& ~~~fPv) ||| flagIf s.cout fC |||
      flagIf ((s.val ^^^ orig) &&& w.sign != 0) fPv
    mask := fC ||| fZ ||| fS ||| fPv }

/-! ## The rest -/

/-- `do_dab`. -/
def doDab (a : Quad) (hflag cin : Bool) : AluResult :=
  let val : Byte := a.setWidth 8
  let low := decide (9 < (val &&& 0x0F).toNat) || hflag
  let val := if low then val + 0x06 else val
  let c := cin || (low && val &&& 0xF0 == 0)
  let high := decide (9 < (val >>> 4).toNat) || c
  let val := if high then val + 0x60 else val
  let v : Quad := val.setWidth 64
  { value := v, flags := lflags .byte v ||| flagIf (c || high) fC, mask := fC ||| fZ ||| fS }

/-- The EXTS operation of `alu_exec`: it affects no flag. -/
def doExts (a : Quad) (w : Width) : AluResult :=
  match w with
  | .byte =>
    let v : Word := (a.setWidth 8).signExtend 16
    ⟨v.setWidth 64, flagIf (v == 0) fZ ||| flagIf v.msb fS, 0⟩
  | _ =>
    let v : Long := (a.setWidth 16).signExtend 32
    ⟨v.setWidth 64, flagIf (v == 0) fZ ||| flagIf v.msb fS, 0⟩

/-- `alu_exec`. -/
def aluExec (op : AluOp) (a b : Quad) (carryIn : Bool) (w : Width) : AluResult :=
  match op with
  | .add => doAdd a b false w
  | .adc => doAdd a b carryIn w
  | .sub | .cp => doSub a b false w
  | .sbc => doSub a b carryIn w
  | .and => aluLogic (w.trunc (a &&& b)) w (logicMask w)
  | .test => aluLogic (w.trunc a) w (logicMask w)
  | .or => aluLogic (w.trunc (a ||| b)) w (logicMask w)
  | .xor => aluLogic (w.trunc (a ^^^ b)) w (logicMask w)
  | .com => aluLogic (w.trunc (~~~a)) w (logicMask w)
  | .neg => doNeg a w
  | .inc => doInc a b w
  | .dec => doDec a b w
  | .sla => doShiftLeft a b true w
  | .sll => doShiftLeft a b false w
  | .sra => doShiftRight a b true w
  | .srl => doShiftRight a b false w
  | .rl => doRotate a b false false carryIn w
  | .rr => doRotate a b true false carryIn w
  | .rlc => doRotate a b false true carryIn w
  | .rrc => doRotate a b true true carryIn w
  | .dab => doDab a (b &&& 1 != 0) carryIn
  | .exts => doExts a w
  | .ld => ⟨b, 0, 0⟩
  | .bit => ⟨a, flagIf (a &&& ((1 : Quad) <<< b.toNat) == 0) fZ, fZ⟩
  | .set => ⟨a ||| ((1 : Quad) <<< b.toNat), 0, 0⟩
  | .res => ⟨a &&& ~~~((1 : Quad) <<< b.toNat), 0, 0⟩
  | .tset => ⟨w.short.mask, flagIf (a &&& w.short.sign != 0) fS, fS⟩

/-! ## What the unit may touch -/

/-- The condition flags, bits 7 to 2 of the flag and control word. -/
def conditionFlags : Word := 0x00FC

/-- A set of flags holds condition flags only. -/
def OnlyConditionFlags (mask : Word) : Prop := mask &&& ~~~conditionFlags = 0

instance (mask : Word) : Decidable (OnlyConditionFlags mask) := inferInstanceAs (Decidable (_ = _))

theorem shiftMask_condition (n : Nat) (arith : Bool) : OnlyConditionFlags (shiftMask n arith) := by
  unfold shiftMask
  split_ifs <;> decide

theorem addMask_condition (w : Width) : OnlyConditionFlags (addMask w) := by
  cases w <;> decide

theorem logicMask_condition (w : Width) : OnlyConditionFlags (logicMask w) := by
  cases w <;> decide

/-- No operation affects the control half of the flag and control word. -/
theorem aluExec_condition (op : AluOp) (a b : Quad) (carryIn : Bool) (w : Width) :
    OnlyConditionFlags (aluExec op a b carryIn w).mask := by
  cases op with
  | add | adc | sub | sbc | cp => exact addMask_condition w
  | and | test | or | xor | com => exact logicMask_condition w
  | sla | sll | sra | srl => exact shiftMask_condition _ _
  | neg | rl | rr | rlc | rrc =>
    show OnlyConditionFlags (fC ||| fZ ||| fS ||| fPv)
    decide
  | inc | dec =>
    show OnlyConditionFlags (fZ ||| fS ||| fPv)
    decide
  | dab =>
    show OnlyConditionFlags (fC ||| fZ ||| fS)
    decide
  | bit =>
    show OnlyConditionFlags fZ
    decide
  | tset =>
    show OnlyConditionFlags fS
    decide
  | ld | set | res =>
    show OnlyConditionFlags 0
    decide
  | exts => cases w with
    | byte | word | long =>
      show OnlyConditionFlags 0
      decide

end C900
