import C900.Cpu.Element
import C900.Logic.HostInt

/-!
# Host arithmetic of a division

`exec_div` divides in a signed type of the host as soon as the divisor is not zero, and sorts
out the quotients that are too large for the guest afterwards. `execDiv_defined_iff` tells the
operands for which every host division it executes is defined.
-/

namespace C900

/-- The `/` or the `%` of the host. -/
inductive HostOperator where
  | quotient
  | remainder
deriving DecidableEq

/-- A division that the host executes in a signed type of so many bits. -/
structure HostDivision where
  bits : Nat
  dividend : Int
  divisor : Int
  operator : HostOperator
deriving DecidableEq

/-- The result is defined: of a division and of a remainder where the quotient is in the type. -/
def HostDivision.Defined (d : HostDivision) : Prop :=
  HostInt.Divides d.bits d.dividend d.divisor

namespace Cpu

variable (c : Cpu) (w : CtrlWord) (divisor : Quad)

/-- The operands of `exec_div` in its host type: `int32_t` in the word form, else `int64_t`. -/
def hostOperands : Nat × Int × Int :=
  let dst := nib3 (c.opcode 0)
  if w.width = .word then (32, (c.rl (pairReg dst)).toInt, (divisor.setWidth 16).toInt)
  else (64, (c.rq (quadReg dst)).toInt, (divisor.setWidth 32).toInt)

/-- The host divisions that `exec_div` executes for a divisor, in order. -/
def hostDivisions : List HostDivision :=
  let (bits, dividend, divisor) := c.hostOperands w divisor
  if divisor = 0 then []
  else [⟨bits, dividend, divisor, .quotient⟩, ⟨bits, dividend, divisor, .remainder⟩]

/-- The pair of operands that no host type can divide: the least dividend and -1. -/
def Unrepresentable : Prop :=
  if w.width = .word then
    c.rl (pairReg (nib3 (c.opcode 0))) = 0x80000000 ∧ divisor.setWidth 16 = (0xFFFF : Word)
  else
    c.rq (quadReg (nib3 (c.opcode 0))) = 0x8000000000000000 ∧
      divisor.setWidth 32 = (0xFFFFFFFF : Long)

/-- The result of `exec_div` is computed from the host operands. -/
theorem divide_hostOperands : ∃ half store cut,
    c.divide w divisor =
      c.divideBy (c.hostOperands w divisor).2.1 (c.hostOperands w divisor).2.2 half store cut := by
  unfold divide hostOperands
  dsimp only
  split
  · exact ⟨_, _, _, rfl⟩
  · exact ⟨_, _, _, rfl⟩

/-- The dividend is a value of the host type. -/
theorem hostOperands_fits :
    HostInt.Fits (c.hostOperands w divisor).1 (c.hostOperands w divisor).2.1 := by
  unfold hostOperands
  dsimp only
  split
  · exact HostInt.fits_toInt _
  · exact HostInt.fits_toInt _

/-- The undividable pair, in the host type. -/
theorem unrepresentable_iff : c.Unrepresentable w divisor ↔
    (c.hostOperands w divisor).2.1 = HostInt.least (c.hostOperands w divisor).1 ∧
      (c.hostOperands w divisor).2.2 = -1 := by
  unfold Unrepresentable hostOperands
  dsimp only
  split
  · have least : HostInt.least 32 = (0x80000000 : Long).toInt := by decide
    have unit : (-1 : Int) = (0xFFFF : Word).toInt := by decide
    rw [least, unit, BitVec.toInt_inj, BitVec.toInt_inj]
  · have least : HostInt.least 64 = (0x8000000000000000 : Quad).toInt := by decide
    have unit : (-1 : Int) = (0xFFFFFFFF : Long).toInt := by decide
    rw [least, unit, BitVec.toInt_inj, BitVec.toInt_inj]

/-- The host divisions for a divisor are defined except for the undividable pair. -/
theorem hostDivisions_defined_iff :
    (∀ d ∈ c.hostDivisions w divisor, d.Defined) ↔ ¬c.Unrepresentable w divisor := by
  have fits := c.hostOperands_fits w divisor
  rw [unrepresentable_iff]
  unfold hostDivisions
  generalize c.hostOperands w divisor = operands at fits ⊢
  obtain ⟨bits, dividend, small⟩ := operands
  dsimp only at fits ⊢
  by_cases zero : small = 0
  · have distinct : ¬(dividend = HostInt.least bits ∧ small = -1) := by omega
    rw [if_pos zero]
    exact iff_of_true (fun d member => absurd member List.not_mem_nil) distinct
  · have divides : HostInt.Divides bits dividend small ↔ _ := HostInt.divides_iff fits
    rw [if_neg zero, List.forall_mem_cons, List.forall_mem_singleton]
    exact ⟨fun both => (divides.mp both.1).2, fun distinct =>
      ⟨divides.mpr ⟨zero, distinct⟩, divides.mpr ⟨zero, distinct⟩⟩⟩

end Cpu

/-- The host divisions that `exec_div` executes from a machine: the divisor is read first, from
a register, the instruction or memory. -/
def execDivDivisions (w : CtrlWord) (m : Machine) : List HostDivision :=
  (mulDivOperand w m).2.cpu.hostDivisions w (mulDivOperand w m).1

/-- The operand read changes no register and no opcode word. -/
theorem mulDivOperand_cpu (w : CtrlWord) (m : Machine) :
    m.cpu.SameButFault (mulDivOperand w m).2.cpu := by
  have cycles := fun a => memReadW_cpu a m w.width
  unfold mulDivOperand
  rw [StateM.bind_apply]
  dsimp only [getCpu]
  cases w.src2 with
  | reg | imm => exact .refl m.cpu
  | _ => exact cycles _

/-- Every host division of `exec_div` has a divisor other than zero and a quotient that its type
holds, exactly unless the dividend is the most negative one and the divisor operand -1. -/
theorem execDiv_defined_iff (w : CtrlWord) (m : Machine) :
    (∀ d ∈ execDivDivisions w m, d.Defined) ↔
      ¬m.cpu.Unrepresentable w (mulDivOperand w m).1 := by
  obtain ⟨fault, same⟩ := mulDivOperand_cpu w m
  have defined := (mulDivOperand w m).2.cpu.hostDivisions_defined_iff w (mulDivOperand w m).1
  rw [same] at defined
  rw [execDivDivisions, same]
  exact defined

/-- The most negative dividend in RR2 and -1 in R4, with DIV RR2,R4 fetched. -/
def leastByMinusOne : Machine :=
  { (default : Machine) with
    cpu := { (default : Cpu) with
      R := fun r => if r = 2 then 0x8000 else if r = 4 then 0xFFFF else 0
      opcode := fun i => if i = 0 then 0x9B42 else 0 } }

/-- The decoder takes 0x9B42 for a division, and it divides -2147483648 by -1 in `int32_t`. -/
theorem leastByMinusOne_undefined :
    ∃ w, decodeLookup 0x9B42 0 1 = some w ∧ w.exec = .div ∧
      ¬∀ d ∈ execDivDivisions w leastByMinusOne, d.Defined := by
  refine ⟨{ name := "DIV", exec := .div, width := .word, src2 := .reg, src2Nib := .nib3 },
    rfl, rfl, fun defined => ?_⟩
  have divisions : execDivDivisions
      { name := "DIV", exec := .div, width := .word, src2 := .reg, src2Nib := .nib3 }
      leastByMinusOne =
        [⟨32, -2147483648, -1, .quotient⟩, ⟨32, -2147483648, -1, .remainder⟩] := by
    decide
  rw [divisions] at defined
  obtain ⟨-, -, representable⟩ := defined _ List.mem_cons_self
  exact absurd representable (by decide)

end C900
