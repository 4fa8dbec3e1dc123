import C900.Bus.Memory
import C900.Cpu.Decode

/-!
# Registers, addresses and operands

The helpers of `cpu.c` that touch the processor only: the register file, the two
address forms, condition codes, the flag and control word, and the operand
selects of a control word.
-/

namespace C900

namespace Cpu

/-- `SEG(c)`. -/
def seg (c : Cpu) : Bool := c.fcw &&& fcwSeg != 0

/-- `SYSMODE(c)`. -/
def sysmode (c : Cpu) : Bool := c.fcw &&& fcwSn != 0

/-! ## Register file -/

/-- `c->R[r] = v`. -/
def setR (c : Cpu) (r : Reg) (v : Word) : Cpu := { c with R := Function.update c.R r v }

/-- `rb`. -/
def rb (c : Cpu) (r : Reg) : Byte := if r < 8 then hiByte (c.R r) else loByte (c.R (r - 8))

/-- `wb`. -/
def wb (c : Cpu) (r : Reg) (v : Byte) : Cpu :=
  if r < 8 then c.setR r (v ++ loByte (c.R r)) else c.setR (r - 8) (hiByte (c.R (r - 8)) ++ v)

/-- `rw`. -/
def rw (c : Cpu) (r : Reg) : Word := c.R r

/-- `ww`. -/
def ww (c : Cpu) (r : Reg) (v : Word) : Cpu := c.setR r v

/-- The even register of a pair, `r & 0x0E`. -/
def pairReg (r : Reg) : Reg := r &&& 0xE

/-- The first register of a quadruple, `r & 0x0C`. -/
def quadReg (r : Reg) : Reg := r &&& 0xC

/-- `rl`. -/
def rl (c : Cpu) (r : Reg) : Long := c.R (pairReg r) ++ c.R (pairReg r + 1)

/-- `wl`. -/
def wl (c : Cpu) (r : Reg) (v : Long) : Cpu :=
  (c.setR (pairReg r) ((v >>> 16).setWidth 16)).setR (pairReg r + 1) (v.setWidth 16)

/-- `rq`. -/
def rq (c : Cpu) (r : Reg) : Quad :=
  c.R (quadReg r) ++ c.R (quadReg r + 1) ++ c.R (quadReg r + 2) ++ c.R (quadReg r + 3)

/-- `wq`. -/
def wq (c : Cpu) (r : Reg) (v : Quad) : Cpu :=
  (((c.setR (quadReg r) ((v >>> 48).setWidth 16)).setR (quadReg r + 1)
    ((v >>> 32).setWidth 16)).setR (quadReg r + 2) ((v >>> 16).setWidth 16)).setR (quadReg r + 3)
    (v.setWidth 16)

/-! ### Reading back -/

variable (c : Cpu)

theorem setR_R (r : Reg) (v : Word) : (c.setR r v).R r = v := Function.update_self ..

theorem setR_R_of_ne {r s : Reg} (other : r ≠ s) (v : Word) : (c.setR s v).R r = c.R r :=
  Function.update_of_ne other ..

/-- A byte register reads what was written to it. -/
theorem wb_rb (r : Reg) (v : Byte) : (c.wb r v).rb r = v := by
  unfold wb rb
  split
  · rw [setR_R, hiByte_append]
  · rw [setR_R, loByte_append]

/-- A write to another byte register does not change it. -/
theorem wb_rb_of_ne {r s : Reg} (other : r ≠ s) (v : Byte) : (c.wb s v).rb r = c.rb r := by
  have apart : ∀ r s : Reg, r ≠ s → ¬r < 8 → ¬s < 8 → r - 8 ≠ s - 8 := by decide
  unfold wb rb
  by_cases target : s < 8 <;> by_cases read : r < 8
  · rw [if_pos target, if_pos read, setR_R_of_ne c other, if_pos read]
  · rw [if_pos target, if_neg read, if_neg read]
    by_cases same : r - 8 = s
    · rw [same, setR_R, loByte_append]
    · rw [setR_R_of_ne c same]
  · rw [if_neg target, if_pos read, if_pos read]
    by_cases same : r = s - 8
    · rw [same, setR_R, hiByte_append]
    · rw [setR_R_of_ne c same]
  · rw [if_neg target, if_neg read, if_neg read, setR_R_of_ne c (apart r s other read target)]

theorem wb_fcw (r : Reg) (v : Byte) : (c.wb r v).fcw = c.fcw := by
  unfold wb
  split <;> rfl

end Cpu

/-! ## Addresses -/

/-- `seg_addr`: from the register form to the internal form. -/
def segAddr (v : Long) : Long := ((v &&& 0x7F000000) >>> 8) ||| (v &&& 0xFFFF)

/-- `make_seg`: from the internal form to the register form. -/
def makeSeg (a : Long) : Long := ((a &&& 0x007F0000) <<< 8) ||| 0x80000000 ||| (a &&& 0xFFFF)

/-- `addr_add`. -/
def addrAdd (a n : Long) : Long := (a &&& 0xFFFF0000) ||| ((a + n) &&& 0xFFFF)

/-- `addr_sub`. -/
def addrSub (a n : Long) : Long := (a &&& 0xFFFF0000) ||| ((a - n) &&& 0xFFFF)

/-- `displaced`. -/
def displaced (base : Long) (disp : Word) : Long :=
  if disp.msb then addrSub base (-disp.signExtend 32) else addrAdd base (disp.setWidth 32)

namespace Cpu

/-- The segment of the program counter, in place. -/
def pcSegment (c : Cpu) : Long := c.pc &&& 0x7F0000

/-- `addr_from_reg`. -/
def addrFromReg (c : Cpu) (r : Reg) : Long :=
  if c.seg then segAddr (c.rl r) else c.pcSegment ||| (c.rw r).setWidth 32

/-- `addr_to_reg`. -/
def addrToReg (c : Cpu) (r : Reg) (a : Long) : Cpu :=
  if c.seg then
    (c.ww (pairReg r) ((a >>> 8).setWidth 16 &&& 0x7F00)).ww (pairReg r + 1) (a.setWidth 16)
  else c.ww r (a.setWidth 16)

/-- The register that holds the offset of a pointer: the odd one of the pair in
segmented mode. -/
def offsetReg (c : Cpu) (r : Reg) : Reg := if c.seg then r ||| 1 else r

/-- `add_to_addr_reg`. -/
def addToAddrReg (c : Cpu) (r : Reg) (d : Word) : Cpu :=
  c.ww (c.offsetReg r) (c.rw (c.offsetReg r) + d)

/-- `rel_pc`. -/
def relPc (c : Cpu) (disp : Long) : Long :=
  if disp.msb then addrSub c.pc (-disp) else addrAdd c.pc disp

/-- `seg_addr_op`. -/
def segAddrOp (c : Cpu) (idx : Fin 6) : Long :=
  if c.seg then
    let w1 := c.opcode idx
    let segment := (w1 &&& 0x7F00).setWidth 32 <<< 8
    if w1 &&& 0x8000 != 0 then segment ||| (c.opcode (idx + 1)).setWidth 32
    else segment ||| (w1 &&& 0xFF).setWidth 32
  else c.pcSegment ||| (c.opcode idx).setWidth 32

/-! ## Flags -/

/-- `if (p) c->fcw |= flag; else c->fcw &= ~flag`. -/
def putFlag (c : Cpu) (flag : Word) (p : Bool) : Cpu :=
  { c with fcw := if p then c.fcw ||| flag else c.fcw &&& ~~~flag }

/-- Replace the flags in `mask`. -/
def mergeFlags (c : Cpu) (flags mask : Word) : Cpu :=
  { c with fcw := (c.fcw &&& ~~~mask) ||| (flags &&& mask) }

/-- `apply_flags`. -/
def applyFlags (c : Cpu) (r : AluResult) : Cpu := c.mergeFlags r.flags r.mask

/-- The carry flag. -/
def carry (c : Cpu) : Bool := c.fcw &&& fC != 0

/-- `cond_true`. -/
def condTrue (c : Cpu) (cc : Reg) : Bool :=
  let cf := c.fcw &&& fC != 0
  let zf := c.fcw &&& fZ != 0
  let sf := c.fcw &&& fS != 0
  let vf := c.fcw &&& fPv != 0
  match cc.toNat with
  | 0x0 => false
  | 0x1 => sf != vf
  | 0x2 => sf != vf || zf
  | 0x3 => cf || zf
  | 0x4 => vf
  | 0x5 => sf
  | 0x6 => zf
  | 0x7 => cf
  | 0x8 => true
  | 0x9 => sf == vf
  | 0xA => sf == vf && !zf
  | 0xB => !cf && !zf
  | 0xC => !vf
  | 0xD => !sf
  | 0xE => !zf
  | _ => !cf

/-- The swap of R15 with the saved offset. -/
def swapOffset (c : Cpu) : Cpu := { c.ww 15 c.nspoff with nspoff := c.rw 15 }

/-- The swap of R14 with the saved segment. -/
def swapSegment (c : Cpu) : Cpu := { c.ww 14 c.nspseg with nspseg := c.rw 14 }

/-- `change_fcw`. -/
def changeFcw (c : Cpu) (nf : Word) : Cpu :=
  let old := c.fcw
  let c := if (nf ^^^ old) &&& fcwSn != 0 then c.swapOffset else c
  let c :=
    if nf &&& fcwSn != 0 && (old &&& fcwSn == 0 || (nf ^^^ old) &&& fcwSeg != 0) then c.swapSegment
    else if nf &&& fcwSn == 0 && old &&& fcwSn != 0 && old &&& fcwSeg != 0 then c.swapSegment
    else c
  { c with fcw := nf }

/-- `sp_reg`. -/
def spReg (c : Cpu) : Reg := if c.seg then 14 else 15

/-! ## Operands -/

/-- `unib`. -/
def unib (c : Cpu) (s : RegSel) : Reg :=
  match s with
  | .nib2 => nib2 (c.opcode 0)
  | .nib1 => nib1 (c.opcode 0)
  | .nib3 => nib3 (c.opcode 0)

/-- A register read at a width. -/
def readReg (c : Cpu) (r : Reg) (w : Width) : Quad :=
  match w with
  | .byte => (c.rb r).setWidth 64
  | .word => (c.rw r).setWidth 64
  | .long => (c.rl r).setWidth 64

/-- A register write at a width. -/
def writeReg (c : Cpu) (r : Reg) (v : Quad) (w : Width) : Cpu :=
  match w with
  | .byte => c.wb r (v.setWidth 8)
  | .word => c.ww r (v.setWidth 16)
  | .long => c.wl r (v.setWidth 32)

/-- `ureg_read`. -/
def uregRead (c : Cpu) (s : RegSel) (w : Width) : Quad := c.readReg (c.unib s) w

/-- `ureg_write`. -/
def uregWrite (c : Cpu) (s : RegSel) (v : Quad) (w : Width) : Cpu := c.writeReg (c.unib s) v w

/-- `uread_src2`, with the select as an argument: the callers of the source put
the count select in its place for some forms. -/
def ureadSrc2 (c : Cpu) (w : CtrlWord) (src2 : SrcSel) : Quad :=
  match src2 with
  | .reg => c.uregRead w.src2Nib w.width
  | .imm =>
    match w.width with
    | .byte => (c.opcode 1 >>> 8).setWidth 64
    | .long => (c.opcode 1).setWidth 64 <<< 16 ||| (c.opcode 2).setWidth 64
    | .word => (c.opcode 1).setWidth 64
  | .one => 1
  | .two => 2
  | .nib3Cnt => if nib3 (c.opcode 0) = 0 then 16 else (nib3 (c.opcode 0)).setWidth 64
  | .zero => 0
  | .imm2 =>
    -- A segmented long address pushes the immediate one word further.
    let idx : Fin 6 := if c.segW1 && c.seg && c.opcode 1 &&& 0x8000 != 0 then 3 else 2
    if w.width = .byte then (c.opcode idx >>> 8).setWidth 64 else (c.opcode idx).setWidth 64
  | .nib3Bit => (nib3 (c.opcode 0)).setWidth 64
  | .nib3CntPlus1 => (nib3 (c.opcode 0)).setWidth 64 + 1
  | .opLoByte => (loByte (c.opcode 0)).setWidth 64
  | _ => 0

/-- The index register of a based-indexed operand. -/
def bxIndex (c : Cpu) : Reg := nib1 (c.opcode 1)

/-- `usrc_addr`. -/
def usrcAddr (c : Cpu) (w : CtrlWord) : Long :=
  match w.src2 with
  | .ir => c.addrFromReg (c.unib w.src2Nib)
  | .da => c.segAddrOp 1
  | .x => addrAdd (c.segAddrOp 1) ((c.rw (c.unib w.src2Nib)).setWidth 32)
  | .pcRel => displaced c.pc (c.opcode 1)
  | .based => displaced (c.addrFromReg (c.unib w.src2Nib)) (c.opcode 1)
  | .bx => addrAdd (c.addrFromReg (c.unib w.src2Nib)) ((c.rw c.bxIndex).setWidth 32)
  | _ => 0

/-- `udst_addr`. -/
def udstAddr (c : Cpu) (w : CtrlWord) : Long :=
  match w.dst with
  | .ir => c.addrFromReg (c.unib w.dstNib)
  | .da => c.segAddrOp 1
  | .x => addrAdd (c.segAddrOp 1) ((c.rw (c.unib w.dstNib)).setWidth 32)
  | .pcRel => displaced c.pc (c.opcode 1)
  | .based => displaced (c.addrFromReg (c.unib w.dstNib)) (c.opcode 1)
  | .bx => addrAdd (c.addrFromReg (c.unib w.dstNib)) ((c.rw c.bxIndex).setWidth 32)
  | _ => 0

end Cpu

/-- `src_is_mem`. -/
def SrcSel.isMem : SrcSel → Bool
  | ir | da | x | pcRel | based | bx => true
  | _ => false

/-- `dst_is_mem`. -/
def DstSel.isMem : DstSel → Bool
  | ir | da | x | pcRel | based | bx => true
  | _ => false

end C900
