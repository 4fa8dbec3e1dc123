import C900.Cpu.Access

/-!
# Instruction execution

The handler classes of `cpu.c` and their dispatch. A class that touches no memory
is a function on the processor; the others are programs over the bus cycles.
-/

namespace C900

/-! ## Unified engine -/

/-- Case 4 of `exec_unified`: compute on the register operand. -/
def Cpu.unifiedCompute (c : Cpu) (w : CtrlWord) (b : Quad) : Cpu :=
  let r := aluExec w.aluOp (c.uregRead w.src1Nib w.width) b c.carry w.width
  let c := c.applyFlags r
  if w.dst = .reg then c.uregWrite w.dstNib r.value w.width else c

/-- The result of cases 1 and 2 of `exec_unified`: the memory operand comes
first, the count select supplies the other. -/
def Cpu.memoryResult (c : Cpu) (w : CtrlWord) (b : Quad) : AluResult :=
  aluExec w.aluOp b (c.ureadSrc2 w w.count) c.carry w.width

/-- `exec_unified`. -/
def execUnified (w : CtrlWord) : Exec Unit := do
  let c ← getCpu
  if w.src2.isMem then
    let sa := c.usrcAddr w
    let b ← memReadW sa w.width
    if w.dst.isMem then
      modifyCpu fun c => c.applyFlags (c.memoryResult w b)
      memWriteW sa (c.memoryResult w b).value w.width
    else if w.dst = .flagsOnly then modifyCpu fun c => c.applyFlags (c.memoryResult w b)
    else modifyCpu (·.unifiedCompute w b)
  else if w.dst.isMem then memWriteW (c.udstAddr w) (c.ureadSrc2 w w.src2) w.width
  else modifyCpu fun c => c.unifiedCompute w (c.ureadSrc2 w w.src2)

/-! ## Branches -/

/-- The CALL forms: push the return address, go to the target. -/
def execCall (target : Long) : Exec Unit := do
  let c ← getCpu
  pushWord (c.pc.setWidth 16)
  if c.seg then pushWord ((makeSeg c.pc >>> 16).setWidth 16)
  modifyCpu ({ · with pc := target })

/-- RET. -/
def execRet : Exec Unit := do
  let c ← getCpu
  if c.seg then
    let hi ← popWord
    let lo ← popWord
    modifyCpu ({ · with pc := segAddr (hi ++ lo) })
  else
    let lo ← popWord
    modifyCpu fun c => { c with pc := c.pcSegment ||| lo.setWidth 32 }

/-- DJNZ and DBJNZ. -/
def Cpu.djnz (c : Cpu) : Cpu :=
  let op := c.opcode 0
  let reg := nib1 op
  let disp : Long := (op &&& 0x7F).setWidth 32
  let isWord := op &&& 0x0080 != 0
  let dec := if isWord then c.ww reg (c.rw reg - 1) else c.wb reg (c.rb reg - 1)
  let nz := if isWord then c.rw reg - 1 != 0 else c.rb reg - 1 != 0
  if nz then { dec with pc := addrSub c.pc (disp <<< 1) } else dec

/-- The displacement of JR and CALR in bytes. -/
def shortDisp (op : Word) : Long := (loByte op).signExtend 32 <<< 1

/-- The displacement of the 12-bit CALR in bytes: it counts backwards. -/
def longDisp (op : Word) : Long := -((op.setWidth 12).signExtend 32) <<< 1

/-- A jump on a condition. -/
def Cpu.jumpIf (c : Cpu) (cc : Reg) (target : Long) : Cpu :=
  if c.condTrue cc then { c with pc := target } else c

/-- `exec_branch`. -/
def execBranch (w : CtrlWord) : Exec Unit := do
  let c ← getCpu
  let op := c.opcode 0
  match w.brMode with
  | .jpDa => modifyCpu fun c => c.jumpIf (nib3 op) (c.segAddrOp 1)
  | .jpX =>
    modifyCpu fun c =>
      c.jumpIf (nib3 op) (addrAdd (c.segAddrOp 1) ((c.rw (nib2 op)).setWidth 32))
  | .jpIr => modifyCpu fun c => c.jumpIf (nib3 op) (c.addrFromReg (nib2 op))
  | .jr => modifyCpu fun c => c.jumpIf (nib1 op) (c.relPc (shortDisp op))
  | .callDa => execCall (c.segAddrOp 1)
  | .callX => execCall (addrAdd (c.segAddrOp 1) ((c.rw (nib2 op)).setWidth 32))
  | .callIr => execCall (c.addrFromReg (nib2 op))
  | .calr => execCall (c.relPc (shortDisp op))
  | .calr12 => execCall (c.relPc (longDisp op))
  | .djnz => modifyCpu Cpu.djnz
  | .ret => if c.condTrue (nib3 op) then execRet else pure ()

/-! ## General stack instructions -/

/-- The address after `n` bytes are reserved below the pointer in `sp`. -/
def Cpu.reserveAddr (c : Cpu) (sp : Reg) (n : Long) : Long :=
  if c.seg then addrSub (c.addrFromReg sp) n else c.addrFromReg sp - n

/-- The pointer in `sp` after `n` bytes are reserved. -/
def Cpu.reserve (c : Cpu) (sp : Reg) (n : Long) : Cpu :=
  if c.seg then c.addrToReg sp (c.reserveAddr sp n)
  else c.ww sp ((c.reserveAddr sp n).setWidth 16)

/-- The pointer in `sp` after `n` bytes are released. -/
def Cpu.release (c : Cpu) (sp : Reg) (n : Long) : Cpu :=
  if c.seg then c.addrToReg sp (addrAdd (c.addrFromReg sp) n)
  else c.ww sp ((c.addrFromReg sp).setWidth 16 + n.setWidth 16)

/-- `exec_stack`. -/
def execStack (w : CtrlWord) : Exec Unit := do
  let c ← getCpu
  let op := c.opcode 0
  let sp := nib2 op
  let data := nib3 op
  match w.stkMode with
  | .push =>
    modifyCpu (·.reserve sp 2)
    memW16 (c.reserveAddr sp 2) ((c.reserve sp 2).rw data)
  | .pop =>
    modifyCpu (·.release sp 2)
    let v ← memR16 (c.addrFromReg sp)
    modifyCpu (·.ww data v)
  | .pushL =>
    let src := Cpu.pairReg data
    let a := c.reserveAddr sp 4
    modifyCpu (·.reserve sp 4)
    memW16 a ((c.reserve sp 4).rw src)
    memW16 (addrAdd a 2) ((c.reserve sp 4).rw (src + 1))
  | .popL =>
    let a := c.addrFromReg sp
    modifyCpu (·.release sp 4)
    let hi ← memR16 a
    let lo ← memR16 (addrAdd a 2)
    let dst := Cpu.pairReg data
    modifyCpu fun c => (c.ww dst hi).ww (dst + 1) lo
  | .pushSrc =>
    let v ← memR16 (c.usrcAddr w)
    modifyCpu (·.reserve sp 2)
    memW16 (c.reserveAddr sp 2) v
  | .popDst =>
    modifyCpu (·.release sp 2)
    let v ← memR16 (c.addrFromReg sp)
    memW16 ((c.release sp 2).udstAddr w) v
  | .pushLSrc =>
    let base := if w.src2 = .ir then c.addrFromReg (Cpu.pairReg data) else c.usrcAddr w
    let hi ← memR16 base
    let lo ← memR16 (addrAdd base 2)
    let a := c.reserveAddr sp 4
    modifyCpu (·.reserve sp 4)
    memW16 a hi
    memW16 (addrAdd a 2) lo
  | .popLDst =>
    let a := c.addrFromReg sp
    modifyCpu (·.release sp 4)
    let hi ← memR16 a
    let lo ← memR16 (addrAdd a 2)
    let c := c.release sp 4
    let base := if w.dst = .ir then c.addrFromReg (Cpu.pairReg data) else c.udstAddr w
    memW16 base hi
    memW16 (addrAdd base 2) lo
  | .pushImm =>
    modifyCpu (·.reserve sp 2)
    memW16 (c.reserveAddr sp 2) (c.opcode 1)

/-! ## Multiply and divide -/

/-- The flags that multiply and divide affect. -/
def mulDivMask : Word := fC ||| fZ ||| fS ||| fPv

/-- The arithmetic half of `exec_mul`. -/
def Cpu.multiply (c : Cpu) (w : CtrlWord) (mplier : Quad) : Cpu :=
  let dst := nib3 (c.opcode 0)
  if w.width = .word then
    let prod : Int := (c.rw (dst ||| 1)).toInt * (mplier.setWidth 16).toInt
    (c.wl dst (BitVec.ofInt 32 prod)).mergeFlags
      (flagIf (prod == 0) fZ ||| flagIf (prod < 0) fS |||
        flagIf (prod < -0x8000 || 0x7FFF < prod) fC) mulDivMask
  else
    let dst := Cpu.pairReg dst
    let prod : Int := (c.rl (dst ||| 2)).toInt * (mplier.setWidth 32).toInt
    (c.wq dst (BitVec.ofInt 64 prod)).mergeFlags
      (flagIf (prod == 0) fZ ||| flagIf (prod < 0) fS |||
        flagIf (prod < -0x80000000 || 0x7FFFFFFF < prod) fC) mulDivMask

/-- The operand of multiply and divide: register, immediate or memory. -/
def mulDivOperand (w : CtrlWord) : Exec Quad := do
  let c ← getCpu
  let isWord := w.width = .word
  match w.src2 with
  | .reg => return c.readReg (nib2 (c.opcode 0)) (if isWord then .word else .long)
  | .imm =>
    return if isWord then (c.opcode 1).setWidth 64 else (c.opcode 1 ++ c.opcode 2).setWidth 64
  | _ => memReadW (c.usrcAddr w) w.width

/-- `exec_mul`. -/
def execMul (w : CtrlWord) : Exec Unit := do
  let mplier ← mulDivOperand w
  modifyCpu (·.multiply w mplier)

/-- The cases of `exec_div`: division by zero, a quotient in range, one that just
overflows, and one far out of range. `half` is 2^15 or 2^31, and `store` writes
quotient and remainder. A quotient that C leaves undefined falls in the last case. -/
def Cpu.divideBy (c : Cpu) (dividend divisor half : Int) (store : Int → Int → Cpu → Cpu)
    (cut : Int → Bool) : Cpu :=
  if divisor = 0 then c.mergeFlags (fZ ||| fPv) mulDivMask
  else
    let q := dividend.tdiv divisor
    let r := dividend.tmod divisor
    if -half ≤ q ∧ q < half then
      (store q r c).mergeFlags (flagIf (q == 0) fZ ||| flagIf (q < 0) fS) mulDivMask
    else if q < -2 * half ∨ 2 * half ≤ q then c.mergeFlags fPv mulDivMask
    else
      (store q r c).mergeFlags (fC ||| fPv ||| flagIf (q < 0) fS ||| flagIf (cut q) fZ) mulDivMask

/-- The arithmetic half of `exec_div`. -/
def Cpu.divide (c : Cpu) (w : CtrlWord) (divisor : Quad) : Cpu :=
  let dst := nib3 (c.opcode 0)
  if w.width = .word then
    let dst := Cpu.pairReg dst
    c.divideBy (c.rl dst).toInt (divisor.setWidth 16).toInt 0x8000
      (fun q r c => (c.ww (dst + 1) (BitVec.ofInt 16 q)).ww dst (BitVec.ofInt 16 r))
      (fun q => BitVec.ofInt 16 q == 0)
  else
    let dst := Cpu.quadReg dst
    c.divideBy (c.rq dst).toInt (divisor.setWidth 32).toInt 0x80000000
      (fun q r c => (c.wl (dst + 2) (BitVec.ofInt 32 q)).wl dst (BitVec.ofInt 32 r))
      (fun q => BitVec.ofInt 32 q == 0)

/-- `exec_div`. -/
def execDiv (w : CtrlWord) : Exec Unit := do
  let divisor ← mulDivOperand w
  modifyCpu (·.divide w divisor)

/-! ## Classes on the processor alone -/

/-- `exec_shift`. A negative count shifts the other way. -/
def Cpu.shift (c : Cpu) (w : CtrlWord) : Cpu :=
  let dst := nib2 (c.opcode 0)
  let count : Word := if w.count = .reg then c.rw (nib1 (c.opcode 1)) else c.opcode 1
  let op := if count.msb then (if w.aluOp = .sla then .sra else .srl) else w.aluOp
  let n := if count.msb then -count else count
  let r := aluExec op (c.readReg dst w.width) (n.setWidth 64) false w.width
  (c.writeReg dst r.value w.width).applyFlags r

/-- The ClsExts case of `execute`. -/
def Cpu.signExtend (c : Cpu) (w : CtrlWord) : Cpu :=
  let reg := nib2 (c.opcode 0)
  match w.width with
  | .byte => c.ww reg ((loByte (c.rw reg)).signExtend 16)
  | .word =>
    let base := Cpu.pairReg reg
    c.wl base ((c.rw (base + 1)).signExtend 32)
  | .long =>
    let base := Cpu.quadReg reg
    c.wq base ((c.rl (base + 2)).signExtend 64)

/-- The ClsTCC case. -/
def Cpu.testCondition (c : Cpu) (w : CtrlWord) : Cpu :=
  let dst := nib2 (c.opcode 0)
  if c.condTrue (nib3 (c.opcode 0)) then
    if w.width = .byte then c.wb dst (c.rb dst ||| 1) else c.ww dst (c.rw dst ||| 1)
  else c

/-- The ClsDAB case. -/
def Cpu.decimalAdjust (c : Cpu) : Cpu :=
  let dst := nib2 (c.opcode 0)
  let r := aluExec .dab ((c.rb dst).setWidth 64) (if c.fcw &&& fH != 0 then 1 else 0) c.carry .byte
  (c.wb dst (r.value.setWidth 8)).applyFlags r

/-- The ClsLEA case. -/
def Cpu.loadAddress (c : Cpu) (w : CtrlWord) : Cpu :=
  let addr := match w.src2 with
    | .ir => 0
    | _ => c.usrcAddr w
  c.addrToReg (nib3 (c.opcode 0)) addr

/-- The ClsBCDRotate case. -/
def Cpu.digitRotate (c : Cpu) (w : CtrlWord) : Cpu :=
  let src := nib2 (c.opcode 0)
  let dst := nib3 (c.opcode 0)
  let sv := c.rb src
  let dv := c.rb dst
  let oldlo := dv &&& 0x0F
  let left := w.aluOp = .rl
  let nd := (dv &&& 0xF0) ||| (if left then sv >>> 4 else sv &&& 0x0F)
  let ns := if left then (sv <<< 4) ||| oldlo else (sv >>> 4) ||| (oldlo <<< 4)
  ((c.wb src ns).wb dst nd).putFlag fZ (nd == 0)

/-- The ClsBitDynamic case. -/
def Cpu.bitDynamic (c : Cpu) (w : CtrlWord) : Cpu :=
  let rs := nib3 (c.opcode 0)
  let rd := nib1 (c.opcode 1)
  if w.width = .byte then
    let bit : Byte := 1 <<< (c.rw rs &&& 0x07).toNat
    match w.aluOp with
    | .bit => c.putFlag fZ (c.rb rd &&& bit == 0)
    | .set => c.wb rd (c.rb rd ||| bit)
    | .res => c.wb rd (c.rb rd &&& ~~~bit)
    | _ => c
  else
    let bit : Word := 1 <<< (c.rw rs &&& 0x0F).toNat
    match w.aluOp with
    | .bit => c.putFlag fZ (c.rw rd &&& bit == 0)
    | .set => c.ww rd (c.rw rd ||| bit)
    | .res => c.ww rd (c.rw rd &&& ~~~bit)
    | _ => c

/-! ## Flag operations -/

/-- `isPriv` of the ClsFcwOp case: the mask reaches beyond the flags. -/
def CtrlWord.fcwPriv (w : CtrlWord) : Bool :=
  (w.fcwOp == .set || w.fcwOp == .clear) && w.fcwMask &&& ~~~conditionFlags != 0

/-- The switch of the ClsFcwOp case. -/
def Cpu.fcwOperation (c : Cpu) (w : CtrlWord) : Cpu :=
  match w.fcwOp with
  | .set => { c with fcw := c.fcw ||| w.fcwMask }
  | .clear => { c with fcw := c.fcw &&& ~~~w.fcwMask }
  | .toggle => { c with fcw := c.fcw ^^^ w.fcwMask }
  | .loadLo => c.mergeFlags ((c.rb (nib2 (c.opcode 0))).setWidth 16) conditionFlags
  | .storeLo => c.wb (nib2 (c.opcode 0)) (loByte c.fcw &&& 0xFC)

/-- The ClsFcwOp case. -/
def execFcwOp (w : CtrlWord) : Exec Unit :=
  if w.fcwPriv then privileged (modifyCpu (·.fcwOperation w)) else modifyCpu (·.fcwOperation w)

/-! ## Load multiple -/

/-- The first address of an LDM. -/
def Cpu.ldmBase (c : Cpu) (w : CtrlWord) : Long :=
  let idx := nib2 (c.opcode 0)
  if w.src2 = .ir then c.addrFromReg idx
  else if idx = 0 then c.segAddrOp 2
  else addrAdd (c.segAddrOp 2) ((c.rw idx).setWidth 32)

/-- `exec_ldm`. -/
def execLdm (w : CtrlWord) : Exec Unit := do
  let c ← getCpu
  let base := c.ldmBase w
  let first := nib1 (c.opcode 1)
  let n := (nib3 (c.opcode 1)).toNat + 1
  (List.range n).forM fun i => do
    let a := addrAdd base (BitVec.ofNat 32 i <<< 1)
    let reg := first + BitVec.ofNat 4 i
    if w.ioWrite then
      let c ← getCpu
      memW16 a (c.rw reg)
    else
      let v ← memR16 a
      modifyCpu (·.ww reg v)

/-! ## Input and output -/

/-- The port and the data register of `exec_io`. -/
def Cpu.ioOperands (c : Cpu) (w : CtrlWord) : Word × Reg :=
  let op := c.opcode 0
  match w.src2 with
  | .ir => (c.rw (nib2 op), nib3 op)
  | .da =>
    (if nib2 op = 0 then c.opcode 1 else c.opcode 1 + c.rw (nib2 op), nib3 op)
  | _ => (c.opcode 1, nib2 op)

/-- The data word of a byte output. -/
def byteOut (v : Byte) (special : Bool) : Word := if special then v.setWidth 16 else highLane v

/-- The byte of a byte input. -/
def byteIn (v : Word) (special : Bool) : Byte := if special then loByte v else hiByte v

/-- `exec_io`. -/
def execIo (w : CtrlWord) : Exec Unit := privileged do
  let c ← getCpu
  let (port, dr) := c.ioOperands w
  let isByte := w.width == .byte
  if w.ioWrite then
    ioWriteCycle port (if isByte then byteOut (c.rb dr) w.ioSpec else c.rw dr) isByte w.ioSpec
  else
    let v ← ioReadCycle port isByte w.ioSpec
    modifyCpu fun c => if isByte then c.wb dr (byteIn v w.ioSpec) else c.ww dr v

/-! ## System instructions -/

/-- A control register read. -/
def Cpu.ldctlRead (c : Cpu) : Cpu :=
  let op := c.opcode 0
  c.ww (nib2 op) <|
    match (op &&& 0x07).toNat with
    | 2 => c.fcw
    | 3 => c.refresh
    | 4 => (c.psap >>> 8).setWidth 16
    | 5 => c.psap.setWidth 16
    | 6 => c.nspseg
    | 7 => c.nspoff
    | _ => 0

/-- A control register write. -/
def Cpu.ldctlWrite (c : Cpu) : Cpu :=
  let op := c.opcode 0
  let val := c.rw (nib2 op)
  match (op &&& 0x07).toNat with
  | 2 => c.changeFcw val
  | 3 => { c with refresh := val }
  | 4 => { c with psap := (c.psap &&& 0x0000FFFF) ||| ((val &&& 0x7F00).setWidth 32 <<< 8) }
  | 5 => { c with psap := (c.psap &&& 0xFFFF0000) ||| val.setWidth 32 }
  | 6 => { c with nspseg := val }
  | 7 => { c with nspoff := val }
  | _ => c

/-- `exec_ldctl`. -/
def execLdctl : Exec Unit :=
  privileged (modifyCpu fun c =>
    if c.opcode 0 &&& 0x08 == 0 then c.ldctlRead else c.ldctlWrite)

/-- The program counter from its two words, as status blocks hold it. -/
def pcFromWords (pcseg pcoff : Word) : Long :=
  ((pcseg &&& 0x7F00).setWidth 32 <<< 8) ||| pcoff.setWidth 32

/-- `exec_ldps`. -/
def execLdps (w : CtrlWord) : Exec Unit := privileged do
  let c ← getCpu
  let idx := nib2 (c.opcode 0)
  let base :=
    if w.src2 = .ir then c.addrFromReg idx
    else if idx = 0 then c.segAddrOp 1
    else addrAdd (c.segAddrOp 1) ((c.rw idx).setWidth 32)
  if c.seg then
    let nf ← memR16 (addrAdd base 2)
    let pcseg ← memR16 (addrAdd base 4)
    let pcoff ← memR16 (addrAdd base 6)
    modifyCpu fun c => { c with pc := pcFromWords pcseg pcoff }.changeFcw nf
  else
    let nf ← memR16 base
    let pc ← memR16 (addrAdd base 2)
    modifyCpu fun c => { c with pc := pc.setWidth 32 }.changeFcw nf

/-- `exec_iret`. -/
def execIret : Exec Unit := privileged do
  let _ ← popWord
  let nf ← popWord
  let c ← getCpu
  if c.seg then
    let hi ← popWord
    let lo ← popWord
    modifyCpu fun c => { c with pc := segAddr (hi ++ lo) }.changeFcw nf
  else
    let lo ← popWord
    modifyCpu fun c => { c with pc := lo.setWidth 32 }.changeFcw nf

/-- The ClsMultiProc case. -/
def Cpu.multiProc (c : Cpu) (w : CtrlWord) : Cpu :=
  match w.mpOp with
  | .bit => { c with fcw := c.fcw ||| fS }
  | .req => { c with fcw := (c.fcw &&& ~~~fZ) ||| fS ||| fZ }
  | _ => c

/-! ## Exchange -/

/-- `exec_exchange`. -/
def execExchange (w : CtrlWord) : Exec Unit := do
  let c ← getCpu
  let a := nib2 (c.opcode 0)
  let b := nib3 (c.opcode 0)
  if w.src2 = .ir ∨ w.src2 = .da ∨ w.src2 = .x then
    let ma := match w.src2 with
      | .ir => c.addrFromReg a
      | .da => c.segAddrOp 1
      | _ => addrAdd (c.segAddrOp 1) ((c.rw a).setWidth 32)
    if w.width = .byte then
      let mv ← memR8 ma
      modifyCpu (·.wb b mv)
      memW8 ma (c.rb b)
    else
      let mv ← memR16 ma
      modifyCpu (·.ww b mv)
      memW16 ma (c.rw b)
  else if w.width = .byte then modifyCpu fun c => (c.wb a (c.rb b)).wb b (c.rb a)
  else modifyCpu fun c => (c.ww a (c.rw b)).ww b (c.rw a)

/-! ## Block instructions, one element a call -/

/-- The pointer step of one element. -/
def CtrlWord.delta (w : CtrlWord) : Word :=
  let size : Word := if w.width = .byte then 1 else 2
  if w.blockDecr then -size else size

/-- The register fields of the second instruction word. -/
def Cpu.cntReg (c : Cpu) : Reg := nib1 (c.opcode 1)
def Cpu.dstReg (c : Cpu) : Reg := nib2 (c.opcode 1)
def Cpu.srcReg (c : Cpu) : Reg := nib2 (c.opcode 0)

/-- Decrement the count register. -/
def Cpu.countDown (c : Cpu) : Cpu := c.ww c.cntReg (c.rw c.cntReg - 1)

/-- `if (again) c->repeat_pending = true`. -/
def Cpu.repeatIf (c : Cpu) (again : Bool) : Cpu :=
  { c with repeatPending := c.repeatPending || again }

/-- A read of one element. -/
def memReadElement (w : CtrlWord) (a : Long) : Exec Word :=
  if w.width = .byte then do return (← memR8 a).setWidth 16 else memR16 a

/-- A write of one element. -/
def memWriteElement (w : CtrlWord) (a : Long) (v : Word) : Exec Unit :=
  if w.width = .byte then memW8 a (loByte v) else memW16 a v

/-- The end of a transfer element: the count, PV, and the wish to repeat. -/
def Cpu.endTransfer (c : Cpu) (w : CtrlWord) : Cpu :=
  let c := c.countDown
  let cnt := c.rw c.cntReg
  (c.putFlag fPv (cnt == 0)).repeatIf (w.blockRept && cnt != 0)

/-- `exec_block_transfer`. -/
def execBlockTransfer (w : CtrlWord) : Exec Unit := do
  let c ← getCpu
  let v ← memReadElement w (c.addrFromReg c.srcReg)
  memWriteElement w (c.addrFromReg c.dstReg) v
  modifyCpu fun c =>
    ((c.addToAddrReg c.srcReg w.delta).addToAddrReg c.dstReg w.delta).endTransfer w

/-- The end of a compare element: `r` is the raw comparison and `moved` moves the
pointers. Z is the match, PV the exhausted count. -/
def Cpu.endCompare (c : Cpu) (w : CtrlWord) (r : AluResult) (moved : Cpu → Cpu) : Cpu :=
  let c := c.applyFlags r
  let isMatch := c.condTrue (nib3 (c.opcode 1))
  let c := (moved c).countDown
  let cnt := c.rw c.cntReg
  (c.mergeFlags (flagIf isMatch fZ ||| flagIf (cnt == 0) fPv) (fZ ||| fPv)).repeatIf
    (w.blockRept && cnt != 0 && !isMatch)

/-- The comparison of two elements. -/
def compareElements (w : CtrlWord) (a b : Word) : AluResult :=
  aluExec .cp (a.setWidth 64) (b.setWidth 64) false (if w.width = .byte then .byte else .word)

/-- `exec_block_compare`. -/
def execBlockCompare (w : CtrlWord) : Exec Unit := do
  let c ← getCpu
  let cmpReg := c.dstReg
  let v ← memReadElement w (c.addrFromReg c.srcReg)
  let a := if w.width = .byte then (c.rb cmpReg).setWidth 16 else c.rw cmpReg
  modifyCpu fun c =>
    c.endCompare w (compareElements w a v) fun c => c.addToAddrReg c.srcReg w.delta

/-- `exec_block_string`. C leaves the order of the two reads open; the source
operand is read first here. -/
def execBlockString (w : CtrlWord) : Exec Unit := do
  let c ← getCpu
  let a ← memReadElement w (c.addrFromReg c.srcReg)
  let b ← memReadElement w (c.addrFromReg c.dstReg)
  modifyCpu fun c =>
    c.endCompare w (compareElements w a b) fun c =>
      (c.addToAddrReg c.srcReg w.delta).addToAddrReg c.dstReg w.delta

/-- The memory pointer of `exec_block_io`: input and output swap the two fields. -/
def Cpu.ioAddrReg (c : Cpu) (w : CtrlWord) : Reg := if w.ioWrite then c.srcReg else c.dstReg

/-- The port register of `exec_block_io`. -/
def Cpu.ioPortReg (c : Cpu) (w : CtrlWord) : Reg := if w.ioWrite then c.dstReg else c.srcReg

/-- `exec_block_io`. -/
def execBlockIo (w : CtrlWord) : Exec Unit := privileged do
  let c ← getCpu
  let port := c.rw (c.ioPortReg w)
  let ma := c.addrFromReg (c.ioAddrReg w)
  let isByte := w.width == .byte
  if w.ioWrite then
    let v ← memReadElement w ma
    ioWriteCycle port (if isByte then byteOut (loByte v) w.ioSpec else v) isByte w.ioSpec
  else
    let v ← ioReadCycle port isByte w.ioSpec
    memWriteElement w ma (if isByte then (byteIn v w.ioSpec).setWidth 16 else v)
  modifyCpu fun c => (c.addToAddrReg (c.ioAddrReg w) w.delta).endTransfer w

/-- The pointer step of a translate. -/
def CtrlWord.translateDelta (w : CtrlWord) : Word := if w.blockDecr then -1 else 1

/-- The end of a TR element: the single forms set Z. -/
def Cpu.endTranslate (c : Cpu) (w : CtrlWord) (translated : Byte) : Cpu :=
  let c := (c.addToAddrReg c.dstReg w.translateDelta).countDown
  let cnt := c.rw c.cntReg
  let c := if w.blockRept then c else c.putFlag fZ (translated == 0)
  c.repeatIf (w.blockRept && cnt != 0)

/-- The end of a TRT element: the byte goes to RH1. -/
def Cpu.endTranslateTest (c : Cpu) (w : CtrlWord) (translated : Byte) : Cpu :=
  let c := (((c.wb 1 translated).addToAddrReg c.dstReg w.translateDelta)).countDown
  let cnt := c.rw c.cntReg
  (c.putFlag fZ (translated == 0)).repeatIf (w.blockRept && cnt != 0 && translated == 0)

/-- `exec_translate`. -/
def execTranslate (w : CtrlWord) : Exec Unit := do
  let c ← getCpu
  let idx ← memR8 (c.addrFromReg c.dstReg)
  let translated ← memR8 (addrAdd (c.addrFromReg c.srcReg) (idx.setWidth 32))
  if w.ioWrite then
    memW8 (c.addrFromReg c.dstReg) translated
    modifyCpu (·.endTranslate w translated)
  else modifyCpu (·.endTranslateTest w translated)

/-! ## Dispatch -/

/-- `execute`. -/
def execute (w : CtrlWord) : Exec Unit :=
  match w.exec with
  | .unified => execUnified w
  | .fcwOp => execFcwOp w
  | .exts => modifyCpu (·.signExtend w)
  | .stack => execStack w
  | .branch => execBranch w
  | .tcc => modifyCpu (·.testCondition w)
  | .dab => modifyCpu Cpu.decimalAdjust
  | .exchange => execExchange w
  | .lea => modifyCpu (·.loadAddress w)
  | .bcdRotate => modifyCpu (·.digitRotate w)
  | .bitDynamic => modifyCpu (·.bitDynamic w)
  | .io => execIo w
  | .ldctl => execLdctl
  | .shift => modifyCpu (·.shift w)
  | .blockTransfer => execBlockTransfer w
  | .blockCompare => execBlockCompare w
  | .blockString => execBlockString w
  | .blockIo => execBlockIo w
  | .ldm => execLdm w
  | .multiProc => privileged (modifyCpu (·.multiProc w))
  | .mul => execMul w
  | .div => execDiv w
  | .ldps => execLdps w
  | .halt => privileged (modifyCpu ({ · with halted := true }))
  | .sysCall => modifyCpu (·.request irqSyscall)
  | .iret => execIret
  | .translate => execTranslate w

end C900
