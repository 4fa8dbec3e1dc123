import C900.Cpu.Alu

/-!
# The decode table

`decode.c`: the control word of every opcode. The table has a slot for each
value of the first opcode byte. A slot holds one control word, or a sub-decoder
with its own small table. Control word fields that are not set take the defaults
of `cw()`.
-/

namespace C900

/-! ## Control words -/

/-- `InstrClass`. -/
inductive InstrClass where
  | unified | fcwOp | exts | stack | branch | tcc | dab
  | exchange | bcdRotate | bitDynamic | lea | io | ldctl
  | shift | blockTransfer | blockCompare | blockString | blockIo
  | ldm | multiProc | mul | div | ldps | halt | sysCall
  | iret | translate
deriving DecidableEq

/-- `BranchMode`. -/
inductive BranchMode where
  | jpDa | jpX | jpIr | jr | callDa | callX | callIr | calr | calr12 | ret | djnz
deriving DecidableEq

/-- `FcwOpKind`. -/
inductive FcwOpKind where
  | set | clear | toggle | loadLo | storeLo
deriving DecidableEq

/-- `StackMode`. -/
inductive StackMode where
  | push | pop | pushL | popL | pushSrc | popDst | pushLSrc | popLDst | pushImm
deriving DecidableEq

/-- `SrcSel`. -/
inductive SrcSel where
  | none | reg | imm | ir | da | x | one | two | nib3Cnt
  | zero | imm2 | pcRel | based | bx | nib3Bit | nib3CntPlus1
  | opLoByte
deriving DecidableEq

/-- `DstSel`. -/
inductive DstSel where
  | reg | none | flagsOnly | ir | da | x | pcRel | based | bx
deriving DecidableEq

/-- `RegSel`. -/
inductive RegSel where
  | nib3 | nib2 | nib1
deriving DecidableEq

/-- `MPOpKind`. -/
inductive MPOpKind where
  | bit | res | set | req
deriving DecidableEq

/-- `CtrlWord`, without the fields that nothing reads. -/
structure CtrlWord where
  name : String
  exec : InstrClass
  aluOp : AluOp := .add
  width : Width := .word
  src2 : SrcSel := .none
  dst : DstSel := .reg
  count : SrcSel := .none
  src1Nib : RegSel := .nib3
  src2Nib : RegSel := .nib3
  dstNib : RegSel := .nib3
  fcwOp : FcwOpKind := .set
  fcwMask : Word := 0
  stkMode : StackMode := .push
  brMode : BranchMode := .jpDa
  ioWrite : Bool := false
  ioSpec : Bool := false
  blockDecr : Bool := false
  blockRept : Bool := false
  mpOp : MPOpKind := .bit

/-! ## Opcode nibbles -/

def nib1 (op : Word) : Reg := (op >>> 8).setWidth 4
def nib2 (op : Word) : Reg := (op >>> 4).setWidth 4
def nib3 (op : Word) : Reg := op.setWidth 4

/-! ## Sub-decoders

A sub-decoder turns the opcode word, the following word and the number of words
on hand into an index of its table. It fails when it needs more words. -/

/-- `SubFn`, as far as the choice of the table index goes. -/
abbrev SubFn := Word → Word → Nat → Option Nat

/-- `sub_nib2fork`, `sub_immir` and `sub_dax`. -/
def subNib2fork : SubFn := fun op _ _ => some (if nib2 op = 0 then 0 else 1)

/-- `sub_nib3fork`. -/
def subNib3fork : SubFn := fun op _ _ => some (if nib3 op = 0 then 0 else 1)

/-- Index of a table with two columns. -/
def column (row : Reg) (second : Bool) : Nat := row.toNat * 2 + second.toNat

/-- `sub_3A` and `sub_3B`. -/
def sub3A : SubFn := fun op w n =>
  if n < 1 then none else some (column (nib3 op) (w &&& 0x0F == 8))

/-- `sub_B2`: odd rows need the count word. -/
def subB2 : SubFn := fun op _ n =>
  if [0x01, 0x03, 0x09, 0x0B].contains (nib3 op).toNat && n < 1 then none
  else some (nib3 op).toNat

/-- `sub_B3`. -/
def subB3 : SubFn := fun op _ n =>
  if (nib3 op).toNat % 2 = 1 ∧ n < 1 then none else some (nib3 op).toNat

/-- `sub_BA` and `sub_BB`. -/
def subBA : SubFn := fun op w n =>
  if n < 1 then none else some (column (nib3 op) (w &&& 0x08 != 0))

/-- `sub_4C` and `sub_4D`. -/
def sub4C : SubFn := fun op _ _ => some (column (nib3 op) (nib2 op != 0))

/-- `sub_0C`, `sub_0D`, `sub_8C`, `sub_9C` and `sub_B1`. -/
def subNib3 : SubFn := fun op _ _ => some (nib3 op).toNat

/-- `sub_8D`. -/
def sub8D : SubFn := fun op _ _ => some ((nib2 op).toNat * 16 + (nib3 op).toNat)

/-- `sub_1C`. -/
def sub1C : SubFn := fun op _ n =>
  if (nib3 op = 0x1 ∨ nib3 op = 0x9) ∧ n < 1 then none else some (nib3 op).toNat

/-- `sub_5C`. -/
def sub5C : SubFn := fun op _ n =>
  if (nib3 op = 0x1 ∨ nib3 op = 0x9) ∧ n < 2 then none
  else if n < 1 then none
  else some (column (nib3 op) (nib2 op != 0))

/-- `sub_7B`: MREQ for any second nibble but zero, else the whole low byte. -/
def sub7B : SubFn := fun op _ _ =>
  if nib3 op = 0xD ∧ nib2 op ≠ 0 then some 0x1D else some (op &&& 0xFF).toNat

/-- `sub_7C`. -/
def sub7C : SubFn := fun op _ _ => some (op &&& 0x07).toNat

/-- `sub_7D`. -/
def sub7D : SubFn := fun _ _ _ => some 0

/-- `sub_B8`: odd opcodes are illegal. -/
def subB8 : SubFn := fun op _ _ =>
  if op &&& 0x01 ≠ 0 then none else some ((op >>> 1) &&& 0x07).toNat

/-- `RomEntry`. -/
inductive RomEntry where
  | ctrl (c : CtrlWord)
  | sub (f : SubFn) (table : List (Nat × CtrlWord))

namespace RomEntry

/-- The control words a slot can produce. -/
def words : RomEntry → List CtrlWord
  | ctrl c => [c]
  | sub _ table => table.map Prod.snd

/-- Resolve a slot. -/
def decode (e : RomEntry) (op w : Word) (navail : Nat) : Option CtrlWord :=
  match e with
  | ctrl c => some c
  | sub f table => (f op w navail).bind fun i => table.lookup i

/-- A slot with a form for a zero second nibble and one for the others. -/
def fork2 (zero nonzero : CtrlWord) : RomEntry := sub subNib2fork [(0, zero), (1, nonzero)]

/-- The same for the third nibble. -/
def fork3 (zero nonzero : CtrlWord) : RomEntry := sub subNib3fork [(0, zero), (1, nonzero)]

end RomEntry

open RomEntry

/-! ## Arithmetic and loads -/

/-- `mk_reg`. -/
def mkReg (name : String) (op : AluOp) (w : Width) : CtrlWord where
  name := name
  exec := .unified
  aluOp := op
  width := w
  src1Nib := .nib3
  src2 := .reg
  src2Nib := .nib2
  dst := if op = .cp then .none else .reg
  dstNib := .nib3

/-- An operation whose first operand and result are the register in nibble 3. -/
def mkAlu (name : String) (op : AluOp) (w : Width) (src : SrcSel) (srcNib : RegSel) :
    CtrlWord where
  name := name
  exec := .unified
  aluOp := op
  width := w
  src1Nib := .nib3
  src2 := src
  src2Nib := srcNib
  dst := if op = .cp then .none else .reg
  dstNib := .nib3

/-- A load of the register in nibble 3. -/
def mkLoad (name : String) (w : Width) (src : SrcSel) (srcNib : RegSel) : CtrlWord where
  name := name
  exec := .unified
  aluOp := .ld
  width := w
  src2 := src
  src2Nib := srcNib
  dst := .reg
  dstNib := .nib3

/-- A store of the register in nibble 3. -/
def mkStore (name : String) (w : Width) (dst : DstSel) (dstNib : RegSel) : CtrlWord where
  name := name
  exec := .unified
  aluOp := .ld
  width := w
  src2 := .reg
  src2Nib := .nib3
  dst := dst
  dstNib := dstNib

/-- The slots with register operands, 0x80 to 0xB7. -/
def romRegister : List (Nat × RomEntry) :=
  [(0x80, ctrl (mkReg "ADDB" .add .byte)), (0x81, ctrl (mkReg "ADD" .add .word)),
    (0x82, ctrl (mkReg "SUBB" .sub .byte)), (0x83, ctrl (mkReg "SUB" .sub .word)),
    (0x84, ctrl (mkReg "ORB" .or .byte)), (0x85, ctrl (mkReg "OR" .or .word)),
    (0x86, ctrl (mkReg "ANDB" .and .byte)), (0x87, ctrl (mkReg "AND" .and .word)),
    (0x88, ctrl (mkReg "XORB" .xor .byte)), (0x89, ctrl (mkReg "XOR" .xor .word)),
    (0x8A, ctrl (mkReg "CPB" .cp .byte)), (0x8B, ctrl (mkReg "CP" .cp .word)),
    (0x90, ctrl (mkAlu "CPL" .cp .long .reg .nib2)),
    (0x92, ctrl (mkAlu "SUBL" .sub .long .reg .nib2)),
    (0x96, ctrl (mkAlu "ADDL" .add .long .reg .nib2)),
    (0xA0, ctrl (mkLoad "LDB" .byte .reg .nib2)), (0xA1, ctrl (mkLoad "LD" .word .reg .nib2)),
    (0x94, ctrl (mkLoad "LDL" .long .reg .nib2)),
    (0xB4, ctrl (mkReg "ADCB" .adc .byte)), (0xB5, ctrl (mkReg "ADC" .adc .word)),
    (0xB6, ctrl (mkReg "SBCB" .sbc .byte)), (0xB7, ctrl (mkReg "SBC" .sbc .word))]

/-- The byte and word operations that come as immediate, indirect, direct and
indexed forms. -/
def aluForms : List (String × AluOp) :=
  [("ADD", .add), ("SUB", .sub), ("OR", .or), ("AND", .and), ("XOR", .xor), ("CP", .cp)]

/-- 0x00 to 0x0B: immediate or `@Rs`. -/
def romImmIr : List (Nat × RomEntry) :=
  aluForms.zipIdx.flatMap fun ((nm, op), i) =>
    [(i * 2, fork2 (mkAlu nm op .byte .imm .nib3) (mkAlu nm op .byte .ir .nib2)),
      (i * 2 + 1, fork2 (mkAlu nm op .word .imm .nib3) (mkAlu nm op .word .ir .nib2))]

/-- 0x40 to 0x4B: direct or indexed. -/
def romDaX : List (Nat × RomEntry) :=
  aluForms.zipIdx.flatMap fun ((nm, op), i) =>
    [(0x40 + i * 2, fork2 (mkAlu nm op .byte .da .nib3) (mkAlu nm op .byte .x .nib2)),
      (0x41 + i * 2, fork2 (mkAlu nm op .word .da .nib3) (mkAlu nm op .word .x .nib2))]

/-- Long operations with an immediate, indirect, direct or indexed operand. -/
def romLong : List (Nat × RomEntry) :=
  [("CPL", AluOp.cp), ("SUBL", .sub), ("LDL", .ld), ("ADDL", .add)].zipIdx.flatMap
    fun ((nm, op), i) =>
      [(0x10 + i * 2, fork2 (mkAlu nm op .long .imm .nib3) (mkAlu nm op .long .ir .nib2)),
        (0x50 + i * 2, fork2 (mkAlu nm op .long .da .nib3) (mkAlu nm op .long .x .nib2))]

/-- Loads and stores. -/
def romLoadStore : List (Nat × RomEntry) :=
  [(0x60, fork2 (mkLoad "LDB" .byte .da .nib3) (mkLoad "LDB" .byte .x .nib2)),
    (0x61, fork2 (mkLoad "LD" .word .da .nib3) (mkLoad "LD" .word .x .nib2)),
    (0x2E, ctrl (mkStore "LDB" .byte .ir .nib2)), (0x2F, ctrl (mkStore "LD" .word .ir .nib2)),
    (0x6E, fork2 (mkStore "LDB" .byte .da .nib3) (mkStore "LDB" .byte .x .nib2)),
    (0x6F, fork2 (mkStore "LD" .word .da .nib3) (mkStore "LD" .word .x .nib2)),
    (0x1D, ctrl (mkStore "LDL" .long .ir .nib2)),
    (0x20, fork2 (mkLoad "LDB" .byte .imm .nib3) (mkLoad "LDB" .byte .ir .nib2)),
    (0x21, fork2 (mkLoad "LD" .word .imm .nib3) (mkLoad "LD" .word .ir .nib2)),
    (0x30, fork2 (mkLoad "LDB" .byte .pcRel .nib3) (mkLoad "LDB" .byte .based .nib2)),
    (0x31, fork2 (mkLoad "LD" .word .pcRel .nib3) (mkLoad "LD" .word .based .nib2)),
    (0x32, fork2 (mkStore "LDB" .byte .pcRel .nib3) (mkStore "LDB" .byte .based .nib2)),
    (0x33, fork2 (mkStore "LD" .word .pcRel .nib3) (mkStore "LD" .word .based .nib2)),
    (0x34, fork2 { name := "LDAR", exec := .lea, src2 := .pcRel }
      { name := "LDA", exec := .lea, src2 := .based, src2Nib := .nib2 }),
    (0x35, fork2 (mkLoad "LDL" .long .pcRel .nib3) (mkLoad "LDL" .long .based .nib2)),
    (0x37, fork2 (mkStore "LDL" .long .pcRel .nib3) (mkStore "LDL" .long .based .nib2)),
    (0x5D, fork2 (mkStore "LDL" .long .da .nib3) (mkStore "LDL" .long .x .nib2)),
    (0x70, ctrl (mkLoad "LDB" .byte .bx .nib2)), (0x71, ctrl (mkLoad "LD" .word .bx .nib2)),
    (0x72, ctrl (mkStore "LDB" .byte .bx .nib2)), (0x73, ctrl (mkStore "LD" .word .bx .nib2)),
    (0x74, ctrl { name := "LDA", exec := .lea, src2 := .bx, src2Nib := .nib2 }),
    (0x75, ctrl (mkLoad "LDL" .long .bx .nib2)),
    (0x76, fork2 { name := "LDA", exec := .lea, src2 := .da }
      { name := "LDA", exec := .lea, src2 := .x, src2Nib := .nib2 }),
    (0x77, ctrl (mkStore "LDL" .long .bx .nib2)),
    (0xBD, ctrl { name := "LDK", exec := .unified, aluOp := .ld, src2 := .nib3Bit, dstNib := .nib2 })]

/-! ## Stack, branches, multiply and divide -/

/-- PUSH and POP. -/
def romStack : List (Nat × RomEntry) :=
  [(0x93, ctrl { name := "PUSH", exec := .stack, stkMode := .push }),
    (0x97, ctrl { name := "POP", exec := .stack, stkMode := .pop }),
    (0x91, ctrl { name := "PUSHL", exec := .stack, stkMode := .pushL }),
    (0x95, ctrl { name := "POPL", exec := .stack, stkMode := .popL }),
    (0x13, ctrl { name := "PUSH", exec := .stack, stkMode := .pushSrc, src2 := .ir }),
    (0x17, ctrl { name := "POP", exec := .stack, stkMode := .popDst, dst := .ir }),
    (0x11, ctrl { name := "PUSHL", exec := .stack, stkMode := .pushLSrc, src2 := .ir }),
    (0x15, ctrl { name := "POPL", exec := .stack, stkMode := .popLDst, dst := .ir }),
    (0x53, fork3 { name := "PUSH", exec := .stack, stkMode := .pushSrc, src2 := .da }
      { name := "PUSH", exec := .stack, stkMode := .pushSrc, src2 := .x }),
    (0x57, fork3 { name := "POP", exec := .stack, stkMode := .popDst, dst := .da }
      { name := "POP", exec := .stack, stkMode := .popDst, dst := .x }),
    (0x51, fork3 { name := "PUSHL", exec := .stack, stkMode := .pushLSrc, src2 := .da }
      { name := "PUSHL", exec := .stack, stkMode := .pushLSrc, src2 := .x }),
    (0x55, fork3 { name := "POPL", exec := .stack, stkMode := .popLDst, dst := .da }
      { name := "POPL", exec := .stack, stkMode := .popLDst, dst := .x })]

/-- Control transfers. -/
def romBranch : List (Nat × RomEntry) :=
  [(0x1E, ctrl { name := "JP", exec := .branch, brMode := .jpIr }),
    (0x5E, fork2 { name := "JP", exec := .branch, brMode := .jpDa }
      { name := "JP", exec := .branch, brMode := .jpX }),
    (0x1F, ctrl { name := "CALL", exec := .branch, brMode := .callIr }),
    (0x5F, fork2 { name := "CALL", exec := .branch, brMode := .callDa }
      { name := "CALL", exec := .branch, brMode := .callX }),
    (0x9E, ctrl { name := "RET", exec := .branch, brMode := .ret })] ++
  (List.range 16).map (fun i =>
    (0xD0 + i, ctrl { name := "CALR", exec := .branch, brMode := .calr12 })) ++
  (List.range 16).map (fun i => (0xE0 + i, ctrl { name := "JR", exec := .branch, brMode := .jr })) ++
  (List.range 16).map (fun i =>
    (0xF0 + i, ctrl { name := "DJNZ", exec := .branch, brMode := .djnz }))

/-- MULT, MULTL, DIV and DIVL. -/
def romMulDiv : List (Nat × RomEntry) :=
  [("MULTL", InstrClass.mul, Width.long), ("MULT", .mul, .word), ("DIVL", .div, .long),
    ("DIV", .div, .word)].zipIdx.flatMap fun ((nm, cls, w), i) =>
      let form (src : SrcSel) (srcNib : RegSel) : CtrlWord :=
        { name := nm, exec := cls, width := w, src2 := src, src2Nib := srcNib }
      [(0x98 + i, ctrl (form .reg .nib3)), (0x18 + i, fork2 (form .imm .nib3) (form .ir .nib2)),
        (0x58 + i, fork2 (form .da .nib3) (form .x .nib2))]

/-! ## Bits, increments, exchange -/

/-- RES, SET and BIT with their widths, in opcode order. -/
def bitForms : List (String × AluOp × Width) :=
  [("RESB", .res, .byte), ("RES", .res, .word), ("SETB", .set, .byte), ("SET", .set, .word),
    ("BITB", .bit, .byte), ("BIT", .bit, .word)]

/-- INC and DEC with their widths, in opcode order. -/
def countForms : List (String × AluOp × Width) :=
  [("INCB", .inc, .byte), ("INC", .inc, .word), ("DECB", .dec, .byte), ("DEC", .dec, .word)]

/-- A memory operand that is read, and written back unless only flags are wanted. -/
def mkModify (nm : String) (op : AluOp) (w : Width) (src count : SrcSel) (dst : DstSel) :
    CtrlWord where
  name := nm
  exec := .unified
  aluOp := op
  width := w
  src2 := src
  src2Nib := .nib2
  count := count
  dst := dst
  dstNib := .nib2

/-- Bit operations and counts, on memory and on registers. -/
def romBits : List (Nat × RomEntry) :=
  bitForms.zipIdx.flatMap (fun ((nm, op, w), i) =>
    let dst (d : DstSel) := if op = .bit then .flagsOnly else d
    [(0x22 + i, fork2 { name := nm, exec := .bitDynamic, aluOp := op, width := w }
        (mkModify nm op w .ir .nib3Bit (dst .ir))),
      (0x62 + i, fork2 (mkModify nm op w .da .nib3Bit (dst .da))
        (mkModify nm op w .x .nib3Bit (dst .x))),
      (0xA2 + i, ctrl
        { name := nm, exec := .unified, aluOp := op, width := w, src1Nib := .nib2
          src2 := .nib3Bit, dst := if op = .bit then .none else .reg, dstNib := .nib2 })]) ++
  countForms.zipIdx.flatMap (fun ((nm, op, w), i) =>
    [(0x28 + i, ctrl (mkModify nm op w .ir .nib3CntPlus1 .ir)),
      (0x68 + i, fork2 (mkModify nm op w .da .nib3CntPlus1 .da)
        (mkModify nm op w .x .nib3CntPlus1 .x)),
      (0xA8 + i, ctrl
        { name := nm, exec := .unified, aluOp := op, width := w, src1Nib := .nib2
          src2 := .nib3CntPlus1, dstNib := .nib2 })])

/-- EX, TCC, DAB and the digit rotates. -/
def romExchange : List (Nat × RomEntry) :=
  [(0x2C, ctrl { name := "EXB", exec := .exchange, width := .byte, src2 := .ir }),
    (0x2D, ctrl { name := "EX", exec := .exchange, src2 := .ir }),
    (0x6C, fork2 { name := "EXB", exec := .exchange, width := .byte, src2 := .da }
      { name := "EXB", exec := .exchange, width := .byte, src2 := .x, src2Nib := .nib2 }),
    (0x6D, fork2 { name := "EX", exec := .exchange, src2 := .da }
      { name := "EX", exec := .exchange, src2 := .x, src2Nib := .nib2 }),
    (0xAC, ctrl { name := "EXB", exec := .exchange, width := .byte }),
    (0xAD, ctrl { name := "EX", exec := .exchange }),
    (0xAE, ctrl { name := "TCCB", exec := .tcc, width := .byte }),
    (0xAF, ctrl { name := "TCC", exec := .tcc }),
    (0xB0, ctrl { name := "DAB", exec := .dab }),
    (0xBC, ctrl { name := "RRDB", exec := .bcdRotate, aluOp := .rr }),
    (0xBE, ctrl { name := "RLDB", exec := .bcdRotate, aluOp := .rl })] ++
  (List.range 16).map (fun i => (0xC0 + i, ctrl
    { name := "LDB", exec := .unified, aluOp := .ld, width := .byte, src2 := .opLoByte
      dstNib := .nib1 }))

/-! ## Single-operand blocks -/

/-- COM, NEG, TEST, TSET and CLR on the register in nibble 2. -/
def mkUnary (nm : String) (op : AluOp) (w : Width) (src : SrcSel) (dst : DstSel) : CtrlWord where
  name := nm
  exec := .unified
  aluOp := op
  width := w
  src1Nib := .nib2
  src2 := src
  dst := dst
  dstNib := .nib2

/-- `tbl8C`. -/
def tbl8C : List (Nat × CtrlWord) :=
  [(0x00, mkUnary "COMB" .com .byte .none .reg), (0x02, mkUnary "NEGB" .neg .byte .none .reg),
    (0x04, mkUnary "TESTB" .test .byte .none .none),
    (0x06, mkUnary "TSETB" .tset .byte .none .reg),
    (0x08, { name := "CLRB", exec := .unified, aluOp := .ld, width := .byte, src2 := .zero
             dstNib := .nib2 }),
    (0x01, { name := "LDCTLB", exec := .fcwOp, fcwOp := .storeLo }),
    (0x09, { name := "LDCTLB", exec := .fcwOp, fcwOp := .loadLo })]

/-- `tbl8D`: the second nibble is the flag mask of SETFLG, RESFLG and COMFLG. -/
def tbl8D : List (Nat × CtrlWord) :=
  (List.range 16).flatMap fun n2 =>
    let mask : Word := BitVec.ofNat 16 (n2 * 16)
    [(n2 * 16 + 0x00, mkUnary "COM" .com .word .none .reg),
      (n2 * 16 + 0x02, mkUnary "NEG" .neg .word .none .reg),
      (n2 * 16 + 0x04, mkUnary "TEST" .test .word .none .none),
      (n2 * 16 + 0x06, mkUnary "TSET" .tset .word .none .reg),
      (n2 * 16 + 0x07, { name := "NOP", exec := .unified, aluOp := .ld, src2 := .zero
                         dst := .none }),
      (n2 * 16 + 0x08, { name := "CLR", exec := .unified, aluOp := .ld, src2 := .zero
                         dstNib := .nib2 }),
      (n2 * 16 + 0x01, { name := "SETFLG", exec := .fcwOp, fcwOp := .set, fcwMask := mask }),
      (n2 * 16 + 0x03, { name := "RESFLG", exec := .fcwOp, fcwOp := .clear, fcwMask := mask }),
      (n2 * 16 + 0x05, { name := "COMFLG", exec := .fcwOp, fcwOp := .toggle, fcwMask := mask })]

/-- A store of a constant to the operand that nibble 2 names. -/
def mkFill (nm : String) (w : Width) (src : SrcSel) (dst : DstSel) : CtrlWord where
  name := nm
  exec := .unified
  aluOp := .ld
  width := w
  src2 := src
  dst := dst
  dstNib := .nib2

/-- `tbl0C`. -/
def tbl0C : List (Nat × CtrlWord) :=
  [(0x00, mkModify "COMB" .com .byte .ir .none .ir),
    (0x01, { mkModify "CPB" .cp .byte .ir .imm .flagsOnly with dstNib := .nib3 }),
    (0x02, mkModify "NEGB" .neg .byte .ir .none .ir),
    (0x04, { mkModify "TESTB" .test .byte .ir .none .flagsOnly with dstNib := .nib3 }),
    (0x05, mkFill "LDB" .byte .imm .ir), (0x06, mkModify "TSETB" .tset .byte .ir .none .ir),
    (0x08, mkFill "CLRB" .byte .zero .ir)]

/-- `tbl0D`. -/
def tbl0D : List (Nat × CtrlWord) :=
  [(0x00, mkModify "COM" .com .word .ir .none .ir),
    (0x01, { mkModify "CP" .cp .word .ir .imm .flagsOnly with dstNib := .nib3 }),
    (0x02, mkModify "NEG" .neg .word .ir .none .ir),
    (0x04, { mkModify "TEST" .test .word .ir .none .flagsOnly with dstNib := .nib3 }),
    (0x05, mkFill "LD" .word .imm .ir), (0x06, mkModify "TSET" .tset .word .ir .none .ir),
    (0x08, mkFill "CLR" .word .zero .ir),
    (0x09, { name := "PUSH", exec := .stack, stkMode := .pushImm })]

/-- `tbl4C` and `tbl4D`, which differ in the width and the suffix of the names. -/
def tbl4 (suffix : String) (w : Width) : List (Nat × CtrlWord) :=
  [(false, SrcSel.da, DstSel.da), (true, .x, .x)].flatMap fun (i, s2, dm) =>
    [(column 0x0 i, mkModify ("COM" ++ suffix) .com w s2 .none dm),
      (column 0x1 i, { mkModify ("CP" ++ suffix) .cp w s2 .imm2 .flagsOnly with dstNib := .nib3 }),
      (column 0x2 i, mkModify ("NEG" ++ suffix) .neg w s2 .none dm),
      (column 0x4 i, { mkModify ("TEST" ++ suffix) .test w s2 .none .flagsOnly with
                       dstNib := .nib3 }),
      (column 0x5 i, mkFill ("LD" ++ suffix) w .imm2 dm),
      (column 0x6 i, mkModify ("TSET" ++ suffix) .tset w s2 .none dm),
      (column 0x8 i, mkFill ("CLR" ++ suffix) w .zero dm)]

/-- The slots of the single-operand tables. -/
def romUnary : List (Nat × RomEntry) :=
  [(0x8C, sub subNib3 tbl8C), (0x8D, sub sub8D tbl8D), (0x0C, sub subNib3 tbl0C),
    (0x0D, sub subNib3 tbl0D), (0x4C, sub sub4C (tbl4 "B" .byte)),
    (0x4D, sub sub4C (tbl4 "" .word))]

/-! ## LDM, sign extension, shifts -/

/-- A long test of a memory operand. -/
def mkTestl (src : SrcSel) (srcNib : RegSel) : CtrlWord where
  name := "TESTL"
  exec := .unified
  aluOp := .test
  width := .long
  src2 := src
  src2Nib := srcNib
  dst := .flagsOnly

/-- LDM, in both directions. -/
def mkLdm (src : SrcSel) (srcNib : RegSel) (store : Bool) : CtrlWord where
  name := "LDM"
  exec := .ldm
  src2 := src
  src2Nib := srcNib
  ioWrite := store

/-- The tables of `sub_9C`, `sub_B1`, `sub_1C` and `sub_5C`. -/
def romMultiple : List (Nat × RomEntry) :=
  [(0x9C, sub subNib3 [(0x08,
      { name := "TESTL", exec := .unified, aluOp := .test, width := .long, src1Nib := .nib2
        dst := .none })]),
    (0xB1, sub subNib3
      [(0x00, { name := "EXTSB", exec := .exts, width := .byte }),
        (0x07, { name := "EXTSL", exec := .exts, width := .long }),
        (0x0A, { name := "EXTS", exec := .exts })]),
    (0x1C, sub sub1C
      [(0x01, mkLdm .ir .nib3 false), (0x09, mkLdm .ir .nib3 true), (0x08, mkTestl .ir .nib2)]),
    (0x5C, sub sub5C
      [(column 0x8 false, mkTestl .da .nib3), (column 0x8 true, mkTestl .x .nib2),
        (column 0x1 false, mkLdm .da .nib3 false), (column 0x1 true, mkLdm .x .nib2 false),
        (column 0x9 false, mkLdm .da .nib3 true), (column 0x9 true, mkLdm .x .nib2 true)])]

/-- A rotate of the register in nibble 2 by one or two. -/
def mkRotate (nm : String) (op : AluOp) (w : Width) (places : SrcSel) : CtrlWord where
  name := nm
  exec := .unified
  aluOp := op
  width := w
  src1Nib := .nib2
  src2 := places
  dst := .reg
  dstNib := .nib2

/-- A shift, static or dynamic. -/
def mkShift (nm : String) (op : AluOp) (w : Width) (count : SrcSel) : CtrlWord where
  name := nm
  exec := .shift
  aluOp := op
  width := w
  count := count

/-- The rotates, which open both `tblB2` and `tblB3`. -/
def tblRotate (suffix : String) (w : Width) : List (Nat × CtrlWord) :=
  [("RL", AluOp.rl), ("RR", .rr), ("RLC", .rlc), ("RRC", .rrc)].zipIdx.flatMap fun ((nm, op), i) =>
    [(i * 4, mkRotate (nm ++ suffix) op w .one), (i * 4 + 2, mkRotate (nm ++ suffix) op w .two)]

/-- `tblB2`. -/
def tblB2 : List (Nat × CtrlWord) :=
  tblRotate "B" .byte ++
  [(0x01, mkShift "SLLB" .sll .byte .imm), (0x03, mkShift "SDLB" .sll .byte .reg),
    (0x09, mkShift "SLAB" .sla .byte .imm), (0x0B, mkShift "SDAB" .sla .byte .reg)]

/-- `tblB3`. -/
def tblB3 : List (Nat × CtrlWord) :=
  tblRotate "" .word ++
  [(0x01, mkShift "SLL" .sll .word .imm), (0x03, mkShift "SDL" .sll .word .reg),
    (0x05, mkShift "SLLL" .sll .long .imm), (0x07, mkShift "SDLL" .sll .long .reg),
    (0x09, mkShift "SLA" .sla .word .imm), (0x0B, mkShift "SDA" .sla .word .reg),
    (0x0D, mkShift "SLAL" .sla .long .imm), (0x0F, mkShift "SDAL" .sla .long .reg)]

/-! ## Block instructions -/

/-- A block compare, transfer or string instruction. -/
def mkBlock (nm : String) (cls : InstrClass) (w : Width) (decr rept : Bool) : CtrlWord where
  name := nm
  exec := cls
  width := w
  blockDecr := decr
  blockRept := rept

/-- `tblBA` and `tblBB`. Only the transfers look at bit 3 of the second word. -/
def tblBlock (suffix : String) (w : Width) : List (Nat × CtrlWord) :=
  let both (row : Reg) (c : CtrlWord) : List (Nat × CtrlWord) :=
    [(column row false, c), (column row true, c)]
  both 0x0 (mkBlock ("CPI" ++ suffix) .blockCompare w false false) ++
  [(column 0x1 false, mkBlock ("LDIR" ++ suffix) .blockTransfer w false true),
    (column 0x1 true, mkBlock ("LDI" ++ suffix) .blockTransfer w false false)] ++
  both 0x2 (mkBlock ("CPSI" ++ suffix) .blockString w false false) ++
  both 0x4 (mkBlock ("CPIR" ++ suffix) .blockCompare w false true) ++
  both 0x6 (mkBlock ("CPSIR" ++ suffix) .blockString w false true) ++
  both 0x8 (mkBlock ("CPD" ++ suffix) .blockCompare w true false) ++
  [(column 0x9 false, mkBlock ("LDDR" ++ suffix) .blockTransfer w true true),
    (column 0x9 true, mkBlock ("LDD" ++ suffix) .blockTransfer w true false)] ++
  both 0xA (mkBlock ("CPSD" ++ suffix) .blockString w true false) ++
  both 0xC (mkBlock ("CPDR" ++ suffix) .blockCompare w true true) ++
  both 0xE (mkBlock ("CPSDR" ++ suffix) .blockString w true true)

/-- `tblB8`, the translate instructions. -/
def tblB8 : List (Nat × CtrlWord) :=
  ["TRIB", "TRTIB", "TRIRB", "TRTIRB", "TRDB", "TRTDB", "TRDRB", "TRTDRB"].zipIdx.map
    fun (nm, i) =>
      (i, { name := nm, exec := .translate, ioWrite := i % 2 == 0, blockDecr := decide (4 ≤ i)
            blockRept := i / 2 % 2 == 1 })

/-- The slots of shifts, blocks and translates. -/
def romBlock : List (Nat × RomEntry) :=
  [(0xB2, sub subB2 tblB2), (0xB3, sub subB3 tblB3), (0xBA, sub subBA (tblBlock "B" .byte)),
    (0xBB, sub subBA (tblBlock "" .word)), (0xB8, sub subB8 tblB8)]

/-! ## Input, output and control -/

/-- Single input and output. -/
def mkIo (nm : String) (w : Width) (src : SrcSel) (out spec : Bool) : CtrlWord where
  name := nm
  exec := .io
  width := w
  src2 := src
  ioWrite := out
  ioSpec := spec

/-- The macro `B` of the block I/O tables. -/
def mkBlockIo (nm : String) (w : Width) (out decr rept spec : Bool) : CtrlWord where
  name := nm
  exec := .blockIo
  width := w
  ioWrite := out
  blockDecr := decr
  blockRept := rept
  ioSpec := spec

/-- `tbl3A` and `tbl3B`. -/
def tblIo (suffix : String) (w : Width) : List (Nat × CtrlWord) :=
  let both (row : Reg) (c : CtrlWord) : List (Nat × CtrlWord) :=
    [(column row false, c), (column row true, c)]
  let pair (row : Reg) (first second : CtrlWord) : List (Nat × CtrlWord) :=
    [(column row false, first), (column row true, second)]
  both 0x4 (mkIo ("IN" ++ suffix) w .none false false) ++
  both 0x5 (mkIo ("SIN" ++ suffix) w .none false true) ++
  both 0x6 (mkIo ("OUT" ++ suffix) w .none true false) ++
  both 0x7 (mkIo ("SOUT" ++ suffix) w .none true true) ++
  pair 0x0 (mkBlockIo ("INIR" ++ suffix) w false false true false)
    (mkBlockIo ("IND" ++ suffix) w false true false false) ++
  pair 0x1 (mkBlockIo ("SINIR" ++ suffix) w false false true true)
    (mkBlockIo ("SIND" ++ suffix) w false true false true) ++
  pair 0x2 (mkBlockIo ("OTIR" ++ suffix) w true false true false)
    (mkBlockIo ("OUTI" ++ suffix) w true false false false) ++
  pair 0x3 (mkBlockIo ("SOTIR" ++ suffix) w true false true true)
    (mkBlockIo ("SOUTI" ++ suffix) w true false false true) ++
  pair 0x8 (mkBlockIo ("INDR" ++ suffix) w false true true false)
    (mkBlockIo ("INI" ++ suffix) w false false false false) ++
  pair 0x9 (mkBlockIo ("SINDR" ++ suffix) w false true true true)
    (mkBlockIo ("SINI" ++ suffix) w false false false true) ++
  pair 0xA (mkBlockIo ("OTDR" ++ suffix) w true true true false)
    (mkBlockIo ("OUTD" ++ suffix) w true true false false) ++
  pair 0xB (mkBlockIo ("SOTDR" ++ suffix) w true true true true)
    (mkBlockIo ("SOUTD" ++ suffix) w true true false true)

/-- `tblDIEI`: a clear bit selects the interrupt enable. -/
def tblDIEI : List (Nat × CtrlWord) :=
  (List.range 8).map fun i =>
    let mask := (if i / 2 % 2 = 0 then fcwVie else 0) ||| (if i % 2 = 0 then fcwNvie else 0)
    (i, if 4 ≤ i then { name := "EI", exec := .fcwOp, fcwOp := .set, fcwMask := mask }
        else { name := "DI", exec := .fcwOp, fcwOp := .clear, fcwMask := mask })

/-- Input, output and the system instructions. -/
def romSystem : List (Nat × RomEntry) :=
  [(0x39, ctrl { name := "LDPS", exec := .ldps, src2 := .ir }),
    (0x79, ctrl { name := "LDPS", exec := .ldps, src2 := .da }),
    (0x3C, ctrl (mkIo "INB" .byte .ir false false)), (0x3D, ctrl (mkIo "IN" .word .ir false false)),
    (0x3E, ctrl (mkIo "OUTB" .byte .ir true false)), (0x3F, ctrl (mkIo "OUT" .word .ir true false)),
    (0x3A, sub sub3A (tblIo "B" .byte)), (0x3B, sub sub3A (tblIo "" .word)),
    (0x7A, ctrl { name := "HALT", exec := .halt }),
    (0x7B, sub sub7B
      [(0x1D, { name := "MREQ", exec := .multiProc, mpOp := .req }),
        (0x00, { name := "IRET", exec := .iret }),
        (0x08, { name := "MSET", exec := .multiProc, mpOp := .set }),
        (0x09, { name := "MRES", exec := .multiProc, mpOp := .res }),
        (0x0A, { name := "MBIT", exec := .multiProc, mpOp := .bit })]),
    (0x7C, sub sub7C tblDIEI), (0x7D, sub sub7D [(0, { name := "LDCTL", exec := .ldctl })]),
    (0x7F, ctrl { name := "SC", exec := .sysCall })]

/-! ## Lookup -/

/-- `rom`. -/
def rom : List (Nat × RomEntry) :=
  romRegister ++ romImmIr ++ romDaX ++ romLong ++ romLoadStore ++ romStack ++ romBranch ++
    romMulDiv ++ romBits ++ romExchange ++ romUnary ++ romMultiple ++ romBlock ++ romSystem

/-- `decode_lookup`. -/
def decodeLookup (op0 w : Word) (navail : Nat) : Option CtrlWord :=
  (rom.lookup (op0 >>> 8).toNat).bind fun e => e.decode op0 w navail

/-- `pool`: every control word the decoder returns. -/
def pool : List CtrlWord := rom.flatMap fun e => e.2.words

theorem lookup_mem {α β : Type} [BEq α] {table : List (α × β)} {key : α} {value : β}
    (found : table.lookup key = some value) : ∃ k, (k, value) ∈ table := by
  induction table with
  | nil => simp at found
  | cons row rows inductionHypothesis =>
    obtain ⟨k, v⟩ := row
    rw [List.lookup_cons] at found
    split at found
    · exact ⟨k, by simp_all⟩
    · obtain ⟨k', member⟩ := inductionHypothesis found
      exact ⟨k', List.mem_cons_of_mem _ member⟩

/-- A slot produces its own control words only. -/
theorem RomEntry.decode_mem {e : RomEntry} {op w : Word} {navail : Nat} {c : CtrlWord}
    (decoded : e.decode op w navail = some c) : c ∈ e.words := by
  cases e with
  | ctrl word =>
    obtain rfl : word = c := by simpa [RomEntry.decode] using decoded
    exact List.mem_singleton_self _
  | sub f table =>
    obtain ⟨i, -, found⟩ := Option.bind_eq_some_iff.mp decoded
    obtain ⟨k, member⟩ := lookup_mem found
    exact List.mem_map.mpr ⟨_, member, rfl⟩

theorem decodeLookup_mem {op0 w : Word} {navail : Nat} {c : CtrlWord}
    (decoded : decodeLookup op0 w navail = some c) : c ∈ pool := by
  obtain ⟨e, slot, resolved⟩ := Option.bind_eq_some_iff.mp decoded
  obtain ⟨k, member⟩ := lookup_mem slot
  exact List.mem_flatMap.mpr ⟨_, member, RomEntry.decode_mem resolved⟩

/-! ## Instruction length -/

/-- `decode_length`. -/
def decodeLength (op : Word) (segmented : Bool) : Nat :=
  let hi := (op >>> 8).toNat
  let n2 := (nib2 op).toNat
  let l := (nib3 op).toNat
  let aw := if segmented then 2 else 1
  if hi ≤ 0x0B then (if n2 = 0 then 2 else 1)
  else if hi = 0x0C ∨ hi = 0x0D then (if l = 0x01 ∨ l = 0x05 ∨ l = 0x09 then 2 else 1)
  else if 0x10 ≤ hi ∧ hi ≤ 0x17 then
    (if n2 = 0 ∧ (hi = 0x10 ∨ hi = 0x12 ∨ hi = 0x14 ∨ hi = 0x16) then 3 else 1)
  else if hi = 0x18 ∨ hi = 0x1A then (if n2 = 0 then 3 else 1)
  else if hi = 0x19 ∨ hi = 0x1B then (if n2 = 0 then 2 else 1)
  else if hi = 0x1C then (if l = 0x01 ∨ l = 0x09 then 2 else 1)
  else if 0x20 ≤ hi ∧ hi ≤ 0x27 then (if n2 = 0 then 2 else 1)
  else if 0x30 ≤ hi ∧ hi ≤ 0x37 then 2
  else if hi = 0x3A ∨ hi = 0x3B then 2
  else if 0x40 ≤ hi ∧ hi ≤ 0x6F then
    if (hi = 0x4C ∨ hi = 0x4D) ∧ (l = 0x01 ∨ l = 0x05 ∨ l = 0x09) then 1 + aw + 1
    else if hi = 0x5C ∧ (l = 0x01 ∨ l = 0x09) then 1 + aw + 1
    else 1 + aw
  else if 0x70 ≤ hi ∧ hi ≤ 0x77 then 1 + aw
  else if hi = 0x79 then 1 + aw
  else if hi = 0x8E ∨ hi = 0x8F then 2
  else if (hi = 0xB2 ∨ hi = 0xB3) ∧ l % 2 = 1 then 2
  else if hi = 0xB8 ∨ hi = 0xBA ∨ hi = 0xBB then 2
  else 1

/-- `decode_seg_addr_w2`: the LDM forms of block 0x5C. -/
def decodeSegAddrW2 (op : Word) (segmented : Bool) : Bool :=
  segmented && op >>> 8 == 0x5C && (nib3 op == 0x1 || nib3 op == 0x9)

/-- `decode_seg_addr_w1`. -/
def decodeSegAddrW1 (op : Word) (segmented : Bool) : Bool :=
  let hi := (op >>> 8).toNat
  segmented && !decodeSegAddrW2 op segmented &&
    (decide (0x40 ≤ hi ∧ hi ≤ 0x77) || hi == 0x79)

end C900
