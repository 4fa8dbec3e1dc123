import C900.Emu.State
import C900.Logic.Buffer
import C900.Logic.HostInt

/-!
# Executable files

`lout_parse` reads the header of an l.out file in its two dialects, `lout_layout` groups
its sections by the link flags and gives the groups their segments, and the load loops of
`run_exec` and `seg_image` write the bytes. A C `int` is an `Int` in its range: the sums of
`lout_layout` are those of 32-bit two's complement arithmetic.
-/

namespace C900

open HostInt

/-! ## The header -/

/-- `LoutHdr`. -/
structure LoutHdr where
  tbase : Int
  flag : Word
  ss : Fin 9 → Int
  /-- The stride of the symbol records. -/
  symrec : Int
  native : Bool
  entrySeg : Byte
  entryOff : Word

/-- What `lout_bad` reports. -/
inductive LoutError where
  /-- "%zu bytes is shorter than an l.out header" -/
  | tooShort (len : Nat)
  /-- "magic %#o, want %#o" -/
  | magic (found : Nat)
  /-- "magic %#o header-size %d, want %#o and 48 (native) or 88 (legacy)" -/
  | dialect (found size : Nat)
  /-- "section %d size %d is negative" -/
  | negative (i : Fin 9) (size : Int)
  /-- "header describes %ld bytes (…) but the file is %ld" -/
  | overrun (stop : Int) (len : Nat)
  /-- "no section has any content" -/
  | noContent
  /-- "section group %d needs segments %d..%d, past the 7-bit segment space" -/
  | pastSegments (i : Nat) (first last : Int)
deriving DecidableEq

/-- `LOUT_MAGIC`. -/
def loutMagic : Nat := 0o407

/-- `BE16`. `LE16` is `Buffer.get16`. -/
def be16 (b : Buffer) (o : Nat) : Nat := 256 * (b o).toNat + (b (o + 1)).toNat

/-- Two halves of a size as a C `int`. -/
def sizeOf32 (high low : Nat) : Int := (BitVec.ofNat 32 (high * 65536 + low)).toInt

/-- `lout_symoff`. -/
def loutSymoff (h : LoutHdr) : Int := h.tbase + h.ss 0 + h.ss 1 + h.ss 3 + h.ss 4 + h.ss 6

/-- `lout_check`. -/
def loutCheck (len : Nat) (h : LoutHdr) : Except LoutError LoutHdr :=
  match (List.finRange 9).find? (fun i => h.ss i < 0) with
  | some i => .error (.negative i (h.ss i))
  | none =>
    let stop := loutSymoff h + h.ss 7
    if stop < 0 ∨ (len : Int) < stop then .error (.overrun stop len) else .ok h

/-- `lout_parse`. -/
def loutParse (b : Buffer) (len : Nat) : Except LoutError LoutHdr :=
  if len < 88 then .error (.tooShort len)
  else if b.get16 6 = 48 then
    if b.get16 0 ≠ loutMagic then .error (.magic (b.get16 0))
    else
      loutCheck len {
        tbase := 48, symrec := 22, native := true
        flag := BitVec.ofNat 16 (b.get16 2)
        ss := fun i => sizeOf32 (b.get16 (8 + 4 * i.val)) (b.get16 (8 + 4 * i.val + 2))
        entrySeg := BitVec.ofNat 8 (b.get16 44 / 256) &&& 0x7F
        entryOff := BitVec.ofNat 16 (b.get16 46) }
  else if be16 b 0 ≠ loutMagic ∨ be16 b 6 ≠ 88 then .error (.dialect (be16 b 0) (be16 b 6))
  else
    loutCheck len {
      tbase := be16 b 6, symrec := 32, native := false
      flag := BitVec.ofNat 16 (be16 b 2)
      ss := fun i => sizeOf32 (be16 b (8 + 8 * i.val)) (be16 b (8 + 8 * i.val + 2))
      entrySeg := b 80 &&& 0x7F
      entryOff := BitVec.ofNat 16 (be16 b 82) }

/-! ## The layout -/

/-- `LoutPiece`. -/
structure LoutPiece where
  foff : Int
  moff : Int
  len : Int
deriving DecidableEq

/-- `LoutGroup`; the count `np` is the length of `p`. -/
structure LoutGroup where
  p : List LoutPiece
  span : Int
  bss : Int
deriving DecidableEq

/-- `PIECE`. -/
def LoutGroup.piece (g : LoutGroup) (fo mo ln : Int) : LoutGroup :=
  { g with
    p := if 0 < ln then g.p ++ [⟨fo, mo, ln⟩] else g.p
    span := if g.span < cInt (mo + ln) then cInt (mo + ln) else g.span }

/-- A zeroed group. -/
def emptyGroup : LoutGroup := ⟨[], 0, 0⟩

/-- The groups of `lout_layout`, by the link mode. -/
def loutGroups (h : LoutHdr) : List LoutGroup :=
  let si := h.ss 0
  let pi := h.ss 1
  let bi := h.ss 2
  let sd := h.ss 3
  let pd := h.ss 4
  let bd := h.ss 5
  let fSi := h.tbase
  let fPi := cInt (fSi + si)
  let fSd := cInt (fPi + pi)
  let fPd := cInt (fSd + sd)
  match (h.flag &&& 0x03).toNat with
  | 0 => [{ emptyGroup.piece fSi 0 (cInt (si + pi + sd + pd)) with bss := cInt (bi + bd) }]
  | 1 =>
    [(emptyGroup.piece fSi 0 si).piece fSd si sd,
      { (emptyGroup.piece fPi 0 pi).piece fPd pi pd with bss := cInt (bi + bd) }]
  | 2 =>
    [{ emptyGroup.piece fSi 0 (cInt (si + pi)) with bss := bi },
      { emptyGroup.piece fSd 0 (cInt (sd + pd)) with bss := bd }]
  | _ =>
    [emptyGroup.piece fSi 0 si, { emptyGroup.piece fPi 0 pi with bss := bi },
      emptyGroup.piece fSd 0 sd, { emptyGroup.piece fPd 0 pd with bss := bd }]

/-- A group that gets a segment. -/
def LoutGroup.nonempty (g : LoutGroup) : Bool := 0 < g.span || 0 < g.bss

/-- A group with the `seg` and `base` of its slot. -/
structure LoutPlaced where
  group : LoutGroup
  seg : Byte
  base : Int
deriving DecidableEq

/-- `LoutLayout`; the count `ng` is the length of `groups`. -/
structure LoutLayout where
  groups : List LoutPlaced
  lastSeg : Int
deriving DecidableEq

/-- The `nseg` of a group; the division of C truncates. -/
def LoutPlaced.nseg (g : LoutPlaced) : Int :=
  let total := cInt (g.base + g.group.span + g.group.bss)
  let nseg := (cInt (total + 0xFFFF)).tdiv 0x10000
  if nseg < 1 then 1 else nseg

/-- The group `i` of the surviving ones, at its base. -/
def LoutHdr.slot (h : LoutHdr) (i : Nat) (seg : Byte) (g : LoutGroup) : LoutPlaced :=
  ⟨g, seg, if i = 0 then (h.entryOff.toNat : Int) else 0⟩

/-- The loop of `lout_layout` over the surviving groups. The segment numbers themselves stay
small: `nseg` is below 2^15, and the loop ends when they pass 0x7F. -/
def placeGroups (h : LoutHdr) : Nat → Int → List LoutGroup → Except LoutError LoutLayout
  | _, segN, [] => .ok ⟨[], segN - 1⟩
  | i, segN, g :: rest =>
    let placed := h.slot i (BitVec.ofInt 8 segN) g
    if 0x7F < segN + placed.nseg - 1 then
      .error (.pastSegments i segN (segN + placed.nseg - 1))
    else
      match placeGroups h (i + 1) (segN + placed.nseg) rest with
      | .error e => .error e
      | .ok l => .ok ⟨placed :: l.groups, l.lastSeg⟩

/-- `lout_layout`. -/
def loutLayout (h : LoutHdr) : Except LoutError LoutLayout :=
  match (loutGroups h).filter LoutGroup.nonempty with
  | [] => .error .noContent
  | groups => placeGroups h 0 h.entrySeg.toNat groups

/-! ## Loading -/

/-- Where `gw8` writes: the segment and the offset. -/
def gw8At (seg off : Int) : Byte × Word := (BitVec.ofInt 8 seg, BitVec.ofInt 16 off)

/-- The address within its group of byte `j` of a piece. -/
def LoutPlaced.addr (g : LoutPlaced) (p : LoutPiece) (j : Int) : Int := g.base + p.moff + j

/-- Where the load loop of `run_exec` puts the byte at an address of a group. -/
def runExecAt (g : LoutPlaced) (a : Int) : Byte × Word :=
  gw8At (g.seg.toNat + a / 65536) (a % 65536)

/-- Where the load loop of `seg_image` puts it. -/
def segImageAt (g : LoutPlaced) (a : Int) : Byte × Word :=
  gw8At (BitVec.ofInt 8 (g.seg.toNat + a / 0x10000)).toNat
    (BitVec.ofInt 16 (a % 0x10000)).toNat

end C900
