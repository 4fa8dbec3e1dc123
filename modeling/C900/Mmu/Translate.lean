import C900.Emu.State

/-!
# Address translation

`mmu.c`: the descriptor cache, violation latching and `mmu_translate`. The
cache is modelled with its code, so that a descriptor whose cache entry were
stale would translate the way the program translates it.
-/

namespace C900

/-! ## Violation type register bits -/

def vtFatl : Byte := 0x80
def vtSww : Byte := 0x40
def vtPww : Byte := 0x20
def vtExcv : Byte := 0x10
def vtCpuiv : Byte := 0x08
def vtSlv : Byte := 0x04
def vtSysv : Byte := 0x02
def vtRdv : Byte := 0x01

/-- `A_RESTRICT`: the attribute bits that force the slow translation path. -/
def aRestrict : Byte := aCpu ||| aRd ||| aSys ||| aExc ||| aDirw

/-- `x & 0x3F` used as a descriptor index. -/
def segIndex (x : Byte) : BitVec 6 := x.setWidth 6

/-! ## The descriptor cache -/

/-- A descriptor needs no protection or limit check. -/
def MmuDesc.simple (d : MmuDesc) : Bool :=
  d.limit == 0xFF && d.attr &&& aRestrict == 0

/-- `base << 8`, the physical address of offset zero. -/
def MmuDesc.frame (d : MmuDesc) : Long := d.base.setWidth 32 <<< 8

/-- `mmu_refresh_fast`: recompute one descriptor's cache entry. -/
def mmuRefreshFast (u : Mmu) (seg : Byte) : Mmu :=
  let s := segIndex seg
  { u with
    fastOk := Function.update u.fastOk s (u.desc s).simple
    fastBase := Function.update u.fastBase s (u.desc s).frame }

/-- A loop of the source over the 64 descriptor numbers, in ascending order. -/
def forSegs (body : Mmu → Byte → Mmu) (u : Mmu) : Mmu :=
  (List.range 64).foldl (fun u i => body u (BitVec.ofNat 8 i)) u

/-- Replace the descriptor that `seg` selects. -/
def Mmu.setDesc (u : Mmu) (seg : BitVec 6) (d : MmuDesc) : Mmu :=
  { u with desc := Function.update u.desc seg d }

/-- `mmu_reset`. -/
def mmuReset (u : Mmu) : Mmu :=
  let u := forSegs (fun u i => u.setDesc (segIndex i) { base := 0, limit := 0, attr := 0 }) u
  let u := { u with
    mode := modeMsen, sar := 0, dsc := 0
    violType := 0, violSn := 0, violOff := 0, bcsr := 0, isn := 0, ioff := 0
    violCaptured := false, segt := false, warnPending := false }
  forSegs mmuRefreshFast u

/-! ## Violations -/

/-- `latch_viol`. `suppress` is true for a hard violation and false for a
write warning. -/
def latchViol (u : Mmu) (viol sn : Byte) (off : Word) (isWrite isNormal : Bool)
    (st : Byte) (suppress : Bool) : Mmu :=
  let isWarn := !suppress
  let fatal := u.violCaptured && (suppress || (isWarn && isNormal))
  let sww := isWarn && !isNormal && (u.violType &&& vtPww != 0) && !fatal
  let u :=
    if !u.violCaptured then
      { u with
        violType := viol, violSn := sn, violOff := off
        bcsr := (st &&& 0x0F) ||| (if isWrite then 0x10 else 0) ||| (if isNormal then 0x20 else 0)
        violCaptured := true }
    else { u with violType := u.violType ||| viol }
  let u := if fatal then { u with violType := u.violType ||| vtFatl } else u
  let u := if sww then { u with violType := u.violType ||| vtSww } else u
  -- Once FATL or SWW is set no further trap is requested.
  if u.violType &&& (vtFatl ||| vtSww) == 0 then
    { u with segt := true, warnPending := u.warnPending || isWarn }
  else u

/-- The first failing test of the protection ladder, as its violation bit.
The order of the tests is the order of the source. -/
def ladderViol (d : MmuDesc) (page : Byte) (isWrite isNormal isFetch : Bool) : Option Byte :=
  if d.attr &&& aCpu != 0 then some vtCpuiv
  else if (if d.attr &&& aDirw != 0 then decide (page < d.limit) else decide (d.limit < page)) then
    some vtSlv
  else if d.attr &&& aRd != 0 && isWrite then some vtRdv
  else if d.attr &&& aSys != 0 && isNormal then some vtSysv
  else if d.attr &&& aExc != 0 && !isFetch then some vtExcv
  else none

/-- The REF/CHG accounting of a permitted access. -/
def MmuDesc.touch (d : MmuDesc) (isWrite : Bool) : MmuDesc :=
  let attr := d.attr ||| aRef
  { d with attr := if isWrite then attr ||| aChg else attr }

/-- The bus status code recorded in BCSR. -/
def busStatus (isWrite isFetch : Bool) : Byte :=
  if isFetch then 0x0D else if isWrite then 0x0A else 0x09

/-- The untranslated address of an access. -/
def identityAddr (sn : Byte) (off : Word) : Long :=
  ((sn &&& 0x7F).setWidth 32 <<< 16) ||| off.setWidth 32

/-- The physical address a permitted access gets from a descriptor. -/
def MmuDesc.phys (d : MmuDesc) (off : Word) : Long :=
  (d.frame + off.setWidth 32) &&& 0x00FFFFFF

/-- The slow path of `mmu_translate`: the protection ladder on the descriptor
itself. Returns the physical address, the fault flag and the MMU after it. -/
def protectionLadder (u : Mmu) (sn : Byte) (off : Word) (isWrite isNormal isFetch : Bool) :
    Long × Bool × Mmu :=
  let seg := segIndex sn
  let d := u.desc seg
  let page := (off >>> 8).setWidth 8
  let st := busStatus isWrite isFetch
  match ladderViol d page isWrite isNormal isFetch with
  | some viol => (identityAddr sn off, true, latchViol u viol sn off isWrite isNormal st true)
  | none =>
    let u := u.setDesc seg (d.touch isWrite)
    let u :=
      if d.attr &&& aDirw != 0 && isWrite && page == d.limit then
        latchViol u vtPww sn off isWrite isNormal st false
      else u
    (d.phys off, false, u)

/-- The cycle is one this MMU acts on: enabled, translating, and in the half
of the segment space that URS selects. -/
def Mmu.translates (u : Mmu) (sn : Byte) : Bool :=
  u.mode &&& modeMsen != 0 && u.mode &&& modeTrns != 0 &&
    ((sn >>> 6) &&& 1) == ((u.mode >>> 5) &&& 1)

/-- `mmu_translate`. -/
def mmuTranslate (u : Mmu) (sn : Byte) (off : Word) (isWrite isNormal isFetch : Bool) :
    Long × Bool × Mmu :=
  if !u.translates sn then (identityAddr sn off, false, u)
  else
    let seg := segIndex sn
    if u.fastOk seg then
      ((u.fastBase seg + off.setWidth 32) &&& 0x00FFFFFF, false,
        u.setDesc seg ((u.desc seg).touch isWrite))
    else protectionLadder u sn off isWrite isNormal isFetch

/-- `mmu_translate` with the cache ignored: every translated cycle runs the
protection ladder. -/
def translateUncached (u : Mmu) (sn : Byte) (off : Word) (isWrite isNormal isFetch : Bool) :
    Long × Bool × Mmu :=
  if !u.translates sn then (identityAddr sn off, false, u)
  else protectionLadder u sn off isWrite isNormal isFetch

/-! ## Commands -/

/-- `read_desc_byte`. -/
def readDescByte (u : Mmu) (which : Byte) : Word :=
  let d := u.desc (segIndex u.sar)
  if which = 0 then (d.base >>> 8) &&& 0xFF
  else if which = 1 then d.base &&& 0xFF
  else if which = 2 then d.limit.setWidth 16
  else d.attr.setWidth 16

/-- `write_desc_byte`. -/
def writeDescByte (u : Mmu) (which v : Byte) : Mmu :=
  let d := u.desc (segIndex u.sar)
  u.setDesc (segIndex u.sar)
    (if which = 0 then { d with base := (d.base &&& 0x00FF) ||| (v.setWidth 16 <<< 8) }
     else if which = 1 then { d with base := (d.base &&& 0xFF00) ||| v.setWidth 16 }
     else if which = 2 then { d with limit := v }
     else { d with attr := v })

/-- `sar = (sar + 1) & 0x3F`, when the command is the stepping form. -/
def Mmu.stepSar (u : Mmu) (inc : Bool) : Mmu :=
  if inc then { u with sar := (u.sar + 1) &&& 0x3F } else u

/-- DSC and SAR after a Base field access. -/
def Mmu.stepBase (u : Mmu) (inc : Bool) : Mmu :=
  if u.dsc &&& 1 == 1 then ({ u with dsc := 0 } : Mmu).stepSar inc else { u with dsc := 1 }

/-- DSC and SAR after a full descriptor access. -/
def Mmu.stepFull (u : Mmu) (inc : Bool) : Mmu :=
  let nd := (u.dsc + 1) &&& 3
  { u.stepSar (nd == 0 && inc) with dsc := nd }

/-- `mmu_cmd_read`. -/
def mmuCmdRead (u : Mmu) (cmd : Byte) : Word × Mmu :=
  match cmd.toNat with
  | 0x00 => (u.mode.setWidth 16, u)
  | 0x01 => (u.sar.setWidth 16, u)
  | 0x20 => (u.dsc.setWidth 16, u)
  | 0x08 | 0x0C => (readDescByte u (u.dsc &&& 1), u.stepBase (cmd == 0x0C))
  | 0x09 | 0x0D => (readDescByte u 2, u.stepSar (cmd == 0x0D))
  | 0x0A | 0x0E => (readDescByte u 3, u.stepSar (cmd == 0x0E))
  | 0x0B | 0x0F => (readDescByte u (u.dsc &&& 3), u.stepFull (cmd == 0x0F))
  | 0x02 => (u.violType.setWidth 16, u)
  | 0x03 => (u.violSn.setWidth 16, u)
  | 0x04 => ((u.violOff >>> 8) &&& 0xFF, u)
  | 0x05 => (u.bcsr.setWidth 16, u)
  | 0x06 => (u.isn.setWidth 16, u)
  | 0x07 => (u.ioff.setWidth 16, u)
  | _ => (0, u)

/-- One iteration of the bulk attribute commands 0x15 and 0x16. -/
def orAttr (bit : Byte) (u : Mmu) (i : Byte) : Mmu :=
  let d := u.desc (segIndex i)
  mmuRefreshFast (u.setDesc (segIndex i) { d with attr := d.attr ||| bit }) i

/-- `mmu_cmd_write`. The descriptor commands remember the descriptor they
wrote (`tgt`) before SAR steps, and refresh that one. -/
def mmuCmdWrite (u : Mmu) (cmd data : Byte) : Mmu :=
  let tgt := u.sar &&& 0x3F
  match cmd.toNat with
  | 0x00 => { u with mode := data }
  | 0x01 => { u with sar := data &&& 0x3F, dsc := 0 }
  | 0x20 => { u with dsc := data &&& 0x03 }
  | 0x08 | 0x0C =>
    mmuRefreshFast ((writeDescByte u (u.dsc &&& 1) data).stepBase (cmd == 0x0C)) tgt
  | 0x09 | 0x0D => mmuRefreshFast ((writeDescByte u 2 data).stepSar (cmd == 0x0D)) tgt
  | 0x0A | 0x0E => mmuRefreshFast ((writeDescByte u 3 data).stepSar (cmd == 0x0E)) tgt
  | 0x0B | 0x0F =>
    mmuRefreshFast ((writeDescByte u (u.dsc &&& 3) data).stepFull (cmd == 0x0F)) tgt
  | 0x11 => { u with violType := 0, violCaptured := false, segt := false }
  | 0x13 => { u with violType := u.violType &&& ~~~vtSww }
  | 0x14 => { u with violType := u.violType &&& ~~~vtFatl }
  | 0x15 => forSegs (orAttr aCpu) u
  | 0x16 => forSegs (orAttr aDmai) u
  | _ => u

end C900
