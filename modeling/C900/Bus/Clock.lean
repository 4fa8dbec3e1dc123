import C900.Emu.State
import C900.Logic.Loop

/-!
# The real-time clock

The OKI MSM58321 on CIO #1: `rtc_advance` and below count the calendar, the two
port B functions are its bus. The divider runs on the instruction count.
-/

namespace C900

def rtcPbD : Byte := 0x0F
def rtcPbRead : Byte := 0x10
def rtcPbWrite : Byte := 0x20
def rtcPbAdwr : Byte := 0x40
def rtcPbStop : Byte := 0x80

def cioPbdata : BitVec 6 := 0x0E
def cioPcdata : BitVec 6 := 0x0F
def cioPbdd : BitVec 6 := 0x2B

/-- `RTC_DEFAULT_IPS`. -/
def rtcDefaultIps : Quad := 1500000

/-- `rtc_rdmask`. -/
def rtcRdmask (r : Reg) : Byte :=
  match r.toNat with
  | 1 | 3 | 6 => 0x07
  | 10 => 0x01
  | 13 | 14 | 15 => 0x00
  | _ => 0x0F

/-- `rtc_cs`: /CS is bit 1 of port C, active low. -/
def rtcCs (b : Bus) : Bool := b.cio1 cioPcdata &&& 0x02 == 0

/-! ## The calendar -/

/-- A decimal digit as a register value. -/
def digit (n : Nat) : Byte := BitVec.ofNat 8 n

/-- Write one register. -/
def Rtc.setReg (r : Rtc) (i : Reg) (v : Byte) : Rtc := { r with regs := Function.update r.regs i v }

/-- `rtc_mlen`. -/
def rtcMlen (mo : Nat) (leap : Bool) : Nat :=
  match mo with
  | 2 => if leap then 29 else 28
  | 4 | 6 | 9 | 11 => 30
  | _ => 31

/-- `rtc_year_tick`. The leap-year selection in D10 counts down. -/
def rtcYearTick (r : Rtc) : Rtc :=
  let y := ((r.regs 0xC &&& 0x0F).toNat * 10 + (r.regs 0xB &&& 0x0F).toNat + 1) % 100
  let d10 := r.regs 0x8
  ((r.setReg 0xB (digit (y % 10))).setReg 0xC (digit (y / 10))).setReg 0x8
    ((d10 &&& 0x03) ||| ((((d10 >>> 2) + 3) &&& 3) <<< 2))

/-- `rtc_day_tick`. -/
def rtcDayTick (r : Rtc) : Rtc :=
  let d := (r.regs 0x8 &&& 0x03).toNat * 10 + (r.regs 0x7 &&& 0x0F).toNat + 1
  let mo := (r.regs 0xA &&& 0x01).toNat * 10 + (r.regs 0x9 &&& 0x0F).toNat
  let leap := (r.regs 0x8 >>> 2) &&& 3 == 0
  let r := r.setReg 0x6 (digit (((r.regs 0x6).toNat + 1) % 7))
  if rtcMlen mo leap < d then
    let r := if 12 < mo + 1 then rtcYearTick r else r
    let mo := if 12 < mo + 1 then 1 else mo + 1
    let r := r.setReg 0x9 (digit (mo % 10))
    let r := r.setReg 0xA ((r.regs 0xA &&& 0x0E) ||| digit (mo / 10))
    (r.setReg 0x7 (digit 1)).setReg 0x8 (r.regs 0x8 &&& 0x0C)
  else
    (r.setReg 0x7 (digit (d % 10))).setReg 0x8 ((r.regs 0x8 &&& 0x0C) ||| digit (d / 10))

/-- `rtc_hour_tick`. -/
def rtcHourTick (r : Rtc) : Rtc :=
  let h10 := r.regs 0x5
  let h := (h10 &&& 0x03).toNat * 10 + (r.regs 0x4 &&& 0x0F).toNat + 1
  if h10 &&& 0x08 != 0 then
    let r := if 23 < h then rtcDayTick r else r
    let h := if 23 < h then 0 else h
    (r.setReg 0x4 (digit (h % 10))).setReg 0x5 (0x08 ||| digit (h / 10))
  else
    let pm := if h = 12 then (h10 &&& 0x04) ^^^ 0x04 else h10 &&& 0x04
    let r := if h = 12 ∧ pm = 0 then rtcDayTick r else r
    let h := if 12 < h then 1 else h
    (r.setReg 0x4 (digit (h % 10))).setReg 0x5 (pm ||| digit (h / 10))

/-- A digit counter of `rtc_tick`: count up, and past `top` start again at zero
and carry. -/
def rtcDigitTick (i : Reg) (top : Byte) (carry : Rtc → Rtc) (r : Rtc) : Rtc :=
  let v := r.regs i + 1
  if top < v then carry (r.setReg i 0) else r.setReg i v

/-- `rtc_tick`: one second. -/
def rtcTick (r : Rtc) : Rtc :=
  rtcDigitTick 0 9 (rtcDigitTick 1 5 (rtcDigitTick 2 9 (rtcDigitTick 3 5 rtcHourTick)))
    { r with nTick := r.nTick + 1 }

/-! ## The divider -/

/-- One round of the loop of `rtc_advance`. -/
def rtcCarry (cs : Bool) (r : Rtc) : Rtc :=
  let r := rtcTick { r with base := r.base + r.ips }
  if cs && decide (r.csSince ≤ r.base) then { r with nTickSelected := r.nTickSelected + 1 } else r

/-- `rtc_advance`: as many seconds as fit between `base` and now. The divider
rate `ips` is never zero in the program. -/
def rtcAdvance (b : Bus) (insns : Quad) : Bus :=
  if !b.rtc.present || b.rtc.stopped then b
  else
    let seconds := (insns - b.rtc.base).toNat / b.rtc.ips.toNat
    { b with rtc := forUpTo seconds (fun _ => rtcCarry (rtcCs b)) b.rtc }

/-- `rtc_set_stop`. -/
def rtcSetStop (b : Bus) (insns : Quad) (stop : Bool) : Bus :=
  if stop = b.rtc.stopped then b
  else if stop then
    let b := rtcAdvance b insns
    { b with rtc := { b.rtc with held := insns - b.rtc.base, stopped := true } }
  else { b with rtc := { b.rtc with base := insns - b.rtc.held, stopped := false } }

/-! ## Port B -/

/-- The address and write strobes of a port B write with /CS asserted. -/
def rtcStrobe (r : Rtc) (insns : Quad) (v : Byte) : Rtc :=
  let old := r.prevPb
  let r :=
    if v &&& rtcPbAdwr != 0 && old &&& rtcPbAdwr == 0 then
      { r with addr := (v &&& rtcPbD).setWidth 4 }
    else r
  if v &&& rtcPbWrite != 0 && old &&& rtcPbWrite == 0 then
    let r := { r with nWrite := r.nWrite + 1 }
    if r.addr = 0xD then { r with base := insns, held := 0 }
    else r.setReg r.addr (v &&& rtcPbD)
  else r

/-- `rtc_pb_write`. -/
def rtcPbWriteTo (b : Bus) (insns : Quad) (v : Byte) : Bus :=
  if !b.rtc.present then b
  else
    let cs := rtcCs b
    let r := b.rtc
    let r := { r with csSince := if cs && !r.prevCs then insns else r.csSince, prevCs := cs }
    let b := rtcAdvance { b with rtc := r } insns
    let r := if cs then rtcStrobe b.rtc insns v else b.rtc
    rtcSetStop { b with rtc := { r with prevPb := v } } insns (v &&& rtcPbStop != 0)

/-- `rtc_pb_read`: the byte on port B and the bus after the read. -/
def rtcPbReadFrom (b : Bus) (insns : Quad) (latch : Byte) : Byte × Bus :=
  if !b.rtc.present then (latch, b)
  else
    let b := rtcAdvance b insns
    let din := b.cio1 cioPbdd &&& rtcPbD
    if !rtcCs b || latch &&& rtcPbRead == 0 || din == 0 then (latch, b)
    else
      let r := b.rtc
      let v := r.regs r.addr &&& rtcRdmask r.addr
      let v := if r.addr = 0x5 ∧ r.regs 0x5 &&& 0x08 ≠ 0 then v &&& ~~~(0x04 : Byte) else v
      ((latch &&& ~~~din) ||| (v &&& din), { b with rtc := { r with nRead := r.nRead + 1 } })

/-- `rtc_wday`, for years from 1 on. -/
def rtcWday (y m d : Nat) : Nat :=
  let t := [0, 3, 2, 5, 0, 3, 5, 1, 4, 6, 2, 4]
  let y := if m < 3 then y - 1 else y
  (y + y / 4 - y / 100 + y / 400 + t.getD (m - 1) 0 + d) % 7

/-- `rtc_set_time`. -/
def rtcSetTime (b : Bus) (insns : Quad) (y mo d h mi s : Nat) : Bus :=
  let r := b.rtc
  let regs : List Byte :=
    [digit (s % 10), digit (s / 10), digit (mi % 10), digit (mi / 10), digit (h % 10),
      0x08 ||| digit (h / 10), digit (rtcWday y mo d), digit (d % 10),
      digit (((4 - y % 4) % 4) * 4) ||| digit (d / 10), digit (mo % 10), digit (mo / 10),
      digit (y % 100 % 10), digit (y % 100 / 10)]
  { b with rtc := { r with
      regs := fun i => regs.getD i.toNat (r.regs i)
      addr := 0, prevPb := 0, stopped := false, prevCs := false, csSince := 0
      base := insns, held := 0, present := true } }

end C900
