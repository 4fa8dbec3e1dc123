import C900.Bus.Io
import C900.Logic.Prescaler

/-!
# The seconds of the real-time clock

The divider of the clock is caught up when port B or port C is accessed and when STOP
moves. As a prescaler of instructions it counts the seconds that have passed with STOP
low, whatever the accesses in between: between two resets of the divider the clock
counts one second for every `ips` instructions.
-/

namespace C900

/-! ## The divider as a prescaler -/

/-- The divider, its ticks counted from where the counter of the seconds stood at
`start`. -/
def Rtc.prescaler (r : Rtc) (start : Quad) : Prescaler where
  rate := r.ips.toNat
  base := r.base.toNat
  held := r.held.toNat
  stopped := r.stopped
  ticks := (r.nTick - start).toNat

/-- What a clock holds besides the calendar and the counts of its reads, writes and
ticks under /CS. -/
structure DividerState where
  present : Bool
  ips : Quad
  base : Quad
  held : Quad
  stopped : Bool
  nTick : Quad
  prevPb : Byte
  addr : Reg

namespace Rtc

/-- The divider's part of a clock. -/
def divider (r : Rtc) : DividerState where
  present := r.present
  ips := r.ips
  base := r.base
  held := r.held
  stopped := r.stopped
  nTick := r.nTick
  prevPb := r.prevPb
  addr := r.addr

@[simp] theorem setReg_divider (r : Rtc) (i : Reg) (v : Byte) :
    (r.setReg i v).divider = r.divider := rfl

@[simp] theorem yearTick_divider (r : Rtc) : (rtcYearTick r).divider = r.divider := rfl

@[simp] theorem dayTick_divider (r : Rtc) : (rtcDayTick r).divider = r.divider := by
  unfold rtcDayTick
  dsimp only
  split
  · simp only [setReg_divider, apply_ite divider, yearTick_divider, ite_self]
  · simp only [setReg_divider]

@[simp] theorem hourTick_divider (r : Rtc) : (rtcHourTick r).divider = r.divider := by
  unfold rtcHourTick
  dsimp only
  split
  · simp only [setReg_divider, apply_ite divider, dayTick_divider, ite_self]
  · simp only [setReg_divider, apply_ite divider, dayTick_divider, ite_self]

theorem digitTick_divider (i : Reg) (top : Byte) {carry : Rtc → Rtc}
    (keeps : ∀ r, (carry r).divider = r.divider) (r : Rtc) :
    (rtcDigitTick i top carry r).divider = r.divider := by
  unfold rtcDigitTick
  dsimp only
  split
  · exact (keeps _).trans (setReg_divider r i 0)
  · exact setReg_divider r i _

/-- A second of the calendar is counted and leaves the divider alone. -/
theorem tick_divider (r : Rtc) :
    (rtcTick r).divider = { r.divider with nTick := r.nTick + 1 } := by
  unfold rtcTick
  rw [digitTick_divider 0 9 (digitTick_divider 1 5 (digitTick_divider 2 9
    (digitTick_divider 3 5 hourTick_divider)))]
  rfl

/-- A carry begins the next second. -/
theorem carry_divider (cs : Bool) (r : Rtc) :
    (rtcCarry cs r).divider = { r.divider with base := r.base + r.ips, nTick := r.nTick + 1 } := by
  have second := tick_divider { r with base := r.base + r.ips }
  unfold rtcCarry
  dsimp only
  split
  · exact second
  · exact second

theorem prescaler_of_divider {r : Rtc} {d : DividerState} (same : r.divider = d) (start : Quad) :
    r.prescaler start =
      ⟨d.ips.toNat, d.base.toNat, d.held.toNat, d.stopped, (d.nTick - start).toNat⟩ := by
  rw [← same]
  rfl

end Rtc

/-- `n` carries, as long as they stay below the instruction count. -/
theorem carries_divider (cs : Bool) (r : Rtc) (n : Nat) :
    (forUpTo n (fun _ => rtcCarry cs) r).divider =
      { r.divider with
        base := r.base + BitVec.ofNat 64 (n * r.ips.toNat)
        nTick := r.nTick + BitVec.ofNat 64 n } := by
  induction n with
  | zero => simp [Rtc.divider]
  | succ n inductionHypothesis =>
    have ips := congrArg DividerState.ips inductionHypothesis
    have base := congrArg DividerState.base inductionHypothesis
    have nTick := congrArg DividerState.nTick inductionHypothesis
    rw [forUpTo.succ, Rtc.carry_divider, inductionHypothesis]
    dsimp only [Rtc.divider] at ips base nTick ⊢
    rw [ips, base, nTick, BitVec.add_assoc, Nat.add_mul, Nat.one_mul, BitVec.ofNat_add,
      BitVec.ofNat_toNat, BitVec.setWidth_eq, BitVec.add_assoc, BitVec.ofNat_add n 1]
    rfl

/-- `rtc_advance` of a clock that runs. -/
theorem rtcAdvance_running {b : Bus} (present : b.rtc.present = true)
    (running : b.rtc.stopped = false) (insns : Quad) :
    (rtcAdvance b insns).rtc = forUpTo ((insns - b.rtc.base).toNat / b.rtc.ips.toNat)
      (fun _ => rtcCarry (rtcCs b)) b.rtc := by
  unfold rtcAdvance
  rw [present, running]
  rfl

/-- `rtc_advance` catches the prescaler up. Its ticks are no more than the instructions
it has run for, so the counter of the seconds does not wrap past `start`. -/
theorem rtcAdvance_prescaler {b : Bus} (present : b.rtc.present = true) {start insns : Quad}
    (positive : 0 < b.rtc.ips.toNat) (valid : (b.rtc.prescaler start).Valid insns.toNat)
    (fits : (b.rtc.prescaler start).passed insns.toNat < 2 ^ 64) :
    (rtcAdvance b insns).rtc.prescaler start = (b.rtc.prescaler start).advance insns.toNat := by
  cases stopped : b.rtc.stopped with
  | true =>
    have frozen : rtcAdvance b insns = b := by
      unfold rtcAdvance
      rw [present, stopped]
      rfl
    rw [frozen, Prescaler.advance_of_stopped stopped]
  | false =>
    have started : b.rtc.base.toNat ≤ insns.toNat := valid.base stopped
    have gap : (insns - b.rtc.base).toNat = insns.toNat - b.rtc.base.toNat :=
      BitVec.toNat_sub_of_le started
    let n := (insns.toNat - b.rtc.base.toNat) / b.rtc.ips.toNat
    have whole : n * b.rtc.ips.toNat ≤ insns.toNat - b.rtc.base.toNat := Nat.div_mul_le_self _ _
    have below : b.rtc.base.toNat + n * b.rtc.ips.toNat < 2 ^ 64 := by
      have bound := insns.isLt
      omega
    have base : (b.rtc.base + BitVec.ofNat 64 (n * b.rtc.ips.toNat)).toNat =
        b.rtc.base.toNat + n * b.rtc.ips.toNat := by
      rw [BitVec.toNat_add, BitVec.toNat_ofNat, Nat.add_mod_mod, Nat.mod_eq_of_lt below]
    have running : ¬(b.rtc.prescaler start).stopped = true := by
      intro frozen
      exact Bool.false_ne_true (stopped.symm.trans frozen)
    have few : (b.rtc.nTick - start).toNat + n < 2 ^ 64 := by
      obtain ⟨-, passed, -⟩ := valid.advance positive
      have most := ((b.rtc.prescaler start).advance insns.toNat).ticks_le_passed insns.toNat
        (Prescaler.advance_rate.symm ▸ positive)
      rw [passed, Prescaler.advance, if_neg running] at most
      exact Nat.lt_of_le_of_lt most fits
    have ticks : (b.rtc.nTick + BitVec.ofNat 64 n - start).toNat =
        (b.rtc.nTick - start).toNat + n := by
      have moved : b.rtc.nTick + BitVec.ofNat 64 n - start =
          b.rtc.nTick - start + BitVec.ofNat 64 n := by
        rw [BitVec.sub_eq_add_neg, BitVec.sub_eq_add_neg, BitVec.add_assoc,
          BitVec.add_comm (BitVec.ofNat 64 n), BitVec.add_assoc]
      rw [moved, BitVec.toNat_add, BitVec.toNat_ofNat, Nat.add_mod_mod, Nat.mod_eq_of_lt few]
    have counted := Rtc.prescaler_of_divider (carries_divider (rtcCs b) b.rtc n) start
    dsimp only [Rtc.divider] at counted
    rw [base, ticks] at counted
    rw [rtcAdvance_running present stopped, gap, Prescaler.advance, if_neg running]
    exact counted

/-- What `rtc_advance` leaves alone. -/
theorem rtcAdvance_divider (b : Bus) (insns : Quad) : ∃ base nTick,
    (rtcAdvance b insns).rtc.divider = { b.rtc.divider with base := base, nTick := nTick } := by
  unfold rtcAdvance
  split
  · exact ⟨_, _, rfl⟩
  · exact ⟨_, _, carries_divider (rtcCs b) b.rtc _⟩

/-- `rtc_set_stop` stops and releases the prescaler. -/
theorem rtcSetStop_prescaler {b : Bus} (present : b.rtc.present = true) {start insns : Quad}
    (positive : 0 < b.rtc.ips.toNat) (valid : (b.rtc.prescaler start).Valid insns.toNat)
    (fits : (b.rtc.prescaler start).passed insns.toNat < 2 ^ 64) (stop : Bool) :
    (rtcSetStop b insns stop).rtc.prescaler start =
      (b.rtc.prescaler start).setStop insns.toNat stop := by
  have stopped : (b.rtc.prescaler start).stopped = b.rtc.stopped := rfl
  unfold rtcSetStop Prescaler.setStop
  rw [stopped]
  split_ifs with same stops
  · rfl
  · obtain ⟨after, -, -⟩ := valid.advance positive
    have caught := rtcAdvance_prescaler present positive valid fits
    have running : ((b.rtc.prescaler start).advance insns.toNat).stopped = false := by
      rw [Prescaler.advance_stopped, stopped]
      cases frozen : b.rtc.stopped with
      | true => exact absurd (stops.trans frozen.symm) same
      | false => rfl
    have base : (rtcAdvance b insns).rtc.base.toNat =
        ((b.rtc.prescaler start).advance insns.toNat).base :=
      congrArg Prescaler.base caught
    have held : (insns - (rtcAdvance b insns).rtc.base).toNat =
        insns.toNat - ((b.rtc.prescaler start).advance insns.toNat).base := by
      rw [← base]
      exact BitVec.toNat_sub_of_le (BitVec.le_def.mpr (base ▸ after.base running))
    rw [← held, ← caught]
    rfl
  · have frozen : (b.rtc.prescaler start).stopped = true := by
      cases running : b.rtc.stopped with
      | true => exact running
      | false => exact absurd ((Bool.not_eq_true _ ▸ stops).trans running.symm) same
    have base : (insns - b.rtc.held).toNat = insns.toNat - b.rtc.held.toNat :=
      BitVec.toNat_sub_of_le (valid.held frozen).1
    rw [Rtc.prescaler]
    dsimp only
    rw [base]
    rfl

/-! ## Accesses -/

/-- A port that reaches port B or port C of CIO #1. -/
def onClock (port : Word) : Prop :=
  port &&& 0xFF80 = 0 ∧ (cioReg port = cioPbdata ∨ cioReg port = cioPcdata)

/-- An access to the clock's ports. -/
inductive ClockAccess where
  | read (port : Word) (clock : onClock port)
  | write (port data : Word) (clock : onClock port)

/-- The access at an instruction count. -/
def ClockAccess.run (b : Bus) (insns : Quad) : ClockAccess → Bus
  | .read port _ => (busRead b insns port).2
  | .write port data _ => busWrite b insns port data

/-- The level on port B that a write hands to the clock. -/
def ClockAccess.level (b : Bus) (port data : Word) : Byte :=
  if cioReg port = cioPbdata then hiByte data else b.rtc.prevPb

/-- The bus with the byte in the CIO. -/
def latchCio1 (b : Bus) (port data : Word) : Bus :=
  { b with cio1 := Function.update b.cio1 (cioReg port) (hiByte data) }

/-- The address register behind the strobes of a write. -/
def Rtc.strobedAddr (r : Rtc) (v : Byte) : Reg :=
  if v &&& rtcPbAdwr != 0 && r.prevPb &&& rtcPbAdwr == 0 then (v &&& rtcPbD).setWidth 4 else r.addr

/-- A level on port B strobes WRITE at the address 0xD under /CS. -/
def Bus.strobesReset (b : Bus) (v : Byte) : Bool :=
  rtcCs b && (v &&& rtcPbWrite != 0 && b.rtc.prevPb &&& rtcPbWrite == 0) &&
    b.rtc.strobedAddr v == 0xD

/-- The access resets the divider. -/
def ClockAccess.resets (b : Bus) : ClockAccess → Bool
  | .read _ _ => false
  | .write port data _ => (latchCio1 b port data).strobesReset (ClockAccess.level b port data)

theorem sccChipAt_clock (b : Bus) {port : Word} (clock : onClock port) :
    sccChipAt b port = none := by
  unfold sccChipAt
  rw [clock.1]
  cases b.lrScc <;> rfl

/-- A write to the clock's ports. -/
theorem busWrite_clock (b : Bus) (insns : Quad) {port : Word} (clock : onClock port) (data : Word) :
    busWrite b insns port data =
      rtcPbWriteTo (latchCio1 b port data) insns (ClockAccess.level b port data) := by
  unfold busWrite cio1Write ClockAccess.level latchCio1
  rw [sccChipAt_clock b clock]
  dsimp only
  rw [if_pos clock.1]
  rcases clock.2 with isB | isC
  · rw [isB]
    rfl
  · rw [isC]
    rfl

/-- `rtc_pb_read` of a fitted clock catches up. -/
theorem rtcPbReadFrom_divider {b : Bus} (present : b.rtc.present = true) (insns : Quad)
    (latch : Byte) :
    (rtcPbReadFrom b insns latch).2.rtc.divider = (rtcAdvance b insns).rtc.divider := by
  unfold rtcPbReadFrom
  rw [if_neg (by rw [present]; exact Bool.false_ne_true)]
  dsimp only
  split
  · rfl
  · rfl

/-- A read of the clock's ports catches up, or does nothing. -/
theorem busRead_clock {b : Bus} (present : b.rtc.present = true) (insns : Quad) {port : Word}
    (clock : onClock port) :
    (busRead b insns port).2.rtc.divider = b.rtc.divider ∨
      (busRead b insns port).2.rtc.divider = (rtcAdvance b insns).rtc.divider := by
  unfold busRead
  rw [sccChipAt_clock b clock]
  dsimp only
  rw [if_pos clock.1]
  split_ifs
  · exact Or.inl rfl
  · exact Or.inr (rtcPbReadFrom_divider present insns _)
  · exact Or.inl rfl

/-- The strobes of a level on port B: a reset begins a second, and nothing else touches
the divider. -/
theorem rtcStrobe_prescaler (b : Bus) (start insns : Quad) (v : Byte) :
    (if rtcCs b then rtcStrobe b.rtc insns v else b.rtc).prescaler start =
      if b.strobesReset v then (b.rtc.prescaler start).reset insns.toNat
      else b.rtc.prescaler start := by
  unfold Bus.strobesReset rtcStrobe Rtc.strobedAddr
  cases rtcCs b with
  | false => rfl
  | true =>
    simp only [if_true, Bool.true_and]
    cases v &&& rtcPbAdwr != 0 && b.rtc.prevPb &&& rtcPbAdwr == 0 <;>
      cases v &&& rtcPbWrite != 0 && b.rtc.prevPb &&& rtcPbWrite == 0 <;>
      simp only [if_true, if_false, Bool.false_eq_true, Bool.true_and, Bool.false_and, beq_iff_eq]
    all_goals first | rfl | (split <;> rfl)

theorem rtcStrobe_frame (r : Rtc) (insns : Quad) (v : Byte) :
    (rtcStrobe r insns v).present = r.present ∧ (rtcStrobe r insns v).ips = r.ips := by
  unfold rtcStrobe
  dsimp only
  split_ifs <;> exact ⟨rfl, rfl⟩

/-- What catching up does depends on the divider alone. -/
theorem rtcAdvance_congr {b c : Bus} (same : b.rtc.divider = c.rtc.divider) (insns : Quad) :
    (rtcAdvance b insns).rtc.divider = (rtcAdvance c insns).rtc.divider := by
  have present : b.rtc.present = c.rtc.present := congrArg DividerState.present same
  have stopped : b.rtc.stopped = c.rtc.stopped := congrArg DividerState.stopped same
  have base : b.rtc.base = c.rtc.base := congrArg DividerState.base same
  have ips : b.rtc.ips = c.rtc.ips := congrArg DividerState.ips same
  have nTick : b.rtc.nTick = c.rtc.nTick := congrArg DividerState.nTick same
  unfold rtcAdvance
  rw [present, stopped, base, ips]
  split
  · exact same
  · dsimp only
    rw [carries_divider, carries_divider, same, base, ips, nTick]

theorem rtcAdvance_cs (b : Bus) (insns : Quad) : rtcCs (rtcAdvance b insns) = rtcCs b := by
  unfold rtcAdvance
  split <;> rfl

/-- The strobes see the levels from before the catching up. -/
theorem rtcAdvance_strobesReset {b c : Bus} (same : b.rtc.divider = c.rtc.divider)
    (cs : rtcCs b = rtcCs c) (insns : Quad) (v : Byte) :
    (rtcAdvance b insns).strobesReset v = c.strobesReset v := by
  obtain ⟨base, nTick, kept⟩ := rtcAdvance_divider b insns
  have prevPb : (rtcAdvance b insns).rtc.prevPb = c.rtc.prevPb :=
    (congrArg DividerState.prevPb kept).trans (congrArg DividerState.prevPb same)
  have addr : (rtcAdvance b insns).rtc.addr = c.rtc.addr :=
    (congrArg DividerState.addr kept).trans (congrArg DividerState.addr same)
  unfold Bus.strobesReset Rtc.strobedAddr
  rw [rtcAdvance_cs, cs, prevPb, addr]

/-- The prescaler that a port B level leaves before STOP moves. -/
def Bus.strobed (b : Bus) (start insns : Quad) (v : Byte) : Prescaler :=
  let caught := (rtcAdvance b insns).rtc.prescaler start
  if b.strobesReset v then caught.reset insns.toNat else caught

theorem rtcAdvance_rate (b : Bus) (insns : Quad) :
    (rtcAdvance b insns).rtc.ips.toNat = b.rtc.ips.toNat := by
  obtain ⟨base, nTick, kept⟩ := rtcAdvance_divider b insns
  exact congrArg (BitVec.toNat ∘ DividerState.ips) kept

theorem Bus.strobed_rate (b : Bus) (start insns : Quad) (v : Byte) :
    (b.strobed start insns v).rate = b.rtc.ips.toNat := by
  unfold strobed
  dsimp only
  split
  · exact rtcAdvance_rate b insns
  · exact rtcAdvance_rate b insns

theorem rtcSetStop_frame (b : Bus) (insns : Quad) (stop : Bool) :
    (rtcSetStop b insns stop).rtc.present = b.rtc.present ∧
      (rtcSetStop b insns stop).rtc.prevPb = b.rtc.prevPb ∧
      (rtcSetStop b insns stop).rtc.ips = b.rtc.ips := by
  obtain ⟨base, nTick, kept⟩ := rtcAdvance_divider b insns
  unfold rtcSetStop
  split_ifs
  · exact ⟨rfl, rfl, rfl⟩
  · exact ⟨congrArg DividerState.present kept, congrArg DividerState.prevPb kept,
      congrArg DividerState.ips kept⟩
  · exact ⟨rfl, rfl, rfl⟩

/-- `rtc_pb_write` catches up, strobes and moves STOP. -/
theorem rtcPbWriteTo_prescaler {b : Bus} (present : b.rtc.present = true)
    (positive : 0 < b.rtc.ips.toNat) {start insns : Quad} {v : Byte}
    (valid : (b.strobed start insns v).Valid insns.toNat)
    (fits : (b.strobed start insns v).passed insns.toNat < 2 ^ 64) :
    (rtcPbWriteTo b insns v).rtc.prescaler start =
        (b.strobed start insns v).setStop insns.toNat (v &&& rtcPbStop != 0) ∧
      (rtcPbWriteTo b insns v).rtc.present = true ∧ (rtcPbWriteTo b insns v).rtc.prevPb = v := by
  let selected : Bus := { b with rtc := { b.rtc with
    csSince := if rtcCs b && !b.rtc.prevCs then insns else b.rtc.csSince, prevCs := rtcCs b } }
  let caught := rtcAdvance selected insns
  let strobed := if rtcCs b then rtcStrobe caught.rtc insns v else caught.rtc
  let moved : Bus := { caught with rtc := { strobed with prevPb := v } }
  have run : rtcPbWriteTo b insns v = rtcSetStop moved insns (v &&& rtcPbStop != 0) := by
    unfold rtcPbWriteTo
    rw [if_neg (by rw [present]; exact Bool.false_ne_true)]
  have same : selected.rtc.divider = b.rtc.divider := rfl
  have level : caught.rtc.prescaler start = (rtcAdvance b insns).rtc.prescaler start := by
    rw [Rtc.prescaler_of_divider (rtcAdvance_congr same insns)]
    rfl
  have after : moved.rtc.prescaler start = b.strobed start insns v := by
    have strobes := rtcStrobe_prescaler caught start insns v
    rw [rtcAdvance_cs, rtcAdvance_strobesReset same rfl] at strobes
    rw [Bus.strobed, ← level]
    exact strobes
  have fitted : moved.rtc.present = true := by
    obtain ⟨base, nTick, kept⟩ := rtcAdvance_divider selected insns
    have stays : caught.rtc.present = true := (congrArg DividerState.present kept).trans present
    have strobes : strobed.present = caught.rtc.present := by
      dsimp only [strobed]
      split
      · exact (rtcStrobe_frame caught.rtc insns v).1
      · rfl
    exact strobes.trans stays
  have rate : 0 < moved.rtc.ips.toNat := by
    have same := congrArg Prescaler.rate after
    rw [Bus.strobed_rate] at same
    exact Nat.lt_of_lt_of_eq positive same.symm
  obtain ⟨keepsPresent, keepsLevel, -⟩ := rtcSetStop_frame moved insns (v &&& rtcPbStop != 0)
  rw [run, rtcSetStop_prescaler fitted rate (after ▸ valid) (after ▸ fits), after]
  exact ⟨rfl, keepsPresent.trans fitted, keepsLevel⟩

/-! ## Runs -/

/-- STOP is high: the level last written to port B. -/
def Bus.stopHigh (b : Bus) : Bool := b.rtc.prevPb &&& rtcPbStop != 0

/-- The bus after a list of accesses. -/
def clockRun (b : Bus) (accesses : List (Quad × ClockAccess)) : Bus :=
  accesses.foldl (fun b x => x.2.run b x.1) b

/-- The instructions executed with STOP low, from the count `since` to the last of the
accesses. -/
def lowTime : Bus → Quad → List (Quad × ClockAccess) → Nat
  | _, _, [] => 0
  | b, since, (now, access) :: rest =>
    (if b.stopHigh then 0 else now.toNat - since.toNat) + lowTime (access.run b now) now rest

/-- The accesses come in the order of their counts, none before `since`. -/
def InOrder : Quad → List (Quad × ClockAccess) → Prop
  | _, [] => True
  | since, (now, _) :: rest => since ≤ now ∧ InOrder now rest

/-- None of the accesses resets the divider. -/
def NoReset : Bus → List (Quad × ClockAccess) → Prop
  | _, [] => True
  | b, (now, access) :: rest => access.resets b = false ∧ NoReset (access.run b now) rest

/-- A fitted clock with a working divider: `elapsed` instructions have passed at the
count `now` since the counter of the seconds stood at `start`. -/
structure Counting (b : Bus) (start now : Quad) (ips elapsed : Nat) : Prop where
  present : b.rtc.present = true
  positive : 0 < ips
  rate : b.rtc.ips.toNat = ips
  valid : (b.rtc.prescaler start).Valid now.toNat
  stopped : b.rtc.stopped = b.stopHigh
  passed : (b.rtc.prescaler start).passed now.toNat = elapsed
  bound : elapsed ≤ now.toNat

variable {b : Bus} {start since now : Quad} {ips elapsed : Nat}

/-- Time passes while STOP is low. -/
theorem Counting.later (counting : Counting b start since ips elapsed) (order : since ≤ now) :
    Counting b start now ips
      (elapsed + if b.stopHigh then 0 else now.toNat - since.toNat) := by
  have order : since.toNat ≤ now.toNat := BitVec.le_def.mp order
  refine ⟨counting.present, counting.positive, counting.rate, counting.valid.later order,
    counting.stopped, ?_, ?_⟩
  · have level : (b.rtc.prescaler start).stopped = b.stopHigh := counting.stopped
    rw [counting.valid.passed_later order, counting.passed, level]
  · have bound := counting.bound
    split <;> omega

/-- The time that has passed fits in the count of the instructions. -/
theorem Counting.fits (counting : Counting b start now ips elapsed) :
    (b.rtc.prescaler start).passed now.toNat < 2 ^ 64 := by
  rw [counting.passed]
  exact Nat.lt_of_le_of_lt counting.bound now.isLt

/-- The count depends on the divider alone. -/
theorem Counting.congr (counting : Counting b start now ips elapsed) {c : Bus}
    (same : c.rtc.divider = b.rtc.divider) : Counting c start now ips elapsed := by
  have prescaler : c.rtc.prescaler start = b.rtc.prescaler start :=
    Rtc.prescaler_of_divider same start
  have level : c.stopHigh = b.stopHigh :=
    congrArg (fun d : DividerState => d.prevPb &&& rtcPbStop != 0) same
  refine ⟨(congrArg DividerState.present same).trans counting.present, counting.positive,
    ?_, ?_, ?_, ?_, counting.bound⟩
  · exact (congrArg (BitVec.toNat ∘ DividerState.ips) same).trans counting.rate
  · rw [prescaler]
    exact counting.valid
  · rw [level]
    exact (congrArg DividerState.stopped same).trans counting.stopped
  · rw [prescaler]
    exact counting.passed

/-- Catching up keeps the count and leaves less than a second. -/
theorem Counting.advance (counting : Counting b start now ips elapsed) :
    Counting (rtcAdvance b now) start now ips elapsed ∧
      ((rtcAdvance b now).rtc.prescaler start).phase now.toNat < ips := by
  have positive : 0 < b.rtc.ips.toNat := counting.rate ▸ counting.positive
  have caught := rtcAdvance_prescaler counting.present positive counting.valid counting.fits
  obtain ⟨base, nTick, kept⟩ := rtcAdvance_divider b now
  obtain ⟨valid, passed, less⟩ := counting.valid.advance positive
  have level : (rtcAdvance b now).stopHigh = b.stopHigh :=
    congrArg (fun d : DividerState => d.prevPb &&& rtcPbStop != 0) kept
  rw [← caught] at valid passed less
  refine ⟨⟨(congrArg DividerState.present kept).trans counting.present, counting.positive,
    ?_, valid, ?_, passed.trans counting.passed, counting.bound⟩, ?_⟩
  · exact (rtcAdvance_rate b now).trans counting.rate
  · exact ((congrArg DividerState.stopped kept).trans counting.stopped).trans level.symm
  · exact Nat.lt_of_lt_of_eq less counting.rate

/-- A level on port B that resets nothing keeps the count. -/
theorem Counting.write (counting : Counting b start now ips elapsed) {v : Byte}
    (noReset : b.strobesReset v = false) :
    Counting (rtcPbWriteTo b now v) start now ips elapsed := by
  obtain ⟨caught, less⟩ := counting.advance
  have strobed : b.strobed start now v = (rtcAdvance b now).rtc.prescaler start := by
    rw [Bus.strobed, noReset]
    rfl
  have whole : ((rtcAdvance b now).rtc.prescaler start).phase now.toNat <
      ((rtcAdvance b now).rtc.prescaler start).rate := Nat.lt_of_lt_of_eq less caught.rate.symm
  obtain ⟨valid, passed, rate, stopped, -⟩ := caught.valid.setStop whole (v &&& rtcPbStop != 0)
  obtain ⟨after, present, prevPb⟩ := rtcPbWriteTo_prescaler counting.present
    (counting.rate ▸ counting.positive) (strobed ▸ caught.valid) (strobed ▸ caught.fits)
  rw [strobed] at after
  refine ⟨present, counting.positive, ?_, ?_, ?_, ?_, counting.bound⟩
  · exact ((congrArg Prescaler.rate after).trans rate).trans caught.rate
  · rw [after]
    exact valid
  · rw [Bus.stopHigh, prevPb]
    exact (congrArg Prescaler.stopped after).trans stopped
  · rw [after, passed]
    exact caught.passed

/-- An access that resets nothing adds the instructions since the one before it, if STOP
was low. -/
theorem Counting.access (counting : Counting b start since ips elapsed) (order : since ≤ now)
    (access : ClockAccess) (noReset : access.resets b = false) :
    Counting (access.run b now) start now ips
      (elapsed + if b.stopHigh then 0 else now.toNat - since.toNat) := by
  have counting := counting.later order
  cases access with
  | read port clock =>
    rcases busRead_clock counting.present now clock with idle | caught
    · exact counting.congr idle
    · exact counting.advance.1.congr caught
  | write port data clock =>
    have latched := counting.congr (c := latchCio1 b port data) rfl
    rw [ClockAccess.run, busWrite_clock b now clock]
    exact latched.write noReset

/-- A write to port B leaves the rate of the clock. -/
theorem rtcPbWriteTo_ips (b : Bus) (insns : Quad) (v : Byte) :
    (rtcPbWriteTo b insns v).rtc.ips = b.rtc.ips := by
  have advance : ∀ b : Bus, (rtcAdvance b insns).rtc.ips = b.rtc.ips := fun b => by
    obtain ⟨base, nTick, kept⟩ := rtcAdvance_divider b insns
    exact congrArg DividerState.ips kept
  unfold rtcPbWriteTo
  split
  · rfl
  · dsimp only
    rw [(rtcSetStop_frame _ insns _).2.2]
    dsimp only
    rw [apply_ite Rtc.ips, (rtcStrobe_frame _ insns v).2, ite_self, advance]

/-- A reset begins a second and counts none. -/
theorem rtcPbWriteTo_reset (now : Quad) (present : b.rtc.present = true)
    (positive : 0 < b.rtc.ips.toNat) {v : Byte} (resets : b.strobesReset v = true) :
    Counting (rtcPbWriteTo b now v) (rtcPbWriteTo b now v).rtc.nTick now b.rtc.ips.toNat 0 ∧
      (rtcPbWriteTo b now v).rtc.nTick = (rtcAdvance b now).rtc.nTick := by
  let start := (rtcAdvance b now).rtc.nTick
  let caught := (rtcAdvance b now).rtc.prescaler start
  have none : caught.ticks = 0 := congrArg BitVec.toNat (BitVec.sub_self start)
  have strobed : b.strobed start now v = caught.reset now.toNat := by
    rw [Bus.strobed, resets]
    rfl
  have caughtRate : caught.rate = b.rtc.ips.toNat := rtcAdvance_rate b now
  have caughtPositive : 0 < caught.rate := Nat.lt_of_lt_of_eq positive caughtRate.symm
  have begun : (caught.reset now.toNat).passed now.toNat = 0 := by
    rw [Prescaler.passed, Prescaler.reset_phase]
    show caught.ticks * caught.rate + 0 = 0
    rw [none, Nat.zero_mul]
  obtain ⟨valid, counted, phase, rate, stopped⟩ :=
    caught.reset_setStop now.toNat caughtPositive (v &&& rtcPbStop != 0)
  obtain ⟨after, stays, prevPb⟩ := rtcPbWriteTo_prescaler present positive
    (strobed ▸ caught.reset_valid now.toNat caughtPositive)
    (strobed ▸ Nat.lt_of_le_of_lt (Nat.le_of_eq begun) (by decide))
  rw [strobed] at after
  have nTick : (rtcPbWriteTo b now v).rtc.nTick = start := by
    have still : ((rtcPbWriteTo b now v).rtc.nTick - start).toNat = 0 :=
      ((congrArg Prescaler.ticks after).trans counted).trans none
    bv_omega
  rw [nTick]
  refine ⟨⟨stays, positive, ?_, ?_, ?_, ?_, Nat.zero_le _⟩, rfl⟩
  · exact ((congrArg Prescaler.rate after).trans rate).trans caughtRate
  · rw [after]
    exact valid
  · rw [Bus.stopHigh, prevPb]
    exact (congrArg Prescaler.stopped after).trans stopped
  · rw [after, Prescaler.passed, phase, counted, none, Nat.zero_mul]

/-- The first access that resets the divider finds every second of the instructions that
were executed with STOP low. -/
theorem Counting.ticks_reset {accesses : List (Quad × ClockAccess)} {final : ClockAccess}
    (counting : Counting b start since ips elapsed)
    (order : InOrder since (accesses ++ [(now, final)])) (noReset : NoReset b accesses)
    (resets : final.resets (clockRun b accesses) = true) :
    ((clockRun b (accesses ++ [(now, final)])).rtc.nTick - start).toNat =
      (elapsed + lowTime b since (accesses ++ [(now, final)])) / ips := by
  induction accesses generalizing b since elapsed with
  | nil =>
    cases final with
    | read port clock => exact Bool.noConfusion resets
    | write port data clock =>
      have latched := (counting.later order.1).congr (c := latchCio1 b port data) rfl
      obtain ⟨caught, less⟩ := latched.advance
      obtain ⟨-, nTick⟩ := rtcPbWriteTo_reset now latched.present
        (latched.rate ▸ latched.positive) resets
      have counted := Prescaler.ticks_eq_div (Nat.lt_of_lt_of_eq less caught.rate.symm)
      rw [caught.passed] at counted
      calc ((clockRun b ([] ++ [(now, .write port data clock)])).rtc.nTick - start).toNat
          = ((busWrite b now port data).rtc.nTick - start).toNat := rfl
        _ = ((rtcAdvance (latchCio1 b port data) now).rtc.nTick - start).toNat := by
            rw [busWrite_clock b now clock]
            exact congrArg (fun n : Quad => (n - start).toNat) nTick
        _ = (elapsed + lowTime b since [(now, .write port data clock)]) /
              (rtcAdvance (latchCio1 b port data) now).rtc.ips.toNat := counted
        _ = (elapsed + lowTime b since [(now, .write port data clock)]) / ips := by
            rw [caught.rate]
  | cons x rest inductionHypothesis =>
    have counting := counting.access order.1 x.2 noReset.1
    have counted := inductionHypothesis counting order.2 noReset.2 resets
    rw [Nat.add_assoc] at counted
    exact counted

/-! ## Seconds between two resets -/

/-- The bus just after a reset of the divider: the clock has been seeded and its rate
chosen, or a write to its ports has strobed the address 0xD. -/
inductive ResetAt : Bus → Quad → Prop where
  | seed (b : Bus) (now ips : Quad) (y mo d h mi s : Nat) :
    ResetAt { rtcSetTime b now y mo d h mi s with
      rtc := { (rtcSetTime b now y mo d h mi s).rtc with ips := ips } } now
  | strobe (b : Bus) (now : Quad) (access : ClockAccess) (present : b.rtc.present = true)
    (resets : access.resets b = true) : ResetAt (access.run b now) now

/-- A reset begins a count. -/
theorem ResetAt.counting (reset : ResetAt b now) (positive : b.rtc.ips ≠ 0) :
    Counting b b.rtc.nTick now b.rtc.ips.toNat 0 := by
  have rate : 0 < b.rtc.ips.toNat :=
    Nat.pos_of_ne_zero fun none => positive (BitVec.eq_of_toNat_eq none)
  cases reset with
  | seed b now ips y mo d h mi s =>
    have low : false = ((0 : Byte) &&& rtcPbStop != 0) := by decide
    refine ⟨rfl, rate, rfl, ⟨fun _ => Nat.le_refl _, fun absurdly => Bool.noConfusion absurdly⟩,
      low, ?_, Nat.zero_le _⟩
    show (b.rtc.nTick - b.rtc.nTick).toNat * ips.toNat + (now.toNat - now.toNat) = 0
    rw [BitVec.sub_self, Nat.sub_self, BitVec.toNat_zero, Nat.zero_mul]
  | strobe b now access present resets =>
    cases access with
    | read port clock => exact Bool.noConfusion resets
    | write port data clock =>
      have latched : (latchCio1 b port data).rtc.present = true := present
      rw [ClockAccess.run, busWrite_clock b now clock] at rate ⊢
      rw [rtcPbWriteTo_ips] at rate ⊢
      exact (rtcPbWriteTo_reset now latched rate resets).1

/-- Between two resets the clock counts one second for every `ips` instructions executed
with STOP low, whatever the accesses in between. The program seeds the clock before the
first instruction only, so that a seeding after a reset comes at the same count. -/
theorem ResetAt.seconds (reset : ResetAt b since) (positive : b.rtc.ips ≠ 0) :
    (∀ (accesses : List (Quad × ClockAccess)) (now : Quad) (final : ClockAccess),
      InOrder since (accesses ++ [(now, final)]) → NoReset b accesses →
      final.resets (clockRun b accesses) = true →
      ((clockRun b (accesses ++ [(now, final)])).rtc.nTick - b.rtc.nTick).toNat =
        lowTime b since (accesses ++ [(now, final)]) / b.rtc.ips.toNat) ∧
      ∀ y mo d h mi s, (rtcSetTime b since y mo d h mi s).rtc.nTick - b.rtc.nTick = 0 := by
  constructor
  · intro accesses now final order noReset resets
    have counted := (reset.counting positive).ticks_reset order noReset resets
    rw [Nat.zero_add] at counted
    exact counted
  · intro y mo d h mi s
    exact BitVec.sub_self b.rtc.nTick

/-- A write to port B. -/
def portB (data : Word) : ClockAccess := .write 0x1C data ⟨rfl, Or.inl rfl⟩

/-- A clock seeded with ten instructions to a second. -/
def seededClock : Bus :=
  { rtcSetTime default 0 2024 2 29 23 59 58 with
    rtc := { (rtcSetTime default 0 2024 2 29 23 59 58).rtc with ips := 10 } }

/-- STOP is raised at 25 and lowered at 40; the write at 47 latches the address 0xD. -/
def stopAndGo : List (Quad × ClockAccess) :=
  [(25, portB 0x8000), (40, portB 0x0000), (47, portB 0x4D00)]

/-- The divider is reset at 58: 43 instructions with STOP low are four seconds. -/
theorem seededClock_seconds :
    ((clockRun seededClock (stopAndGo ++ [(58, portB 0x2D00)])).rtc.nTick -
        seededClock.rtc.nTick).toNat = 43 / 10 := by
  have seeded : ResetAt seededClock 0 := ResetAt.seed default 0 10 2024 2 29 23 59 58
  have order : InOrder 0 (stopAndGo ++ [(58, portB 0x2D00)]) :=
    ⟨by decide, by decide, by decide, by decide, trivial⟩
  have noReset : NoReset seededClock stopAndGo :=
    ⟨by decide, by decide +kernel, by decide +kernel, trivial⟩
  exact ((seeded.seconds (by decide)).1 stopAndGo 58 (portB 0x2D00) order noReset
    (by decide +kernel)).trans (by decide +kernel)

end C900
