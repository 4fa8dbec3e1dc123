import C900.Emu.State

/-!
# The serial ports

The Z8030 channels of `bus.c`: register access, interrupt vectors and the
matching of marks in the output. The ports are numbered as in the serial port
table of `emu.h`: port `2 * chip + chan`, channel 1 being A.
-/

namespace C900

/-- A serial port number, `0 … SCC_PORTS - 1`. -/
abbrev SccPort := Fin 6

/-- The port of channel `chanA` on a chip. -/
def sccPortNumber (chip : Fin 3) (chanA : Bool) : SccPort :=
  Fin.ofNat 6 (chip.val * 2 + chanA.toNat)

/-- `RX_BLOCKED_POLLS`. -/
def rxBlockedPolls : Long := 64

/-- `scc_port`: none for a port whose board is not fitted. -/
def Bus.sccPort (b : Bus) (port : SccPort) : Option SccChan :=
  if port.val = 0 then some b.sccB
  else if port.val = 1 then some b.sccA
  else if b.lrScc then some (b.lrSccChan (Fin.ofNat 4 (port.val - 2)))
  else none

/-- Put back a channel. -/
def Bus.setSccPort (b : Bus) (port : SccPort) (ch : SccChan) : Bus :=
  if port.val = 0 then { b with sccB := ch }
  else if port.val = 1 then { b with sccA := ch }
  else { b with lrSccChan := Function.update b.lrSccChan (Fin.ofNat 4 (port.val - 2)) ch }

/-- A channel that was put back is found again. -/
theorem sccPort_setSccPort_same {b : Bus} {port : SccPort} {old : SccChan}
    (fitted : b.sccPort port = some old) (ch : SccChan) :
    (b.setSccPort port ch).sccPort port = some ch := by
  unfold Bus.sccPort Bus.setSccPort at *
  split_ifs at fitted ⊢ <;> simp

/-- Putting back a channel leaves the other ports alone. -/
theorem sccPort_setSccPort_other {port other : SccPort} (different : other ≠ port) (b : Bus)
    (ch : SccChan) : (b.setSccPort port ch).sccPort other = b.sccPort other := by
  have apart : ¬ other.val = port.val := fun same => different (Fin.ext same)
  unfold Bus.sccPort Bus.setSccPort
  split_ifs <;> try first | rfl | omega
  have slots : Fin.ofNat 4 (other.val - 2) ≠ Fin.ofNat 4 (port.val - 2) := by
    intro same
    have equal := congrArg Fin.val same
    simp only [Fin.ofNat] at equal
    omega
  simp only [Function.update_of_ne slots]

@[simp] theorem setSccPort_wirePortOn (b : Bus) (port : SccPort) (ch : SccChan) :
    (b.setSccPort port ch).wirePortOn = b.wirePortOn := by
  unfold Bus.setSccPort
  split_ifs <;> rfl

/-! ## Interrupts -/

/-- `scc_rx_int`. -/
def sccRxInt (ch : SccChan) : Bool :=
  ch.wr 9 &&& 0x08 != 0 && ch.rxAvail && ch.wr 1 &&& 0x18 != 0

/-- `scc_vector_chip`. -/
def sccVectorChip (b : Bus) (chip : Fin 3) (src : Byte) : Byte :=
  match b.sccPort (sccPortNumber chip false) with
  | none => 0
  | some chB =>
    let base := chB.wr 2
    if chB.wr 9 &&& 0x10 != 0 then (base &&& ~~~(0x70 : Byte)) ||| (src <<< 4)
    else (base &&& ~~~(0x0E : Byte)) ||| (src <<< 1)

/-- `scc_vector_of`. -/
def sccVectorOf (b : Bus) (chip : Fin 3) : Byte :=
  match b.sccPort (sccPortNumber chip true), b.sccPort (sccPortNumber chip false) with
  | some chA, some chB =>
    if sccRxInt chA then sccVectorChip b chip 0x06
    else if sccRxInt chB then sccVectorChip b chip 0x02
    else chB.wr 2
  | _, _ => 0

/-- `scc_rr3_of`. -/
def sccRr3Of (b : Bus) (chip : Fin 3) : Byte :=
  match b.sccPort (sccPortNumber chip true), b.sccPort (sccPortNumber chip false) with
  | some chA, some chB =>
    (if sccRxInt chA then 0x20 else 0) ||| (if sccRxInt chB then 0x04 else 0)
  | _, _ => 0

/-! ## Register access -/

/-- The register an access reaches: the pointer when it is set, else the
address-decoded one. -/
def SccChan.register (ch : SccChan) (addrReg : Reg) : Reg := if ch.ptr ≠ 0 then ch.ptr else addrReg

/-- The console is channel B of the motherboard chip. -/
def isConsole (chip : Fin 3) (chanA : Bool) : Bool := chip.val == 0 && !chanA

/-- `scc_read`: the byte and the bus after it. -/
def sccRead (b : Bus) (insns : Quad) (chip : Fin 3) (chanA : Bool) (addrReg : Reg) :
    Byte × Bus :=
  let port := sccPortNumber chip chanA
  match b.sccPort port with
  | none => (0, b)
  | some ch =>
    let r := ch.register addrReg
    let ch := { ch with ptr := 0 }
    let console := isConsole chip chanA
    match r.toNat with
    | 0 =>
      let b := b.setSccPort port ch
      let b :=
        if console && !ch.rxAvail then
          { b with
            rxPollStreak := b.rxPollStreak + 1
            guestPolls := b.guestPolls || decide (rxBlockedPolls ≤ b.rxPollStreak + 1) }
        else b
      (0x6C ||| (if ch.rxAvail then 0x01 else 0), b)
    | 8 =>
      let b := b.setSccPort port { ch with rxAvail := false }
      (ch.rxData, if console then { b with rxPollStreak := 0, lastTxInsn := insns } else b)
    | 1 => (0x01 ||| (if ch.rxOverrun then 0x20 else 0), b.setSccPort port ch)
    | 2 =>
      let b := b.setSccPort port ch
      (if chanA then ch.wr 2 else sccVectorOf b chip, b)
    | 3 =>
      let b := b.setSccPort port ch
      (if chanA then sccRr3Of b chip else 0, b)
    | _ => (ch.wr r, b.setSccPort port ch)

/-! ## Marks in the output -/

/-- The first `k` characters of the mark end what has matched, `mark[0..pos-1]`. -/
def markBorder (mark : List Byte) (pos k : Nat) : Bool :=
  mark.take k == (mark.drop (pos - k)).take k

/-- The loop of `mark_advance` over `k`: the longest border of at most `k`. -/
def markFallback (mark : List Byte) (pos : Nat) : Nat → Nat
  | 0 => 0
  | k + 1 => if markBorder mark pos (k + 1) then k + 1 else markFallback mark pos k

theorem markFallback_le (mark : List Byte) (pos k : Nat) : markFallback mark pos k ≤ k := by
  induction k with
  | zero => exact Nat.le_refl 0
  | succ k inductionHypothesis =>
    rw [markFallback]
    split_ifs with border
    · exact Nat.le_refl _
    · exact Nat.le_succ_of_le inductionHypothesis

/-- `mark_advance`. The terminating zero of the C string is `getD _ 0`. -/
def markAdvance (mark : List Byte) (pos : Nat) (v : Byte) : Nat :=
  if mark.getD pos 0 = v then pos + 1
  else if atStart : pos = 0 then 0
  else markAdvance mark (markFallback mark pos (pos - 1)) v
termination_by pos
decreasing_by
  have := markFallback_le mark pos (pos - 1)
  omega

/-- `stop_mark_watch`. -/
def stopMarkWatch (b : Bus) (port : SccPort) (v : Byte) : Bus :=
  match b.stopMark with
  | none => b
  | some mark =>
    let pos := markAdvance mark (b.stopMarkPos port) v
    { b with
      stopMarkPos := Function.update b.stopMarkPos port pos
      stop := b.stop || mark.getD pos 0 == 0 }

/-- `console_put_char` and `wire_put_char_n`: a byte leaves for the host. -/
def Bus.send (b : Bus) (port : SccPort) (v : Byte) : Bus :=
  { b with sent := Function.update b.sent port (v :: b.sent port) }

/-- The `--input-mark` match on one console character. -/
def inputMarkWatch (b : Bus) (v : Byte) : Bus :=
  match b.inqMark with
  | none => b
  | some mark =>
    if b.inqMarkSeen then b
    else
      let pos := markAdvance mark b.inqMarkPos v
      { b with inqMarkPos := pos, inqMarkSeen := mark.getD pos 0 == 0 }

/-- The console half of a WR8 write. -/
def consoleTransmit (b : Bus) (insns : Quad) (port : SccPort) (v : Byte) : Bus :=
  let b := { b.send port v with lastTxInsn := insns, rxPollStreak := 0 }
  let b := stopMarkWatch (inputMarkWatch b v) port v
  if (v == 0x23 || v == 0x3E) && decide (1000000 < insns.toNat) then
    { b with shellUp := true, promptSeq := b.promptSeq + 1, atPrompt := true }
  else { b with atPrompt := false }

/-- `scc_write`. -/
def sccWrite (b : Bus) (insns : Quad) (chip : Fin 3) (chanA : Bool) (addrReg : Reg)
    (v : Byte) : Bus :=
  let port := sccPortNumber chip chanA
  match b.sccPort port with
  | none => b
  | some ch =>
    let r := ch.register addrReg
    let ch := { ch with ptr := 0 }
    if r = 0 then
      let ptr : Reg := (v &&& 0x07).setWidth 4
      let cmd := (v >>> 3) &&& 0x07
      b.setSccPort port { ch with
        ptr := if cmd = 1 then ptr ||| 0x8 else ptr
        rxOverrun := ch.rxOverrun && cmd != 6 }
    else if r = 8 then
      let b := b.setSccPort port ch
      if isConsole chip chanA then consoleTransmit b insns port v
      else stopMarkWatch (if b.wirePortOn port then b.send port v else b) port v
    else
      let b := b.setSccPort port { ch with wr := Function.update ch.wr r v }
      -- WR2 and WR9 are one register for both channels of a chip.
      if r = 2 ∨ r = 9 then
        let other := sccPortNumber chip (!chanA)
        match b.sccPort other with
        | none => b
        | some o => b.setSccPort other { o with wr := Function.update o.wr r v }
      else b

/-- `scc_chip_at`. -/
def sccChipAt (b : Bus) (port : Word) : Option (Fin 3) :=
  if port &&& 0xFF80 = 0x0100 then some 0
  else if !b.lrScc then none
  else if port &&& 0xFF80 = 0x0300 then some 1
  else if port &&& 0xFF80 = 0x0380 then some 2
  else none

end C900
