import Mathlib.Tactic.SplitIfs
import C900.Logic.History
import C900.Bus.Marks

/-!
# The wired serial ports

The host endpoints of `wire.c` and the receive gate `scc_wire_service`. One
byte waits in a port's receiver; behind it stand the endpoint's read buffer and
the bytes the host has written. The theorem accounts for every byte that leaves
the endpoint, in both settings of `--rx-overrun` and for every order of host
writes, service passes and guest accesses.
-/

namespace C900

/-- `WireEnd`, with the bytes that the host has written and `recv` has not yet
handed over. `buf` holds the `len` bytes of the last `recv`. -/
structure WireEnd where
  attached : Bool
  buf : List Byte
  pos : Nat
  socket : List Byte
deriving Inhabited

/-- The bytes still in the endpoint, in the order they will be returned. -/
def WireEnd.pending (e : WireEnd) : List Byte := e.buf.drop e.pos ++ e.socket

/-- `wire_poll_char_n`. `ready` is the number of bytes a `recv` finds. -/
def wirePollCharN (e : WireEnd) (ready : Nat) : Option Byte × WireEnd :=
  if !e.attached then (none, e)
  else if e.buf.length ≤ e.pos then
    let n := min (min ready 8192) e.socket.length
    if n = 0 then (none, e)
    else
      let e := { e with buf := e.socket.take n, socket := e.socket.drop n, pos := 0 }
      (e.buf[e.pos]?, { e with pos := e.pos + 1 })
  else (e.buf[e.pos]?, { e with pos := e.pos + 1 })

/-- `scc_rx_deliver`; `rxOverrunOn` is the `--rx-overrun` setting of the run. -/
def sccRxDeliver (rxOverrunOn : Bool) (ch : SccChan) (v : Byte) : SccChan :=
  let ch :=
    if ch.rxAvail && rxOverrunOn then { ch with rxOverrun := true, rxLost := ch.rxLost + 1 }
    else ch
  { ch with rxData := v, rxAvail := true }

/-- The bus with the host endpoints, `g_end`. -/
structure Wired where
  bus : Bus
  ends : SccPort → WireEnd
deriving Inhabited

/-- One round of the loop of `scc_wire_service`. -/
def servicePort (rxOverrunOn : Bool) (ready : SccPort → Nat) (w : Wired) (port : SccPort) :
    Wired :=
  if !w.bus.wirePortOn port then w
  else
    match w.bus.sccPort port with
    | none => w
    | some ch =>
      if ch.rxAvail && !rxOverrunOn then w
      else
        let polled := wirePollCharN (w.ends port) (ready port)
        let w := { w with ends := Function.update w.ends port polled.2 }
        match polled.1 with
        | none => w
        | some v => { w with bus := w.bus.setSccPort port (sccRxDeliver rxOverrunOn ch v) }

/-- `scc_wire_service`: ports `SERPORT_MB_A` to `SCC_PORTS - 1`. -/
def sccWireService (rxOverrunOn : Bool) (ready : SccPort → Nat) (w : Wired) : Wired :=
  ([1, 2, 3, 4, 5] : List SccPort).foldl (servicePort rxOverrunOn ready) w

/-! ## Runs -/

/-- The host writes a byte to a port's endpoint, the run loop makes a pass over
the wired receivers, or the guest accesses a serial register. -/
inductive WireEvent where
  | host (port : SccPort) (v : Byte)
  | service (ready : SccPort → Nat)
  | guest (access : SerialAccess)

/-- The host writes a byte to its side of the socket. -/
def WireEnd.hostWrite (e : WireEnd) (v : Byte) : WireEnd := { e with socket := e.socket ++ [v] }

/-- One event. -/
def wireStep (rxOverrunOn : Bool) (w : Wired) : WireEvent → Wired
  | .host port v =>
    { w with ends := Function.update w.ends port ((w.ends port).hostWrite v) }
  | .service ready => sccWireService rxOverrunOn ready w
  | .guest access => { w with bus := access.run w.bus }

/-- The bytes the host has sent to a port. -/
def hostSent (port : SccPort) (events : List WireEvent) : List Byte :=
  events.filterMap fun
    | .host p v => if p = port then some v else none
    | _ => none

/-- The byte that a guest access gets from `RR8` of a port while `RR0` shows a
character. -/
def guestGets (port : SccPort) (w : Wired) : WireEvent → Option Byte
  | .guest (.read insns chip chanA addrReg) =>
    match w.bus.sccPort port with
    | none => none
    | some ch =>
      if sccPortNumber chip chanA = port ∧ ch.register addrReg = 8 ∧ ch.rxAvail then
        some (sccRead w.bus insns chip chanA addrReg).1
      else none
  | _ => none

/-- The guest writes the Error Reset command, 6, to `WR0` of a port. -/
def ResetsErrors (port : SccPort) (w : Wired) : WireEvent → Prop
  | .guest (.write _ chip chanA addrReg v) =>
    ∃ ch, w.bus.sccPort port = some ch ∧ sccPortNumber chip chanA = port ∧
      ch.register addrReg = 0 ∧ (v >>> 3) &&& 0x07 = 6
  | _ => False

/-- A pass takes a byte from a port's endpoint while `RR0` shows a character. -/
def Overwrites (rxOverrunOn : Bool) (port : SccPort) (w : Wired) : WireEvent → Prop
  | .service ready =>
    (∃ ch, w.bus.sccPort port = some ch ∧ ch.rxAvail = true) ∧
      ((sccWireService rxOverrunOn ready w).ends port).pending ≠ (w.ends port).pending
  | _ => False

/-! ## The endpoint -/

/-- A poll returns the first byte in the endpoint, or leaves the endpoint as it
was. -/
theorem wirePollCharN_pending (e : WireEnd) (ready : Nat) :
    (∃ v e', wirePollCharN e ready = (some v, e') ∧ e.pending = v :: e'.pending) ∨
      wirePollCharN e ready = (none, e) := by
  unfold wirePollCharN
  dsimp only
  split_ifs with detached emptied nothing
  · exact Or.inr rfl
  · exact Or.inr rfl
  · have buffered : e.pending = e.socket := by
      simp [WireEnd.pending, List.drop_eq_nil_of_le emptied]
    obtain ⟨n, count⟩ := Nat.exists_eq_succ_of_ne_zero nothing
    rw [count]
    cases received : e.socket with
    | nil =>
      rw [received] at count
      simp at count
    | cons v rest =>
      refine Or.inl ⟨v, _, rfl, ?_⟩
      rw [buffered, received]
      simp [WireEnd.pending]
  · have inside : e.pos < e.buf.length := Nat.lt_of_not_le emptied
    refine Or.inl ⟨e.buf[e.pos], _, by rw [List.getElem?_eq_getElem inside], ?_⟩
    rw [WireEnd.pending, List.drop_eq_getElem_cons inside]
    rfl

/-! ## One port's line -/

/-- The character `RR0` shows. -/
def SccChan.waiting (ch : SccChan) : Option Byte := if ch.rxAvail then some ch.rxData else none

/-- What stands on the line of one port: the bytes in the endpoint, the character
in the receiver, the overrun latch and the loss count. -/
structure Line where
  pending : List Byte
  waiting : Option Byte
  latched : Bool
  lost : Quad

/-- The line of a channel with its endpoint. -/
def lineOf (e : WireEnd) (ch : SccChan) : Line :=
  { pending := e.pending, waiting := ch.waiting, latched := ch.rxOverrun, lost := ch.rxLost }

/-- The line of a port, where its board is fitted. -/
def Wired.line (w : Wired) (port : SccPort) : Option Line :=
  (w.bus.sccPort port).map (lineOf (w.ends port))

/-- A pass leaves a line alone, or moves its first byte into the receiver; over a
waiting character it does so only under `--rx-overrun`. -/
inductive Served (rxOverrunOn : Bool) : Line → Line → Prop where
  | skipped (line : Line) : Served rxOverrunOn line line
  | arrived (v : Byte) (rest : List Byte) (latched : Bool) (lost : Quad) :
      Served rxOverrunOn ⟨v :: rest, none, latched, lost⟩ ⟨rest, some v, latched, lost⟩
  | overran (v old : Byte) (rest : List Byte) (latched : Bool) (lost : Quad)
      (allowed : rxOverrunOn = true) :
      Served rxOverrunOn ⟨v :: rest, some old, latched, lost⟩ ⟨rest, some v, true, lost + 1⟩

/-- The turn of another port. -/
theorem servicePort_other {port other : SccPort} (different : other ≠ port) (rxOverrunOn : Bool)
    (ready : SccPort → Nat) (w : Wired) :
    (servicePort rxOverrunOn ready w other).line port = w.line port := by
  unfold servicePort
  split_ifs with wired
  · rfl
  · cases w.bus.sccPort other with
    | none => rfl
    | some ch =>
      dsimp only
      split_ifs with closed
      · rfl
      · cases (wirePollCharN (w.ends other) (ready other)).1 with
        | none => simp only [Wired.line, Function.update_of_ne different.symm]
        | some v =>
          simp only [Wired.line, Function.update_of_ne different.symm,
            sccPort_setSccPort_other different.symm]

/-- The turn of the port itself. -/
theorem servicePort_own {port : SccPort} {w : Wired} {line : Line}
    (fitted : w.line port = some line) (rxOverrunOn : Bool) (ready : SccPort → Nat) :
    ∃ after, (servicePort rxOverrunOn ready w port).line port = some after ∧
      Served rxOverrunOn line after := by
  obtain ⟨ch, found, rfl⟩ := Option.map_eq_some_iff.mp fitted
  unfold servicePort
  rw [found]
  dsimp only
  split_ifs with wired closed
  · exact ⟨_, fitted, Served.skipped _⟩
  · exact ⟨_, fitted, Served.skipped _⟩
  · rcases wirePollCharN_pending (w.ends port) (ready port) with
      ⟨v, e', polled, pending⟩ | polled
    · rw [polled]
      refine ⟨lineOf e' (sccRxDeliver rxOverrunOn ch v), ?_, ?_⟩
      · simp [Wired.line, sccPort_setSccPort_same found]
      · cases full : ch.rxAvail with
        | false =>
          have arrived : Served rxOverrunOn _ _ :=
            Served.arrived v e'.pending ch.rxOverrun ch.rxLost
          simpa [lineOf, sccRxDeliver, SccChan.waiting, full, pending] using arrived
        | true =>
          have allowed : rxOverrunOn = true := by simpa [full] using closed
          have overran := Served.overran v ch.rxData e'.pending ch.rxOverrun ch.rxLost allowed
          simpa [lineOf, sccRxDeliver, SccChan.waiting, full, pending, allowed] using overran
    · rw [polled]
      refine ⟨_, ?_, Served.skipped _⟩
      simpa [Wired.line] using fitted

/-- The turns of ports other than this one. -/
theorem servicePorts_other {port : SccPort} {ports : List SccPort} (absent : port ∉ ports)
    (rxOverrunOn : Bool) (ready : SccPort → Nat) (w : Wired) :
    (ports.foldl (servicePort rxOverrunOn ready) w).line port = w.line port := by
  induction ports generalizing w with
  | nil => rfl
  | cons first rest inductionHypothesis =>
    rw [List.mem_cons, not_or] at absent
    obtain ⟨different, elsewhere⟩ := absent
    rw [List.foldl_cons, inductionHypothesis elsewhere,
      servicePort_other (Ne.symm different)]

/-- A pass serves each line at most once. -/
theorem servicePorts_line {port : SccPort} {ports : List SccPort} (once : ports.Nodup)
    (rxOverrunOn : Bool) (ready : SccPort → Nat) {w : Wired} {line : Line}
    (fitted : w.line port = some line) :
    ∃ after, (ports.foldl (servicePort rxOverrunOn ready) w).line port = some after ∧
      Served rxOverrunOn line after := by
  induction ports generalizing w with
  | nil => exact ⟨line, fitted, Served.skipped line⟩
  | cons first rest inductionHypothesis =>
    obtain ⟨notAgain, restOnce⟩ := List.nodup_cons.mp once
    rw [List.foldl_cons]
    by_cases own : first = port
    · subst own
      rw [servicePorts_other notAgain]
      exact servicePort_own fitted rxOverrunOn ready
    · exact inductionHypothesis restOnce ((servicePort_other own ..).trans fitted)

/-- `scc_wire_service` on one line. -/
theorem sccWireService_line {port : SccPort} {w : Wired} {line : Line}
    (fitted : w.line port = some line) (rxOverrunOn : Bool) (ready : SccPort → Nat) :
    ∃ after, (sccWireService rxOverrunOn ready w).line port = some after ∧
      Served rxOverrunOn line after :=
  servicePorts_line (by decide) rxOverrunOn ready fitted

/-! ## Guest accesses -/

@[simp] theorem stopMarkWatch_sccPort (b : Bus) (port : SccPort) (v : Byte) :
    (stopMarkWatch b port v).sccPort = b.sccPort := by
  unfold stopMarkWatch
  cases b.stopMark <;> rfl

@[simp] theorem inputMarkWatch_sccPort (b : Bus) (v : Byte) :
    (inputMarkWatch b v).sccPort = b.sccPort := by
  unfold inputMarkWatch
  split
  · rfl
  · split_ifs <;> rfl

@[simp] theorem send_sccPort (b : Bus) (port : SccPort) (v : Byte) :
    (b.send port v).sccPort = b.sccPort := rfl

@[simp] theorem consoleTransmit_sccPort (b : Bus) (insns : Quad) (port : SccPort) (v : Byte) :
    (consoleTransmit b insns port v).sccPort = b.sccPort := by
  have marks : (stopMarkWatch (inputMarkWatch
      { b.send port v with lastTxInsn := insns, rxPollStreak := 0 } v) port v).sccPort =
      b.sccPort := by
    rw [stopMarkWatch_sccPort, inputMarkWatch_sccPort]
    rfl
  rw [← marks]
  unfold consoleTransmit
  dsimp only
  split_ifs <;> rfl

/-- What a read does to a receiver: a read of `RR8` empties it. -/
theorem sccRead_receiver {b : Bus} {port : SccPort} {ch : SccChan}
    (fitted : b.sccPort port = some ch) (insns : Quad) (chip : Fin 3) (chanA : Bool)
    (addrReg : Reg) :
    ∃ after, (sccRead b insns chip chanA addrReg).2.sccPort port = some after ∧
      after.rxOverrun = ch.rxOverrun ∧ after.rxLost = ch.rxLost ∧
      after.waiting =
        if sccPortNumber chip chanA = port ∧ ch.register addrReg = 8 then none
        else ch.waiting := by
  by_cases same : sccPortNumber chip chanA = port
  · subst same
    have back (new : SccChan) := sccPort_setSccPort_same fitted new
    unfold sccRead
    simp only [fitted, true_and]
    split
    next zero =>
      have other : ch.register addrReg ≠ 8 := fun eight => by simp [eight] at zero
      refine ⟨{ ch with ptr := 0 }, ?_, rfl, rfl, (if_neg other).symm⟩
      dsimp only
      split_ifs <;> exact back _
    next eight =>
      have data : ch.register addrReg = 8 := BitVec.eq_of_toNat_eq eight
      refine ⟨{ ch with ptr := 0, rxAvail := false }, ?_, rfl, rfl, (if_pos data).symm⟩
      dsimp only
      split_ifs <;> exact back _
    next one =>
      have other : ch.register addrReg ≠ 8 := fun eight => by simp [eight] at one
      exact ⟨_, back _, rfl, rfl, (if_neg other).symm⟩
    next two =>
      have other : ch.register addrReg ≠ 8 := fun eight => by simp [eight] at two
      exact ⟨_, back _, rfl, rfl, (if_neg other).symm⟩
    next three =>
      have other : ch.register addrReg ≠ 8 := fun eight => by simp [eight] at three
      exact ⟨_, back _, rfl, rfl, (if_neg other).symm⟩
    next notEight _ _ _ =>
      have other : ch.register addrReg ≠ 8 := fun eight => notEight (by simp [eight])
      exact ⟨_, back _, rfl, rfl, (if_neg other).symm⟩
  · rw [if_neg fun both => same both.1]
    refine ⟨ch, ?_, rfl, rfl, rfl⟩
    rw [← fitted]
    have apart (new : SccChan) := sccPort_setSccPort_other (Ne.symm same) b new
    unfold sccRead
    dsimp only
    cases b.sccPort (sccPortNumber chip chanA) with
    | none => rfl
    | some own =>
      dsimp only
      split <;> dsimp only <;> (try split_ifs) <;> exact apart _

/-- What `RR8` returns. -/
theorem sccRead_data {b : Bus} {chip : Fin 3} {chanA : Bool} {addrReg : Reg} {ch : SccChan}
    (fitted : b.sccPort (sccPortNumber chip chanA) = some ch)
    (data : ch.register addrReg = 8) (insns : Quad) :
    (sccRead b insns chip chanA addrReg).1 = ch.rxData := by
  unfold sccRead
  simp only [fitted, data]
  rfl

/-- What `RR1` returns: bit 5 is the overrun latch. -/
theorem sccRead_overrun {b : Bus} {chip : Fin 3} {chanA : Bool} {addrReg : Reg} {ch : SccChan}
    (fitted : b.sccPort (sccPortNumber chip chanA) = some ch)
    (status : ch.register addrReg = 1) (insns : Quad) :
    (sccRead b insns chip chanA addrReg).1.getLsbD 5 = ch.rxOverrun := by
  unfold sccRead
  simp only [fitted, status]
  change ((0x01 : Byte) ||| if ch.rxOverrun then 0x20 else 0).getLsbD 5 = ch.rxOverrun
  cases ch.rxOverrun <;> rfl

/-- What `RR0` returns: bit 0 shows a waiting character. -/
theorem sccRead_avail {b : Bus} {chip : Fin 3} {chanA : Bool} {addrReg : Reg} {ch : SccChan}
    (fitted : b.sccPort (sccPortNumber chip chanA) = some ch)
    (status : ch.register addrReg = 0) (insns : Quad) :
    (sccRead b insns chip chanA addrReg).1.getLsbD 0 = ch.rxAvail := by
  unfold sccRead
  simp only [fitted, status]
  change ((0x6C : Byte) ||| if ch.rxAvail then 0x01 else 0).getLsbD 0 = ch.rxAvail
  cases ch.rxAvail <;> rfl

/-- The two channels of a chip are two ports. -/
theorem sccPortNumber_twin :
    ∀ chip chanA, sccPortNumber chip chanA ≠ sccPortNumber chip (!chanA) := by decide

/-- What a write does to a receiver: the Error Reset command unlatches the
overrun. -/
theorem sccWrite_receiver {b : Bus} {port : SccPort} {ch : SccChan}
    (fitted : b.sccPort port = some ch) (insns : Quad) (chip : Fin 3) (chanA : Bool)
    (addrReg : Reg) (v : Byte) :
    ∃ after, (sccWrite b insns chip chanA addrReg v).sccPort port = some after ∧
      after.waiting = ch.waiting ∧ after.rxLost = ch.rxLost ∧
      after.rxOverrun = (ch.rxOverrun && !decide (sccPortNumber chip chanA = port ∧
        ch.register addrReg = 0 ∧ (v >>> 3) &&& 0x07 = 6)) := by
  by_cases same : sccPortNumber chip chanA = port
  · subst same
    have back (new : SccChan) := sccPort_setSccPort_same fitted new
    unfold sccWrite
    simp only [fitted, true_and]
    by_cases command : ch.register addrReg = 0
    · simp only [command, if_true, true_and]
      exact ⟨_, back _, rfl, rfl, rfl⟩
    rw [if_neg command]
    simp only [command, false_and, decide_false, Bool.not_false, Bool.and_true]
    by_cases transmit : ch.register addrReg = 8
    · simp only [transmit, if_true]
      refine ⟨{ ch with ptr := 0 }, ?_, rfl, rfl, rfl⟩
      split_ifs
      · rw [consoleTransmit_sccPort, back]
      · rw [stopMarkWatch_sccPort, send_sccPort, back]
      · rw [stopMarkWatch_sccPort, back]
    rw [if_neg transmit]
    have other := sccPortNumber_twin chip chanA
    split_ifs
    · cases Bus.sccPort _ (sccPortNumber chip !chanA) with
      | none => exact ⟨_, back _, rfl, rfl, rfl⟩
      | some twin =>
        exact ⟨_, (sccPort_setSccPort_other other ..).trans (back _), rfl, rfl, rfl⟩
    · exact ⟨_, back _, rfl, rfl, rfl⟩
  · have apart (c : Bus) (new : SccChan) := sccPort_setSccPort_other (Ne.symm same) c new
    simp only [same, false_and, decide_false, Bool.not_false, Bool.and_true]
    unfold sccWrite
    dsimp only
    cases b.sccPort (sccPortNumber chip chanA) with
    | none => exact ⟨ch, fitted, rfl, rfl, rfl⟩
    | some own =>
      dsimp only
      by_cases command : own.register addrReg = 0
      · rw [if_pos command]
        exact ⟨ch, (apart ..).trans fitted, rfl, rfl, rfl⟩
      rw [if_neg command]
      by_cases transmit : own.register addrReg = 8
      · rw [if_pos transmit]
        refine ⟨ch, ?_, rfl, rfl, rfl⟩
        rw [← fitted]
        split_ifs
        · rw [consoleTransmit_sccPort, apart]
        · rw [stopMarkWatch_sccPort, send_sccPort, apart]
        · rw [stopMarkWatch_sccPort, apart]
      rw [if_neg transmit]
      split_ifs
      · have found := (apart b { own with
          ptr := 0, wr := Function.update own.wr (own.register addrReg) v }).trans fitted
        by_cases twin : sccPortNumber chip (!chanA) = port
        · rw [twin, found]
          exact ⟨_, sccPort_setSccPort_same found _, rfl, rfl, rfl⟩
        · refine ⟨ch, ?_, rfl, rfl, rfl⟩
          cases Bus.sccPort _ (sccPortNumber chip !chanA) with
          | none => exact found
          | some other => exact (sccPort_setSccPort_other (Ne.symm twin) ..).trans found
      · exact ⟨ch, (apart ..).trans fitted, rfl, rfl, rfl⟩

/-! ## The account of a run -/

/-- The line of a fitted port. -/
theorem line_of_fitted {w : Wired} {port : SccPort} {ch : SccChan}
    (fitted : w.bus.sccPort port = some ch) :
    w.line port = some (lineOf (w.ends port) ch) := by
  rw [Wired.line, fitted, Option.map_some]

/-- A port with a line is fitted. -/
theorem fitted_of_line {w : Wired} {port : SccPort} {line : Line}
    (found : w.line port = some line) :
    ∃ ch, w.bus.sccPort port = some ch ∧ line = lineOf (w.ends port) ch := by
  obtain ⟨ch, fitted, rfl⟩ := Option.map_eq_some_iff.mp found
  exact ⟨ch, fitted, rfl⟩

/-- A pass overwrites when a character waits and a byte leaves the endpoint. -/
theorem overwrites_service_iff {rxOverrunOn : Bool} {port : SccPort} {w : Wired}
    {ready : SccPort → Nat} {line after : Line} (before : w.line port = some line)
    (served : (sccWireService rxOverrunOn ready w).line port = some after) :
    Overwrites rxOverrunOn port w (.service ready) ↔
      line.waiting.isSome = true ∧ after.pending ≠ line.pending := by
  obtain ⟨ch, fitted, rfl⟩ := fitted_of_line before
  obtain ⟨-, -, rfl⟩ := fitted_of_line served
  unfold Overwrites
  simp only [fitted, Option.some_inj, exists_eq_left', lineOf, SccChan.waiting]
  refine and_congr_left fun _ => ?_
  cases ch.rxAvail <;> simp

/-- The account of one port's line after a list of events. The loss count of the
program is the number of characters lost, modulo 2^64. -/
def Accounted (rxOverrunOn : Bool) (w : Wired) (port : SccPort) (events : List WireEvent) : Prop :=
  ∃ line taken lost, (runEvents (wireStep rxOverrunOn) w events).line port = some line ∧
    hostSent port events = taken ++ line.pending ∧
    Delivery taken (observed (wireStep rxOverrunOn) (guestGets port) w events) line.waiting
      lost ∧
    (line.lost = BitVec.ofNat 64 lost ∧ (rxOverrunOn = false → lost = 0)) ∧
    (line.latched = true ↔
      Since (wireStep rxOverrunOn) (Overwrites rxOverrunOn port) (ResetsErrors port) w events)

section Account

variable {rxOverrunOn : Bool} {w : Wired} {port : SccPort} {events : List WireEvent}

/-- A byte from the host joins the end of its endpoint. -/
theorem Accounted.host (accounted : Accounted rxOverrunOn w port events) (p : SccPort)
    (v : Byte) : Accounted rxOverrunOn w port (events ++ [.host p v]) := by
  obtain ⟨line, taken, lost, found, sent, delivery, gate, latch⟩ := accounted
  obtain ⟨ch, fitted, rfl⟩ := fitted_of_line found
  have seen := observed_append (wireStep rxOverrunOn) (guestGets port) w events
    (.host p v)
  have since := since_append (wireStep rxOverrunOn) (Overwrites rxOverrunOn port)
    (ResetsErrors port) w events (.host p v)
  simp only [guestGets, Option.toList_none, List.append_nil] at seen
  simp only [Overwrites, ResetsErrors, false_or, not_false_iff, and_true] at since
  refine ⟨_, taken, lost, line_of_fitted (by rw [runEvents_append]; exact fitted), ?_, ?_, gate,
    ?_⟩
  · rw [hostSent, List.filterMap_append, ← hostSent, sent, List.append_assoc]
    refine congrArg (taken ++ ·) ?_
    rw [runEvents_append]
    by_cases same : p = port
    · subst same
      simp [wireStep, lineOf, WireEnd.pending, WireEnd.hostWrite]
    · simp [wireStep, lineOf, same, Function.update_of_ne (Ne.symm same)]
  · rw [seen]
    exact delivery
  · rw [since]
    exact latch

/-- A pass moves at most one byte from the endpoint into the receiver. -/
theorem Accounted.service (accounted : Accounted rxOverrunOn w port events)
    (ready : SccPort → Nat) : Accounted rxOverrunOn w port (events ++ [.service ready]) := by
  obtain ⟨line, taken, lost, found, sent, delivery, gate, latch⟩ := accounted
  obtain ⟨after, foundAfter, served⟩ := sccWireService_line found rxOverrunOn ready
  have overwrites := overwrites_service_iff found foundAfter
  have seen := observed_append (wireStep rxOverrunOn) (guestGets port) w events
    (.service ready)
  have since := since_append (wireStep rxOverrunOn) (Overwrites rxOverrunOn port)
    (ResetsErrors port) w events (.service ready)
  simp only [guestGets, Option.toList_none, List.append_nil] at seen
  simp only [ResetsErrors, not_false_iff, and_true, overwrites, ← latch] at since
  have sentAfter : hostSent port (events ++ [.service ready]) = taken ++ line.pending := by
    rw [hostSent, List.filterMap_append, ← hostSent, sent]
    simp
  unfold Accounted
  rw [runEvents_append, sentAfter, seen, since]
  change ∃ line taken lost, (sccWireService ..).line port = some line ∧ _
  rw [foundAfter]
  cases served with
  | skipped => exact ⟨_, taken, lost, rfl, rfl, delivery, gate, by simp⟩
  | arrived v rest latched count =>
    exact ⟨_, taken ++ [v], lost, rfl, by simp, delivery.arrive v, gate, by simp⟩
  | overran v old rest latched count allowed =>
    refine ⟨_, taken ++ [v], lost + 1, rfl, by simp, delivery.overwrite v, ⟨?_, ?_⟩, by simp⟩
    · rw [BitVec.ofNat_add, ← gate.1]
      rfl
    · intro off
      exact absurd (allowed.symm.trans off) (by decide)

/-- A guest access changes the line's endpoint in no way. -/
theorem hostSent_guest (access : SerialAccess) :
    hostSent port (events ++ [.guest access]) = hostSent port events := by
  rw [hostSent, List.filterMap_append, ← hostSent]
  simp

/-- A guest read takes the character away when it reads `RR8`. -/
theorem Accounted.read (accounted : Accounted rxOverrunOn w port events) (insns : Quad)
    (chip : Fin 3) (chanA : Bool) (addrReg : Reg) :
    Accounted rxOverrunOn w port (events ++ [.guest (.read insns chip chanA addrReg)]) := by
  obtain ⟨line, taken, lost, found, sent, delivery, gate, latch⟩ := accounted
  obtain ⟨ch, fitted, rfl⟩ := fitted_of_line found
  obtain ⟨after, fittedAfter, latched, count, waiting⟩ :=
    sccRead_receiver fitted insns chip chanA addrReg
  have seen := observed_append (wireStep rxOverrunOn) (guestGets port) w events
    (.guest (.read insns chip chanA addrReg))
  have since := since_append (wireStep rxOverrunOn) (Overwrites rxOverrunOn port)
    (ResetsErrors port) w events (.guest (.read insns chip chanA addrReg))
  simp only [Overwrites, ResetsErrors, false_or, not_false_iff, and_true, ← latch] at since
  have foundAfter := line_of_fitted (w := wireStep rxOverrunOn
    (runEvents (wireStep rxOverrunOn) w events) (.guest (.read insns chip chanA addrReg)))
    fittedAfter
  unfold Accounted
  rw [runEvents_append, hostSent_guest, since, foundAfter, seen]
  refine ⟨_, taken, lost, rfl, sent, ?_, ?_, ?_⟩
  · simp only [lineOf, waiting] at delivery ⊢
    by_cases data : sccPortNumber chip chanA = port ∧ ch.register addrReg = 8
    · obtain ⟨rfl, eight⟩ := data
      have gets : guestGets (sccPortNumber chip chanA) (runEvents (wireStep rxOverrunOn) w events)
          (.guest (.read insns chip chanA addrReg)) = ch.waiting := by
        simp [guestGets, fitted, eight, SccChan.waiting, sccRead_data fitted eight]
      rw [gets, if_pos ⟨rfl, eight⟩]
      exact delivery.consume
    · have gets : guestGets port (runEvents (wireStep rxOverrunOn) w events)
          (.guest (.read insns chip chanA addrReg)) = none := by
        simp only [guestGets, fitted, ← and_assoc]
        exact if_neg fun all => data all.1
      rw [gets, if_neg data, Option.toList_none, List.append_nil]
      exact delivery
  · simpa only [lineOf, count] using gate
  · simp only [lineOf, latched]

/-- A guest write unlatches the overrun when it is the Error Reset command. -/
theorem Accounted.write (accounted : Accounted rxOverrunOn w port events) (insns : Quad)
    (chip : Fin 3) (chanA : Bool) (addrReg : Reg) (v : Byte) :
    Accounted rxOverrunOn w port (events ++ [.guest (.write insns chip chanA addrReg v)]) := by
  obtain ⟨line, taken, lost, found, sent, delivery, gate, latch⟩ := accounted
  obtain ⟨ch, fitted, rfl⟩ := fitted_of_line found
  obtain ⟨after, fittedAfter, waiting, count, latched⟩ :=
    sccWrite_receiver fitted insns chip chanA addrReg v
  have seen := observed_append (wireStep rxOverrunOn) (guestGets port) w events
    (.guest (.write insns chip chanA addrReg v))
  have since := since_append (wireStep rxOverrunOn) (Overwrites rxOverrunOn port)
    (ResetsErrors port) w events (.guest (.write insns chip chanA addrReg v))
  simp only [Overwrites, ResetsErrors, false_or, ← latch, fitted, Option.some_inj,
    exists_eq_left'] at since
  simp only [guestGets, Option.toList_none, List.append_nil] at seen
  have foundAfter := line_of_fitted (w := wireStep rxOverrunOn
    (runEvents (wireStep rxOverrunOn) w events) (.guest (.write insns chip chanA addrReg v)))
    fittedAfter
  unfold Accounted
  rw [runEvents_append, hostSent_guest, since, foundAfter, seen]
  refine ⟨_, taken, lost, rfl, sent, ?_, ?_, ?_⟩
  · simpa only [lineOf, waiting] using delivery
  · simpa only [lineOf, count] using gate
  · simp only [lineOf, latched, Bool.and_eq_true, Bool.not_eq_true', decide_eq_false_iff_not]

/-- Every event keeps the account. -/
theorem Accounted.step (accounted : Accounted rxOverrunOn w port events) (event : WireEvent) :
    Accounted rxOverrunOn w port (events ++ [event]) := by
  cases event with
  | host p v => exact accounted.host p v
  | service ready => exact accounted.service ready
  | guest access =>
    cases access with
    | read insns chip chanA addrReg => exact accounted.read insns chip chanA addrReg
    | write insns chip chanA addrReg v => exact accounted.write insns chip chanA addrReg v

/-- The account of every run that starts with an empty receiver and endpoint. -/
theorem accounted_run (rxOverrunOn : Bool) {ch : SccChan} (fitted : w.bus.sccPort port = some ch)
    (empty : ch.rxAvail = false) (unlatched : ch.rxOverrun = false)
    (noLoss : ch.rxLost = 0) (quiet : (w.ends port).pending = []) (events : List WireEvent) :
    Accounted rxOverrunOn w port events := by
  induction events using List.reverseRecOn with
  | nil =>
    refine ⟨_, [], 0, line_of_fitted fitted, ?_, ?_, ⟨noLoss, fun _ => rfl⟩, ?_⟩
    · simp [hostSent, lineOf, quiet]
    · simpa [lineOf, SccChan.waiting, empty, observed] using Delivery.start
    · simpa [lineOf, unlatched] using not_since_nil _ _ _ w
  | append_singleton events event inductionHypothesis => exact inductionHypothesis.step event

end Account

/-- Every byte that a port's endpoint has given up is accounted for. Without
`--rx-overrun` the guest has read exactly a prefix of what the host sent and
nothing is lost; with it, what was taken was read, was lost or waits, the loss
count is the number of those lost until it wraps at 2^64, what was read is in
order, and bit 5 of `RR1` shows whether a character was overwritten since the
last Error Reset. -/
theorem wireRun_delivery (rxOverrunOn : Bool) {w : Wired} {port : SccPort} {ch : SccChan}
    (fitted : w.bus.sccPort port = some ch) (empty : ch.rxAvail = false)
    (unlatched : ch.rxOverrun = false) (noLoss : ch.rxLost = 0)
    (quiet : (w.ends port).pending = []) (events : List WireEvent) :
    ∃ after taken, (runEvents (wireStep rxOverrunOn) w events).bus.sccPort port = some after ∧
      hostSent port events =
        taken ++ ((runEvents (wireStep rxOverrunOn) w events).ends port).pending ∧
      (rxOverrunOn = false →
        observed (wireStep rxOverrunOn) (guestGets port) w events <+: hostSent port events ∧
          taken = observed (wireStep rxOverrunOn) (guestGets port) w events ++
            after.waiting.toList ∧
          after.rxLost = 0) ∧
      (rxOverrunOn = true →
        (∃ lost : Nat,
          taken.length = (observed (wireStep rxOverrunOn) (guestGets port) w events).length +
              lost + after.rxAvail.toNat ∧
            after.rxLost.toNat = lost % 2 ^ 64) ∧
          (observed (wireStep rxOverrunOn) (guestGets port) w events).Sublist taken) ∧
      ∀ insns chip chanA addrReg, sccPortNumber chip chanA = port → after.register addrReg = 1 →
        ((sccRead (runEvents (wireStep rxOverrunOn) w events).bus insns chip chanA
            addrReg).1.getLsbD 5 = true ↔
          Since (wireStep rxOverrunOn) (Overwrites rxOverrunOn port) (ResetsErrors port) w
            events) := by
  obtain ⟨line, taken, lost, found, sent, delivery, ⟨count, gate⟩, latch⟩ :=
    accounted_run rxOverrunOn fitted empty unlatched noLoss quiet events
  obtain ⟨after, fittedAfter, rfl⟩ := fitted_of_line found
  refine ⟨after, taken, fittedAfter, sent, ?_, ?_, ?_⟩
  · intro off
    obtain rfl := gate off
    have everything : taken = observed (wireStep rxOverrunOn) (guestGets port) w events ++
        after.waiting.toList := delivery.lossless
    refine ⟨?_, everything, count⟩
    rw [sent, everything, List.append_assoc]
    exact List.prefix_append _ _
  · intro _
    have wraps : after.rxLost.toNat = lost % 2 ^ 64 :=
      (congrArg BitVec.toNat count).trans (BitVec.toNat_ofNat lost 64)
    refine ⟨⟨lost, ?_, wraps⟩, delivery.read_sublist⟩
    have account := delivery.account
    simp only [lineOf, SccChan.waiting] at account
    rw [account]
    cases after.rxAvail with
    | false => simp
    | true =>
      simp
      omega
  · rintro insns chip chanA addrReg rfl status
    rw [sccRead_overrun fittedAfter status]
    exact latch

/-- Channel A of the motherboard on an endpoint. -/
def wiredA : Wired :=
  { bus := { (default : Bus) with wirePortOn := fun port => port = 1 }
    ends := fun _ => { (default : WireEnd) with attached := true } }

/-- The host sends `AB`, the receiver is served twice and then the guest reads:
first the status, then the data. -/
def wiredEvents : List WireEvent :=
  [.host 1 0x41, .host 1 0x42, .service fun _ => 8, .service fun _ => 8,
    .guest (.read 0 0 true 0), .guest (.read 0 0 true 8)]

/-- The gate keeps the second byte in the endpoint until the first is read. -/
theorem wireRun_delivery_gate :
    observed (wireStep false) (guestGets 1) wiredA wiredEvents = [0x41] ∧
      observed (wireStep false) (guestGets 1) wiredA wiredEvents <+: hostSent 1 wiredEvents := by
  have fitted : wiredA.bus.sccPort 1 = some default := rfl
  obtain ⟨after, taken, -, -, gate, -⟩ :=
    wireRun_delivery false fitted rfl rfl rfl rfl wiredEvents
  exact ⟨by decide, (gate rfl).1⟩

/-! ## A loss count that wraps -/

/-- The host sends a byte and the receiver is served, `n` times over. -/
def sendAndServe : Nat → List WireEvent
  | 0 => []
  | n + 1 => sendAndServe n ++ [.host 1 0x41] ++ [.service fun _ => 8]

/-- `wiredA` with a receiver and the endpoint that has handed over its last byte. -/
def wiredA.served (ch : SccChan) : Wired :=
  { bus := { wiredA.bus with sccA := ch }
    ends := Function.update wiredA.ends 1 ⟨true, [0x41], 1, []⟩ }

/-- A round moves the byte straight into the receiver. -/
theorem wireStep_round (ch : SccChan) :
    wireStep true (wireStep true (wiredA.served ch) (.host 1 0x41)) (.service fun _ => 8) =
      wiredA.served (sccRxDeliver true ch 0x41) := by
  simp [wireStep, sccWireService, servicePort, wiredA.served, wiredA, Bus.sccPort,
    wirePollCharN, WireEnd.hostWrite, Bus.setSccPort]

/-- The receiver after `n` rounds. -/
theorem sendAndServe_run (n : Nat) : ∃ ch,
    runEvents (wireStep true) (wiredA.served default) (sendAndServe n) = wiredA.served ch := by
  induction n with
  | zero => exact ⟨default, rfl⟩
  | succ n inductionHypothesis =>
    obtain ⟨ch, run⟩ := inductionHypothesis
    refine ⟨sccRxDeliver true ch 0x41, ?_⟩
    rw [sendAndServe, runEvents_append, runEvents_append, run]
    exact wireStep_round ch

theorem hostSent_sendAndServe (n : Nat) : (hostSent 1 (sendAndServe n)).length = n := by
  induction n with
  | zero => rfl
  | succ n inductionHypothesis =>
    rw [sendAndServe, hostSent, List.filterMap_append, List.filterMap_append, ← hostSent,
      List.length_append, List.length_append, inductionHypothesis]
    rfl

theorem observed_sendAndServe (n : Nat) (w : Wired) :
    observed (wireStep true) (guestGets 1) w (sendAndServe n) = [] := by
  induction n with
  | zero => rfl
  | succ n inductionHypothesis =>
    rw [sendAndServe, observed_append, observed_append, inductionHypothesis]
    rfl

/-- After more than 2^64 rounds without a read the loss count is no longer what was
taken less what was read and what waits. -/
theorem sendAndServe_lost_wraps : ∃ (ch : SccChan) (events : List WireEvent) (after : SccChan)
    (taken : List Byte), (wiredA.served ch).bus.sccPort 1 = some ch ∧ ch.rxAvail = false ∧
      ch.rxOverrun = false ∧ ch.rxLost = 0 ∧ ((wiredA.served ch).ends 1).pending = [] ∧
      (runEvents (wireStep true) (wiredA.served ch) events).bus.sccPort 1 = some after ∧
      hostSent 1 events =
        taken ++ ((runEvents (wireStep true) (wiredA.served ch) events).ends 1).pending ∧
      taken.length ≠ (observed (wireStep true) (guestGets 1) (wiredA.served ch) events).length +
        after.rxLost.toNat + after.rxAvail.toNat := by
  obtain ⟨n, many⟩ : ∃ n, n = 2 ^ 64 + 1 := ⟨_, rfl⟩
  obtain ⟨after, run⟩ := sendAndServe_run n
  have drained : ((wiredA.served after).ends 1).pending = [] := by
    simp [wiredA.served, WireEnd.pending]
  have start : ((wiredA.served default).ends 1).pending = [] := by
    simp [wiredA.served, WireEnd.pending]
  refine ⟨default, sendAndServe n, after, hostSent 1 (sendAndServe n), rfl, rfl, rfl, rfl,
    start, ?_, ?_, ?_⟩
  · rw [run]
    rfl
  · rw [run, drained, List.append_nil]
  · rw [hostSent_sendAndServe, observed_sendAndServe, List.length_nil]
    have small := after.rxLost.isLt
    have one := Bool.toNat_le after.rxAvail
    omega

end C900
