import C900.Logic.Purge
import C900.Run.Loop

/-!
# Three serial chips

The chips share the port decode and the register code and nothing else. What a chip
holds and what is read from it is what the accesses and deliveries addressed to it alone
produce, and WR2 and WR9 are one register for the two channels of a chip.
-/

namespace C900

/-! ## A chip -/

/-- The two channels of a chip. -/
def Bus.sccChip (b : Bus) (chip : Fin 3) (chanA : Bool) : Option SccChan :=
  b.sccPort (sccPortNumber chip chanA)

/-- The chip of a port. -/
def chipOfPort (port : SccPort) : Fin 3 := Fin.ofNat 3 (port.val / 2)

theorem chipOfPort_sccPortNumber :
    ∀ chip chanA, chipOfPort (sccPortNumber chip chanA) = chip := by decide

/-- With the LR board fitted every port is there. -/
theorem sccPort_fitted {b : Bus} (fitted : b.lrScc = true) (port : SccPort) :
    ∃ ch, b.sccPort port = some ch := by
  unfold Bus.sccPort
  rw [fitted, if_pos rfl]
  split_ifs
  · exact ⟨_, rfl⟩
  · exact ⟨_, rfl⟩
  · exact ⟨_, rfl⟩

/-- Putting back a channel is an update of the ports. -/
theorem setSccPort_sccPort {b : Bus} {port : SccPort} {old : SccChan}
    (found : b.sccPort port = some old) (ch : SccChan) :
    (b.setSccPort port ch).sccPort = Function.update b.sccPort port (some ch) := by
  funext other
  by_cases same : other = port
  · subst same
    rw [sccPort_setSccPort_same found, Function.update_self]
  · rw [sccPort_setSccPort_other same, Function.update_of_ne same]

/-- An update of a port of another chip. -/
theorem update_sccChip_other {ports : SccPort → Option SccChan} {port : SccPort} {chip : Fin 3}
    (other : chipOfPort port ≠ chip) (new : Option SccChan) (chanA : Bool) :
    Function.update ports port new (sccPortNumber chip chanA) =
      ports (sccPortNumber chip chanA) := by
  refine Function.update_of_ne (fun same => other ?_) _ _
  rw [← same]
  exact chipOfPort_sccPortNumber chip chanA

/-! ## What an access does to the ports -/

/-- A channel after a read of its registers. -/
def SccChan.afterRead (ch : SccChan) (addrReg : Reg) : SccChan :=
  { ch with ptr := 0, rxAvail := ch.rxAvail && ch.register addrReg != 8 }

/-- A channel after a write to its registers. -/
def SccChan.afterWrite (ch : SccChan) (addrReg : Reg) (v : Byte) : SccChan :=
  if ch.register addrReg = 0 then
    { ch with
      ptr := if (v >>> 3) &&& 0x07 = 1 then ((v &&& 0x07).setWidth 4 : Reg) ||| 0x8
        else (v &&& 0x07).setWidth 4
      rxOverrun := ch.rxOverrun && (v >>> 3) &&& 0x07 != 6 }
  else if ch.register addrReg = 8 then { ch with ptr := 0 }
  else { ch with ptr := 0, wr := Function.update ch.wr (ch.register addrReg) v }

section Ports

variable {b c : Bus} {chip : Fin 3} {chanA : Bool} {ch : SccChan}

/-- A read that is not of the data register only drops the pointer. -/
theorem SccChan.afterRead_of_ne {addrReg : Reg} (other : ch.register addrReg ≠ 8) :
    ch.afterRead addrReg = { ch with ptr := 0 } := by
  have status : (ch.register addrReg != 8) = true := bne_iff_ne.mpr other
  rw [afterRead, status, Bool.and_true]

/-- `scc_read` of a fitted channel. -/
theorem sccRead_ports (found : b.sccPort (sccPortNumber chip chanA) = some ch) (insns : Quad)
    (addrReg : Reg) :
    (sccRead b insns chip chanA addrReg).2.sccPort =
      Function.update b.sccPort (sccPortNumber chip chanA) (some (ch.afterRead addrReg)) := by
  rw [← setSccPort_sccPort found]
  by_cases data : ch.register addrReg = 8
  · have emptied : ch.afterRead addrReg = { ch with ptr := 0, rxAvail := false } := by
      rw [SccChan.afterRead, data]
      simp
    rw [emptied]
    unfold sccRead
    simp only [found, data]
    change (if isConsole chip chanA then _ else _ : Bus).sccPort = _
    split <;> rfl
  · have drops := SccChan.afterRead_of_ne data
    rw [drops]
    unfold sccRead
    simp only [found]
    split
    · dsimp only
      split_ifs <;> rfl
    next eight => exact absurd (BitVec.eq_of_toNat_eq eight) data
    · rfl
    · rfl
    · rfl
    · rfl

/-- `scc_write` of a fitted channel: WR2 and WR9 reach the other channel too. -/
theorem sccWrite_ports (found : b.sccPort (sccPortNumber chip chanA) = some ch)
    {twin : SccChan} (other : b.sccPort (sccPortNumber chip (!chanA)) = some twin) (insns : Quad)
    (addrReg : Reg) (v : Byte) :
    (sccWrite b insns chip chanA addrReg v).sccPort =
      if ch.register addrReg = 2 ∨ ch.register addrReg = 9 then
        Function.update (Function.update b.sccPort (sccPortNumber chip chanA)
            (some (ch.afterWrite addrReg v))) (sccPortNumber chip (!chanA))
          (some { twin with wr := Function.update twin.wr (ch.register addrReg) v })
      else
        Function.update b.sccPort (sccPortNumber chip chanA)
          (some (ch.afterWrite addrReg v)) := by
  have apart := sccPortNumber_twin chip chanA
  unfold sccWrite SccChan.afterWrite
  simp only [found]
  by_cases command : ch.register addrReg = 0
  · have single : ¬(ch.register addrReg = 2 ∨ ch.register addrReg = 9) := by
      rw [command]
      decide
    rw [if_pos command, if_pos command, if_neg single]
    exact setSccPort_sccPort found _
  rw [if_neg command, if_neg command]
  by_cases transmit : ch.register addrReg = 8
  · have single : ¬(ch.register addrReg = 2 ∨ ch.register addrReg = 9) := by
      rw [transmit]
      decide
    rw [if_pos transmit, if_pos transmit, if_neg single]
    split_ifs
    · rw [consoleTransmit_sccPort, setSccPort_sccPort found]
    · rw [stopMarkWatch_sccPort, send_sccPort, setSccPort_sccPort found]
    · rw [stopMarkWatch_sccPort, setSccPort_sccPort found]
  rw [if_neg transmit, if_neg transmit]
  by_cases shared : ch.register addrReg = 2 ∨ ch.register addrReg = 9
  · have still : (b.setSccPort (sccPortNumber chip chanA) { ch with
        ptr := 0, wr := Function.update ch.wr (ch.register addrReg) v }).sccPort
          (sccPortNumber chip (!chanA)) = some twin :=
      (sccPort_setSccPort_other apart.symm b _).trans other
    rw [if_pos shared, if_pos shared, still]
    dsimp only
    rw [setSccPort_sccPort still, setSccPort_sccPort found]
  · rw [if_neg shared, if_neg shared]
    exact setSccPort_sccPort found _

/-- The board is fitted when its first port is there. -/
theorem lrScc_eq_sccPort (b : Bus) : b.lrScc = (b.sccPort 2).isSome := by
  unfold Bus.sccPort
  rw [if_neg (by decide), if_neg (by decide)]
  cases b.lrScc <;> rfl

/-! ## What a read shows -/

/-- The vector of a chip is made of its own registers. -/
theorem sccVectorChip_congr (same : b.sccChip chip = c.sccChip chip) (src : Byte) :
    sccVectorChip b chip src = sccVectorChip c chip src := by
  have chB : b.sccPort (sccPortNumber chip false) = c.sccPort (sccPortNumber chip false) :=
    congrFun same false
  unfold sccVectorChip
  rw [chB]

theorem sccVectorOf_congr (same : b.sccChip chip = c.sccChip chip) :
    sccVectorOf b chip = sccVectorOf c chip := by
  have chA : b.sccPort (sccPortNumber chip true) = c.sccPort (sccPortNumber chip true) :=
    congrFun same true
  have chB : b.sccPort (sccPortNumber chip false) = c.sccPort (sccPortNumber chip false) :=
    congrFun same false
  unfold sccVectorOf
  rw [chA, chB, sccVectorChip_congr same, sccVectorChip_congr same]

theorem sccRr3Of_congr (same : b.sccChip chip = c.sccChip chip) :
    sccRr3Of b chip = sccRr3Of c chip := by
  have chA : b.sccPort (sccPortNumber chip true) = c.sccPort (sccPortNumber chip true) :=
    congrFun same true
  have chB : b.sccPort (sccPortNumber chip false) = c.sccPort (sccPortNumber chip false) :=
    congrFun same false
  unfold sccRr3Of
  rw [chA, chB]

/-- The same channel put back on equal chips. -/
theorem setSccPort_sccChip (found : b.sccPort (sccPortNumber chip chanA) = some ch)
    (same : b.sccChip chip = c.sccChip chip) (new : SccChan) :
    (b.setSccPort (sccPortNumber chip chanA) new).sccChip chip =
      (c.setSccPort (sccPortNumber chip chanA) new).sccChip chip := by
  have twin : c.sccPort (sccPortNumber chip chanA) = some ch := (congrFun same chanA).symm.trans found
  funext other
  unfold Bus.sccChip
  rw [setSccPort_sccPort found, setSccPort_sccPort twin]
  unfold Function.update
  split
  · rfl
  · exact congrFun same other

/-- A delivery puts the character into the channel of its port. -/
theorem sccRxPort_ports (rxOverrunOn : Bool) {port : SccPort} (found : b.sccPort port = some ch)
    (v : Byte) :
    (sccRxPort rxOverrunOn b (port, v)).sccPort =
      Function.update b.sccPort port (some (sccRxDeliver rxOverrunOn ch v)) := by
  unfold sccRxPort
  rw [found]
  exact setSccPort_sccPort found _

/-- What a read returns is made of the registers of its chip. -/
theorem sccRead_value (found : b.sccPort (sccPortNumber chip chanA) = some ch)
    (same : b.sccChip chip = c.sccChip chip) (insns later : Quad) (addrReg : Reg) :
    (sccRead b insns chip chanA addrReg).1 = (sccRead c later chip chanA addrReg).1 := by
  have twin : c.sccPort (sccPortNumber chip chanA) = some ch :=
    (congrFun same chanA).symm.trans found
  have back := setSccPort_sccChip found same { ch with ptr := 0 }
  unfold sccRead
  simp only [found, twin]
  split
  · rfl
  · rfl
  · rfl
  · rw [sccVectorOf_congr back]
  · rw [sccRr3Of_congr back]
  · rfl

end Ports

/-! ## Accesses and deliveries -/

/-- The I/O page of a chip. -/
def sccPage : Fin 3 → Word
  | 0 => 0x0100
  | 1 => 0x0300
  | 2 => 0x0380

/-- A register access through a port of a chip, at an instruction count, or a character
that reaches a receiver. -/
inductive SccEvent where
  | read (insns : Quad) (chip : Fin 3) (port : Word) (decodes : port &&& 0xFF80 = sccPage chip)
  | write (insns : Quad) (chip : Fin 3) (port data : Word)
      (decodes : port &&& 0xFF80 = sccPage chip)
  | deliver (port : SccPort) (v : Byte)

namespace SccEvent

/-- The chip that an event is addressed to. -/
def chip : SccEvent → Fin 3
  | .read _ chip _ _ => chip
  | .write _ chip _ _ _ => chip
  | .deliver port _ => chipOfPort port

/-- The channel that an event is addressed to. -/
def chanA : SccEvent → Bool
  | .read _ _ port _ => sccChanA port
  | .write _ _ port _ _ => sccChanA port
  | .deliver port _ => port.val % 2 == 1

/-- What an event makes of the channel that it is addressed to. -/
def own (rxOverrunOn : Bool) : SccEvent → SccChan → SccChan
  | .read _ _ port _, ch => ch.afterRead (sccReg port)
  | .write _ _ port data _, ch => ch.afterWrite (sccReg port) (hiByte data)
  | .deliver _ v, ch => sccRxDeliver rxOverrunOn ch v

/-- What an event makes of the other channel of the chip. -/
def twin : SccEvent → SccChan → SccChan → SccChan
  | .write _ _ port data _, ch, other =>
    if ch.register (sccReg port) = 2 ∨ ch.register (sccReg port) = 9 then
      { other with wr := Function.update other.wr (ch.register (sccReg port)) (hiByte data) }
    else other
  | _, _, other => other

end SccEvent

/-- The machine at an instruction count. -/
def Machine.at (m : Machine) (insns : Quad) : Machine := { m with cpu := { m.cpu with insns } }

/-- The machine after an event. -/
def sccStep (rxOverrunOn : Bool) (m : Machine) : SccEvent → Machine
  | .read insns _ port _ => (ioRead (m.at insns) port false).2
  | .write insns _ port data _ => ioWrite (m.at insns) port data false
  | .deliver port v => { m with bus := sccRxPort rxOverrunOn m.bus (port, v) }

/-- The word that a read of a chip returns. -/
def sccSeen (chip : Fin 3) (m : Machine) : SccEvent → Option Word
  | .read insns own port _ => if own = chip then some (ioRead (m.at insns) port false).1 else none
  | _ => none

section Steps

variable {m n : Machine} {insns : Quad} {chip : Fin 3}

/-- The decode of a page. -/
theorem sccChipAt_page {b : Bus} (fitted : b.lrScc = true) {port : Word}
    (decodes : port &&& 0xFF80 = sccPage chip) : sccChipAt b port = some chip := by
  unfold sccChipAt
  rw [decodes, fitted]
  match chip with
  | 0 => rfl
  | 1 => rfl
  | 2 => rfl

/-- A read through a port of a chip. -/
theorem ioRead_page (fitted : m.bus.lrScc = true) {port : Word}
    (decodes : port &&& 0xFF80 = sccPage chip) :
    ioRead (m.at insns) port false =
      (highLane (sccRead m.bus insns chip (sccChanA port) (sccReg port)).1,
        { m.at insns with bus := (sccRead m.bus insns chip (sccChanA port) (sccReg port)).2 }) := by
  have page : sccChipAt (m.at insns).bus port = some chip := sccChipAt_page fitted decodes
  unfold ioRead busRead
  rw [page]
  rfl

/-- A write through a port of a chip. -/
theorem ioWrite_page (fitted : m.bus.lrScc = true) {port : Word}
    (decodes : port &&& 0xFF80 = sccPage chip) (data : Word) :
    (ioWrite (m.at insns) port data false).bus =
      sccWrite m.bus insns chip (sccChanA port) (sccReg port) (hiByte data) := by
  have page : sccChipAt (m.at insns).bus port = some chip := sccChipAt_page fitted decodes
  unfold ioWrite busWrite
  rw [page]
  rfl

/-- The port of a receiver is a channel of its chip. -/
theorem sccPortNumber_chipOfPort :
    ∀ port : SccPort, sccPortNumber (chipOfPort port) (port.val % 2 == 1) = port := by decide

/-- An event acts on the two channels of its chip, by functions of these channels. -/
theorem sccStep_ports (rxOverrunOn : Bool) (fitted : m.bus.lrScc = true) (e : SccEvent)
    {ch other : SccChan} (found : m.bus.sccPort (sccPortNumber e.chip e.chanA) = some ch)
    (beside : m.bus.sccPort (sccPortNumber e.chip (!e.chanA)) = some other) :
    (sccStep rxOverrunOn m e).bus.sccPort =
      Function.update (Function.update m.bus.sccPort (sccPortNumber e.chip e.chanA)
          (some (e.own rxOverrunOn ch)))
        (sccPortNumber e.chip (!e.chanA)) (some (e.twin ch other)) := by
  have untouched : ∀ new, Function.update (Function.update m.bus.sccPort
      (sccPortNumber e.chip e.chanA) new) (sccPortNumber e.chip (!e.chanA)) (some other) =
        Function.update m.bus.sccPort (sccPortNumber e.chip e.chanA) new := fun new => by
    refine Function.update_eq_self_iff.mpr ?_
    rw [Function.update_of_ne (sccPortNumber_twin e.chip e.chanA).symm]
    exact beside.symm
  cases e with
  | read insns chip port decodes =>
    refine Eq.trans ?_ (untouched _).symm
    rw [sccStep, ioRead_page fitted decodes]
    exact sccRead_ports found insns (sccReg port)
  | write insns chip port data decodes =>
    rw [sccStep, ioWrite_page fitted decodes]
    refine (sccWrite_ports found beside insns (sccReg port) (hiByte data)).trans ?_
    rw [SccEvent.twin]
    split_ifs
    · rfl
    · exact (untouched _).symm
  | deliver port v =>
    refine Eq.trans ?_ (untouched _).symm
    dsimp only [SccEvent.chip, SccEvent.chanA] at found ⊢
    rw [sccPortNumber_chipOfPort] at found ⊢
    exact sccRxPort_ports rxOverrunOn found v

/-- The board stays. -/
theorem sccStep_lrScc (rxOverrunOn : Bool) (fitted : m.bus.lrScc = true) (e : SccEvent) :
    (sccStep rxOverrunOn m e).bus.lrScc = true := by
  obtain ⟨ch, found⟩ := sccPort_fitted fitted (sccPortNumber e.chip e.chanA)
  obtain ⟨other, beside⟩ := sccPort_fitted fitted (sccPortNumber e.chip (!e.chanA))
  have first : (m.bus.sccPort 2).isSome = true := lrScc_eq_sccPort m.bus ▸ fitted
  rw [lrScc_eq_sccPort, sccStep_ports rxOverrunOn fitted e found beside, Function.update_apply,
    Function.update_apply]
  split_ifs
  · rfl
  · rfl
  · exact first

/-- The three chips are separate. -/
theorem sccStep_separate (rxOverrunOn : Bool) (chip : Fin 3) :
    Separate (sccStep rxOverrunOn) (sccSeen chip) (fun m => m.bus.lrScc = true)
      (fun m => m.bus.sccChip chip) (fun e => e.chip == chip) where
  kept e fitted := sccStep_lrScc rxOverrunOn fitted e
  silent {m e} fitted address := by
    have elsewhere : e.chip ≠ chip := beq_eq_false_iff_ne.mp address
    obtain ⟨ch, found⟩ := sccPort_fitted fitted (sccPortNumber e.chip e.chanA)
    obtain ⟨other, beside⟩ := sccPort_fitted fitted (sccPortNumber e.chip (!e.chanA))
    constructor
    · funext chanA
      unfold Bus.sccChip
      rw [sccStep_ports rxOverrunOn fitted e found beside, update_sccChip_other,
        update_sccChip_other]
      · rw [chipOfPort_sccPortNumber]
        exact elsewhere
      · rw [chipOfPort_sccPortNumber]
        exact elsewhere
    · cases e with
      | read insns own port decodes => exact if_neg elsewhere
      | write insns own port data decodes => rfl
      | deliver port v => rfl
  own {m n e} fitted second address same := by
    obtain rfl : e.chip = chip := eq_of_beq address
    obtain ⟨ch, found⟩ := sccPort_fitted fitted (sccPortNumber e.chip e.chanA)
    obtain ⟨other, beside⟩ := sccPort_fitted fitted (sccPortNumber e.chip (!e.chanA))
    have twin := (congrFun same e.chanA).symm.trans found
    have twinBeside := (congrFun same (!e.chanA)).symm.trans beside
    constructor
    · funext chanA
      unfold Bus.sccChip
      rw [sccStep_ports rxOverrunOn fitted e found beside,
        sccStep_ports rxOverrunOn second e twin twinBeside]
      simp only [Function.update_apply]
      split_ifs
      · rfl
      · rfl
      · exact congrFun same chanA
    · cases e with
      | read insns chip port decodes =>
        have value := sccRead_value found same insns insns (sccReg port)
        dsimp only [sccSeen, SccEvent.chip]
        rw [ioRead_page fitted decodes, ioRead_page second decodes]
        exact congrArg (fun v => if chip = chip then some (highLane v) else none) value
      | write insns chip port data decodes => rfl
      | deliver port v => rfl

/-! ## The registers that the channels share -/

/-- WR2 and WR9 are the same in both channels. -/
def SharesVector (ch other : SccChan) : Prop := ch.wr 2 = other.wr 2 ∧ ch.wr 9 = other.wr 9

/-- The channels of every chip have the same WR2 and the same WR9. -/
def Bus.Paired (b : Bus) : Prop :=
  ∀ chip chA chB, b.sccChip chip true = some chA → b.sccChip chip false = some chB →
    SharesVector chA chB

/-- Accesses and deliveries keep the shared registers equal. -/
theorem SccEvent.sharesVector {ch other : SccChan} (shares : SharesVector ch other)
    (rxOverrunOn : Bool) (e : SccEvent) :
    SharesVector (e.own rxOverrunOn ch) (e.twin ch other) := by
  cases e with
  | read insns chip port decodes => exact shares
  | write insns chip port data decodes =>
    unfold own twin SccChan.afterWrite
    dsimp only
    generalize ch.register (sccReg port) = r
    by_cases shared : r = 2 ∨ r = 9
    · have register : r ≠ 0 ∧ r ≠ 8 := by
        rcases shared with rfl | rfl <;> decide
      rw [if_pos shared, if_neg register.1, if_neg register.2]
      unfold SharesVector
      simp only [Function.update_apply, shares.1, shares.2, and_self]
    · obtain ⟨notTwo, notNine⟩ := not_or.mp shared
      rw [if_neg shared]
      split_ifs
      · exact shares
      · exact shares
      · exact shares
      · unfold SharesVector
        dsimp only
        rw [Function.update_of_ne (Ne.symm notTwo), Function.update_of_ne (Ne.symm notNine)]
        exact shares
  | deliver port v =>
    unfold own twin sccRxDeliver
    dsimp only
    split_ifs <;> exact shares

/-- One event keeps the channels of every chip paired. -/
theorem sccStep_paired (rxOverrunOn : Bool) (fitted : m.bus.lrScc = true) (paired : m.bus.Paired)
    (e : SccEvent) : (sccStep rxOverrunOn m e).bus.Paired := by
  obtain ⟨ch, found⟩ := sccPort_fitted fitted (sccPortNumber e.chip e.chanA)
  obtain ⟨other, beside⟩ := sccPort_fitted fitted (sccPortNumber e.chip (!e.chanA))
  have after := sccStep_ports rxOverrunOn fitted e found beside
  intro chip chA chB foundA foundB
  by_cases own : e.chip = chip
  · subst own
    unfold Bus.sccChip at foundA foundB
    rw [after] at foundA foundB
    have apart := sccPortNumber_twin e.chip e.chanA
    cases side : e.chanA with
    | true =>
      rw [side] at foundA foundB found beside apart
      rw [Function.update_of_ne apart, Function.update_self] at foundA
      rw [Bool.not_true, Function.update_self] at foundB
      obtain rfl := Option.some.inj foundA
      obtain rfl := Option.some.inj foundB
      exact e.sharesVector (paired e.chip ch other found beside) rxOverrunOn
    | false =>
      rw [side] at foundA foundB found beside apart
      rw [Function.update_of_ne apart, Function.update_self] at foundB
      rw [Bool.not_false, Function.update_self] at foundA
      obtain rfl := Option.some.inj foundA
      obtain rfl := Option.some.inj foundB
      have kept := paired e.chip other ch beside found
      have shares := e.sharesVector ⟨kept.1.symm, kept.2.symm⟩ rxOverrunOn
      exact ⟨shares.1.symm, shares.2.symm⟩
  · obtain ⟨same, -⟩ := (sccStep_separate rxOverrunOn chip).silent fitted (beq_eq_false_iff_ne.mpr own)
    rw [same] at foundA foundB
    exact paired chip chA chB foundA foundB

end Steps

/-! ## Runs -/

/-- The board stays through a run. -/
theorem sccRun_lrScc {m : Machine} (fitted : m.bus.lrScc = true) (rxOverrunOn : Bool)
    (events : List SccEvent) : (runEvents (sccStep rxOverrunOn) m events).bus.lrScc = true := by
  induction events generalizing m with
  | nil => exact fitted
  | cons e rest inductionHypothesis =>
    exact inductionHypothesis (sccStep_lrScc rxOverrunOn fitted e)

/-- The channels stay paired through a run. -/
theorem sccRun_paired {m : Machine} (fitted : m.bus.lrScc = true) (paired : m.bus.Paired)
    (rxOverrunOn : Bool) (events : List SccEvent) :
    (runEvents (sccStep rxOverrunOn) m events).bus.Paired := by
  induction events generalizing m with
  | nil => exact paired
  | cons e rest inductionHypothesis =>
    exact inductionHypothesis (sccStep_lrScc rxOverrunOn fitted e)
      (sccStep_paired rxOverrunOn fitted paired e)

/-- What each of the three chips holds and what is read from it are those of the events
addressed to it alone, and its channels have one WR2 and one WR9. -/
theorem sccRun_chips {m : Machine} (fitted : m.bus.lrScc = true) (paired : m.bus.Paired)
    (rxOverrunOn : Bool) (events : List SccEvent) (chip : Fin 3) :
    (runEvents (sccStep rxOverrunOn) m events).bus.sccChip chip =
        (runEvents (sccStep rxOverrunOn) m (events.filter (·.chip == chip))).bus.sccChip chip ∧
      observed (sccStep rxOverrunOn) (sccSeen chip) m events =
        observed (sccStep rxOverrunOn) (sccSeen chip) m (events.filter (·.chip == chip)) ∧
      ∃ chA chB, (runEvents (sccStep rxOverrunOn) m events).bus.sccChip chip true = some chA ∧
        (runEvents (sccStep rxOverrunOn) m events).bus.sccChip chip false = some chB ∧
        chA.wr 2 = chB.wr 2 ∧ chA.wr 9 = chB.wr 9 := by
  obtain ⟨state, seen⟩ := (sccStep_separate rxOverrunOn chip).run fitted events
  have stays : (runEvents (sccStep rxOverrunOn) m events).bus.lrScc = true :=
    sccRun_lrScc fitted rxOverrunOn events
  obtain ⟨chA, foundA⟩ := sccPort_fitted stays (sccPortNumber chip true)
  obtain ⟨chB, foundB⟩ := sccPort_fitted stays (sccPortNumber chip false)
  exact ⟨state, seen, chA, chB, foundA, foundB,
    sccRun_paired fitted paired rxOverrunOn events chip chA chB foundA foundB⟩

/-- The machine at power-up, with the LR board. -/
def machineLr : Machine := { machineNew with bus := { machineNew.bus with lrScc := true } }

/-- A machine powers up with its chips paired. -/
theorem machineLr_paired : machineLr.bus.Paired := by
  have blank : ∀ port, machineLr.bus.sccPort port = some default := fun port => by
    have fitted : machineLr.bus.lrScc = true := rfl
    unfold Bus.sccPort
    rw [if_pos fitted]
    split_ifs <;> rfl
  intro chip chA chB foundA foundB
  obtain rfl := Option.some.inj ((blank _).symm.trans foundA)
  obtain rfl := Option.some.inj ((blank _).symm.trans foundB)
  exact ⟨rfl, rfl⟩

/-- The pointer write and the vector of U31 stay on U31, and U36 shows its own. -/
def vectorWrites : List SccEvent :=
  [.write 0 1 0x0300 0x0200 rfl, .write 1 2 0x0384 0x3000 rfl, .write 2 1 0x0300 0x2000 rfl,
    .deliver 4 0x41, .read 3 1 0x0324 rfl, .read 4 2 0x03A4 rfl]

theorem machineLr_chips :
    observed (sccStep false) (sccSeen 1) machineLr vectorWrites = [0x2000] ∧
      observed (sccStep false) (sccSeen 2) machineLr vectorWrites = [0x3000] := by
  have first := (sccRun_chips (m := machineLr) rfl machineLr_paired false vectorWrites 1).2.1
  have second := (sccRun_chips (m := machineLr) rfl machineLr_paired false vectorWrites 2).2.1
  exact ⟨first.trans (by decide), second.trans (by decide)⟩

end C900
