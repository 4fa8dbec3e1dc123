import Mathlib.Tactic.SplitIfs
import C900.Logic.Pattern
import C900.Bus.Serial

/-!
# The stop mark

`stop_mark_watch` keeps, for each port, how much of the mark the port's own
output has matched. This is the length of the longest prefix of the mark that
ends that output, so the flag goes up with the byte that completes the mark on
its own port, whatever the other ports send in between.
-/

namespace C900

/-- A mark as a C string can hold it: not empty, and without the terminator. -/
structure IsMark (mark : List Byte) : Prop where
  nonempty : mark ≠ []
  noNul : (0 : Byte) ∉ mark

/-! ## One byte through the matcher -/

/-- Inside the mark, the comparison with the C string compares with the mark. -/
theorem getD_eq_iff {mark : List Byte} {pos : Nat} (inside : pos < mark.length) (v : Byte) :
    mark.getD pos 0 = v ↔ mark[pos]? = some v := by
  rw [List.getD_eq_getElem?_getD, List.getElem?_eq_getElem inside, Option.getD_some,
    Option.some_inj]

/-- The terminator is read exactly at the end of the mark. -/
theorem IsMark.getD_eq_zero_iff {mark : List Byte} (isMark : IsMark mark) {pos : Nat}
    (inside : pos ≤ mark.length) : mark.getD pos 0 = 0 ↔ pos = mark.length := by
  constructor
  · intro nul
    by_contra notEnd
    have less : pos < mark.length := Nat.lt_of_le_of_ne inside notEnd
    exact isMark.noNul (List.mem_of_getElem? ((getD_eq_iff less 0).mp nul))
  · rintro rfl
    simp

/-- The comparison of `mark_advance` asks whether the first `k` characters are a
border of what has matched. -/
theorem markBorder_iff {mark : List Byte} {pos k : Nat} (small : k ≤ pos)
    (inside : pos ≤ mark.length) :
    markBorder mark pos k = true ↔ mark.take k <:+ mark.take pos := by
  have lengths : (mark.take pos).length - (mark.take k).length = pos - k := by
    simp only [List.length_take]
    omega
  have piece : (mark.take pos).drop (pos - k) = (mark.drop (pos - k)).take k := by
    rw [List.drop_take, Nat.sub_sub_self small]
  rw [markBorder, beq_iff_eq, List.suffix_iff_eq_drop, lengths, piece]

/-- The loop of `mark_advance` ends on a border. -/
theorem markFallback_border {mark : List Byte} {pos k : Nat} (small : k ≤ pos)
    (inside : pos ≤ mark.length) :
    mark.take (markFallback mark pos k) <:+ mark.take pos := by
  induction k with
  | zero => simp [markFallback]
  | succ k inductionHypothesis =>
    rw [markFallback]
    split_ifs with border
    · exact (markBorder_iff small inside).mp border
    · exact inductionHypothesis (Nat.le_of_succ_le small)

/-- No border within the loop's range is longer than the one it ends on. -/
theorem markFallback_longest {mark : List Byte} {pos k i : Nat} (small : k ≤ pos)
    (inside : pos ≤ mark.length) (range : i ≤ k) (border : mark.take i <:+ mark.take pos) :
    i ≤ markFallback mark pos k := by
  induction k with
  | zero => exact range.trans (Nat.zero_le _)
  | succ k inductionHypothesis =>
    rw [markFallback]
    split_ifs with found
    · exact range
    · refine inductionHypothesis (Nat.le_of_succ_le small) ?_
      rcases Nat.lt_or_eq_of_le range with less | rfl
      · exact Nat.le_of_lt_succ less
      · exact absurd ((markBorder_iff small inside).mpr border) found

/-- The comparison with the C string compares with the mark, unless it is a NUL that meets the
terminator. -/
theorem getD_eq_iff_of_real {mark : List Byte} {pos : Nat} {v : Byte} (inside : pos ≤ mark.length)
    (real : pos = mark.length → v ≠ 0) : mark.getD pos 0 = v ↔ mark[pos]? = some v := by
  rcases Nat.lt_or_eq_of_le inside with less | rfl
  · exact getD_eq_iff less v
  · rw [List.getD_eq_getElem?_getD, List.getElem?_eq_none (Nat.le_refl _)]
    exact ⟨fun nul => absurd nul.symm (real rfl), nofun⟩

/-- `mark_advance` keeps the longest match, from the end of the mark as well. -/
theorem markAdvance_follows {mark stream : List Byte} {v : Byte} {pos : Nat}
    (inside : pos ≤ mark.length) (real : pos = mark.length → v ≠ 0)
    (candidate : Candidate mark stream v pos) :
    LongestMatch mark (stream ++ [v]) (markAdvance mark pos v) := by
  induction pos using Nat.strong_induction_on with
  | h pos inductionHypothesis =>
    have compared := getD_eq_iff_of_real inside real
    rw [markAdvance]
    split_ifs with same atStart
    · exact candidate.continued (compared.mp same)
    · subst atStart
      exact candidate.broken (mt compared.mpr same)
    · have shorter : markFallback mark pos (pos - 1) < pos := by
        have := markFallback_le mark pos (pos - 1)
        omega
      have upTo : pos - 1 ≤ pos := Nat.sub_le pos 1
      have less : markFallback mark pos (pos - 1) < mark.length := Nat.lt_of_lt_of_le shorter inside
      refine inductionHypothesis _ shorter (Nat.le_of_lt less) ?_ ?_
      · exact fun atEnd => absurd atEnd (Nat.ne_of_lt less)
      · refine candidate.fallBack (mt compared.mpr same) shorter
          (markFallback_border upTo inside) ?_
        intro i below border
        exact markFallback_longest upTo inside (Nat.le_sub_one_of_lt below) border

/-- `mark_advance` keeps the longest match. -/
theorem markAdvance_longest {mark stream : List Byte} {v : Byte} {pos : Nat}
    (inside : pos < mark.length) (candidate : Candidate mark stream v pos) :
    LongestMatch mark (stream ++ [v]) (markAdvance mark pos v) :=
  markAdvance_follows (Nat.le_of_lt inside) (fun atEnd => absurd atEnd (Nat.ne_of_lt inside))
    candidate

/-! ## Runs of register accesses -/

/-- One guest access to a serial register, at an instruction count. -/
inductive SerialAccess where
  | read (insns : Quad) (chip : Fin 3) (chanA : Bool) (addrReg : Reg)
  | write (insns : Quad) (chip : Fin 3) (chanA : Bool) (addrReg : Reg) (v : Byte)
deriving Inhabited

/-- The bus after an access. -/
def SerialAccess.run (b : Bus) : SerialAccess → Bus
  | .read insns chip chanA addrReg => (sccRead b insns chip chanA addrReg).2
  | .write insns chip chanA addrReg v => sccWrite b insns chip chanA addrReg v

/-- The byte an access writes to the transmit register of a fitted port. -/
def SerialAccess.transmits (b : Bus) : SerialAccess → Option (SccPort × Byte)
  | .read .. => none
  | .write _ chip chanA addrReg v =>
    match b.sccPort (sccPortNumber chip chanA) with
    | none => none
    | some ch => if ch.register addrReg = 8 then some (sccPortNumber chip chanA, v) else none

/-- The bus after a list of accesses. -/
def serialRun (b : Bus) (accesses : List SerialAccess) : Bus :=
  accesses.foldl SerialAccess.run b

/-- The bytes that a list of accesses transmits, oldest first. -/
def transmissions (b : Bus) : List SerialAccess → List (SccPort × Byte)
  | [] => []
  | access :: rest => (access.transmits b).toList ++ transmissions (access.run b) rest

/-- A port's own output, taken alone. -/
def outputOf (port : SccPort) (sent : List (SccPort × Byte)) : List Byte :=
  (sent.filter fun byte => byte.1 = port).map Prod.snd

/-- With the last byte of the list, the output of that byte's port ends with the
mark. -/
def EndsOnMark (mark : List Byte) (sent : List (SccPort × Byte)) : Prop :=
  ∃ earlier port v, sent = earlier ++ [(port, v)] ∧ mark <:+ outputOf port sent

theorem outputOf_append_same (port : SccPort) (v : Byte) (sent : List (SccPort × Byte)) :
    outputOf port (sent ++ [(port, v)]) = outputOf port sent ++ [v] := by
  simp [outputOf]

theorem outputOf_append_other {port other : SccPort} (different : other ≠ port) (v : Byte)
    (sent : List (SccPort × Byte)) :
    outputOf port (sent ++ [(other, v)]) = outputOf port sent := by
  simp [outputOf, different]

/-- What the watch on the stop mark reads and writes. -/
def Bus.watch (b : Bus) : Option (List Byte) × (SccPort → Nat) × Bool :=
  (b.stopMark, b.stopMarkPos, b.stop)

@[simp] theorem setSccPort_watch (b : Bus) (port : SccPort) (ch : SccChan) :
    (b.setSccPort port ch).watch = b.watch := by
  unfold Bus.setSccPort
  split_ifs <;> rfl

@[simp] theorem send_watch (b : Bus) (port : SccPort) (v : Byte) :
    (b.send port v).watch = b.watch := rfl

/-- A read is no business of the watch. -/
theorem sccRead_watch (b : Bus) (insns : Quad) (chip : Fin 3) (chanA : Bool) (addrReg : Reg) :
    (sccRead b insns chip chanA addrReg).2.watch = b.watch := by
  unfold sccRead
  dsimp only
  cases b.sccPort (sccPortNumber chip chanA) with
  | none => rfl
  | some ch =>
    dsimp only
    split <;> dsimp only <;> (try split_ifs) <;> exact setSccPort_watch ..

/-- The input mark is another mark. -/
theorem inputMarkWatch_watch (b : Bus) (v : Byte) : (inputMarkWatch b v).watch = b.watch := by
  unfold inputMarkWatch
  split
  · rfl
  · split_ifs <;> rfl

/-- The watch reads nothing but its own fields. -/
theorem stopMarkWatch_watch {b c : Bus} (same : b.watch = c.watch) (port : SccPort) (v : Byte) :
    (stopMarkWatch b port v).watch = (stopMarkWatch c port v).watch := by
  obtain ⟨sameMark, samePos, sameStop⟩ : b.stopMark = c.stopMark ∧
      b.stopMarkPos = c.stopMarkPos ∧ b.stop = c.stop := by
    simpa [Bus.watch] using same
  unfold stopMarkWatch
  rw [sameMark]
  cases c.stopMark with
  | none => exact same
  | some mark => simp only [Bus.watch, samePos, sameStop]

/-- The console sends its byte past the watch. -/
theorem consoleTransmit_watch (b : Bus) (insns : Quad) (port : SccPort) (v : Byte) :
    (consoleTransmit b insns port v).watch = (stopMarkWatch b port v).watch := by
  have sent : (inputMarkWatch
      { b.send port v with lastTxInsn := insns, rxPollStreak := 0 } v).watch = b.watch :=
    inputMarkWatch_watch _ v
  rw [← stopMarkWatch_watch sent port v]
  unfold consoleTransmit
  dsimp only
  split_ifs <;> rfl

/-- An access that transmits takes the watch one byte on; any other leaves it
alone. -/
theorem SerialAccess.run_watch (b : Bus) (access : SerialAccess) :
    (access.run b).watch =
      match access.transmits b with
      | none => b.watch
      | some (port, v) => (stopMarkWatch b port v).watch := by
  cases access with
  | read insns chip chanA addrReg => exact sccRead_watch b insns chip chanA addrReg
  | write insns chip chanA addrReg v =>
    unfold SerialAccess.run SerialAccess.transmits sccWrite
    dsimp only
    cases fitted : b.sccPort (sccPortNumber chip chanA) with
    | none => rfl
    | some ch =>
      dsimp only
      by_cases command : ch.register addrReg = 0
      · simp only [command, if_true]
        exact setSccPort_watch ..
      rw [if_neg command]
      by_cases transmit : ch.register addrReg = 8
      · simp only [transmit, if_true]
        split_ifs with console wired
        · rw [consoleTransmit_watch]
          exact stopMarkWatch_watch (setSccPort_watch ..) ..
        · exact stopMarkWatch_watch ((send_watch ..).trans (setSccPort_watch ..)) ..
        · exact stopMarkWatch_watch (setSccPort_watch ..) ..
      · rw [if_neg transmit, if_neg transmit]
        dsimp only
        split_ifs with shared
        · cases Bus.sccPort _ (sccPortNumber chip !chanA) with
          | none => exact setSccPort_watch ..
          | some other =>
            dsimp only
            rw [setSccPort_watch, setSccPort_watch]
        · exact setSccPort_watch ..

/-! ## The invariant -/

/-- While the flag is down, each port's position is the longest match of its own
output; the flag is up exactly when some byte ended its port's output on the
mark. -/
structure Watching (mark : List Byte) (b : Bus) (sent : List (SccPort × Byte)) : Prop where
  armed : b.stopMark = some mark
  matched : b.stop = false → ∀ port,
    LongestMatch mark (outputOf port sent) (b.stopMarkPos port) ∧
      b.stopMarkPos port < mark.length
  stopped : b.stop = true ↔ ∃ early, early <+: sent ∧ EndsOnMark mark early

/-- The invariant speaks of the watch alone. -/
theorem Watching.of_watch {mark : List Byte} {b c : Bus} {sent : List (SccPort × Byte)}
    (watching : Watching mark b sent) (same : c.watch = b.watch) : Watching mark c sent := by
  obtain ⟨sameMark, samePos, sameStop⟩ : c.stopMark = b.stopMark ∧
      c.stopMarkPos = b.stopMarkPos ∧ c.stop = b.stop := by
    simpa [Bus.watch] using same
  refine ⟨sameMark.trans watching.armed, ?_, ?_⟩
  · rw [sameStop, samePos]
    exact watching.matched
  · rw [sameStop]
    exact watching.stopped

/-- No output ends on the mark before the first byte. -/
theorem Watching.start {mark : List Byte} (isMark : IsMark mark) {b : Bus}
    (armed : b.stopMark = some mark) (running : b.stop = false)
    (fresh : ∀ port, b.stopMarkPos port = 0) : Watching mark b [] := by
  refine ⟨armed, fun _ port => ?_, ?_⟩
  · rw [fresh port]
    exact ⟨LongestMatch.start, List.length_pos_iff.mpr isMark.nonempty⟩
  · rw [running]
    refine ⟨fun up => absurd up Bool.false_ne_true, ?_⟩
    rintro ⟨early, before, earlier, port, v, parts, -⟩
    have empty := List.prefix_nil.mp before
    rw [parts] at empty
    exact absurd empty (List.append_ne_nil_of_right_ne_nil _ (List.cons_ne_nil _ _))

/-- A list that gains one byte ends on the mark early when it did before, or with
that byte. -/
theorem endsOnMark_append {mark : List Byte} (sent : List (SccPort × Byte)) (port : SccPort)
    (v : Byte) :
    (∃ early, early <+: sent ++ [(port, v)] ∧ EndsOnMark mark early) ↔
      (∃ early, early <+: sent ∧ EndsOnMark mark early) ∨
        mark <:+ outputOf port sent ++ [v] := by
  have endsNow : EndsOnMark mark (sent ++ [(port, v)]) ↔ mark <:+ outputOf port sent ++ [v] := by
    rw [← outputOf_append_same]
    constructor
    · rintro ⟨earlier, last, w, parts, ends⟩
      obtain ⟨-, same⟩ := List.append_inj' parts rfl
      obtain ⟨rfl, rfl⟩ : port = last ∧ v = w := by simpa using same
      exact ends
    · exact fun ends => ⟨sent, port, v, rfl, ends⟩
  constructor
  · rintro ⟨early, before, ends⟩
    rcases List.prefix_concat_iff.mp before with rfl | inside
    · exact Or.inr (endsNow.mp ends)
    · exact Or.inl ⟨early, inside, ends⟩
  · rintro (⟨early, before, ends⟩ | ends)
    · exact ⟨early, before.trans (List.prefix_append _ _), ends⟩
    · exact ⟨_, List.prefix_refl _, endsNow.mpr ends⟩

/-- One transmitted byte keeps the invariant. -/
theorem Watching.transmit {mark : List Byte} (isMark : IsMark mark) {b : Bus}
    {sent : List (SccPort × Byte)} (watching : Watching mark b sent) (port : SccPort) (v : Byte) :
    Watching mark (stopMarkWatch b port v) (sent ++ [(port, v)]) := by
  have result : stopMarkWatch b port v =
      { b with
        stopMarkPos := Function.update b.stopMarkPos port
          (markAdvance mark (b.stopMarkPos port) v)
        stop := b.stop || mark.getD (markAdvance mark (b.stopMarkPos port) v) 0 == 0 } := by
    rw [stopMarkWatch, watching.armed]
  rw [result]
  -- While the flag is down, the new position is the longest match of the longer output.
  have advanced : b.stop = false →
      LongestMatch mark (outputOf port sent ++ [v]) (markAdvance mark (b.stopMarkPos port) v) := by
    intro running
    obtain ⟨longest, inside⟩ := watching.matched running port
    exact markAdvance_longest inside longest.candidate
  refine ⟨watching.armed, ?_, ?_⟩
  · intro running other
    obtain ⟨before, notNul⟩ := Bool.or_eq_false_iff.mp running
    by_cases same : other = port
    · subst same
      have longest := advanced before
      have notEnd := mt (isMark.getD_eq_zero_iff longest.ends.1).mpr (by simpa using notNul)
      rw [outputOf_append_same]
      simp only [Function.update_self]
      exact ⟨longest, Nat.lt_of_le_of_ne longest.ends.1 notEnd⟩
    · rw [outputOf_append_other (Ne.symm same)]
      simp only [Function.update_of_ne same]
      exact watching.matched before other
  · rw [endsOnMark_append, ← watching.stopped]
    cases before : b.stop with
    | true => simp
    | false =>
      have longest := advanced before
      rw [← longest.complete_iff, ← isMark.getD_eq_zero_iff longest.ends.1]
      simp

/-- One access keeps the invariant. -/
theorem Watching.step {mark : List Byte} (isMark : IsMark mark) {b : Bus}
    {sent : List (SccPort × Byte)} (watching : Watching mark b sent) (access : SerialAccess) :
    Watching mark (access.run b) (sent ++ (access.transmits b).toList) := by
  have watch := access.run_watch b
  cases transmitted : access.transmits b with
  | none =>
    rw [transmitted] at watch
    simpa using watching.of_watch watch
  | some byte =>
    rw [transmitted] at watch
    exact (watching.transmit isMark byte.1 byte.2).of_watch watch

/-- A run keeps the invariant. -/
theorem Watching.run {mark : List Byte} (isMark : IsMark mark) {b : Bus}
    {sent : List (SccPort × Byte)} (watching : Watching mark b sent)
    (accesses : List SerialAccess) :
    Watching mark (serialRun b accesses) (sent ++ transmissions b accesses) := by
  induction accesses generalizing b sent with
  | nil => simpa [serialRun, transmissions] using watching
  | cons access rest inductionHypothesis =>
    have further := inductionHypothesis (watching.step isMark access)
    rwa [List.append_assoc] at further

/-- One more access at the end of a run. -/
theorem serialRun_append (b : Bus) (accesses : List SerialAccess) (access : SerialAccess) :
    serialRun b (accesses ++ [access]) = access.run (serialRun b accesses) := by
  simp [serialRun]

/-- The flag is up after a run exactly when some byte of the run ended the output
of its own port on the mark, and it goes up with the first such byte: whatever
the accesses and their ports, for every mark. -/
theorem serialRun_stop {mark : List Byte} (isMark : IsMark mark) {b : Bus}
    (armed : b.stopMark = some mark) (running : b.stop = false)
    (fresh : ∀ port, b.stopMarkPos port = 0) (accesses : List SerialAccess)
    (access : SerialAccess) :
    ((serialRun b accesses).stop = true ↔
        ∃ early, early <+: transmissions b accesses ∧ EndsOnMark mark early) ∧
      (((serialRun b accesses).stop = false ∧
          (serialRun b (accesses ++ [access])).stop = true) ↔
        (∃ port v, access.transmits (serialRun b accesses) = some (port, v) ∧
          mark <:+ outputOf port (transmissions b accesses ++ [(port, v)])) ∧
        ∀ early, early <+: transmissions b accesses → ¬ EndsOnMark mark early) := by
  have watching : Watching mark (serialRun b accesses) (transmissions b accesses) :=
    (Watching.start isMark armed running fresh).run isMark accesses
  have after := (watching.step isMark access).stopped
  rw [← serialRun_append] at after
  refine ⟨watching.stopped, ?_⟩
  have down : (serialRun b accesses).stop = false ↔
      ∀ early, early <+: transmissions b accesses → ¬ EndsOnMark mark early := by
    rw [← Bool.not_eq_true, watching.stopped]
    push Not
    exact Iff.rfl
  rw [down, after, and_comm]
  refine and_congr_left fun notEarlier => ?_
  cases access.transmits (serialRun b accesses) with
  | none =>
    simp only [Option.toList_none, List.append_nil]
    refine ⟨fun ⟨early, before, ends⟩ => absurd ends (notEarlier early before), ?_⟩
    rintro ⟨port, v, impossible, -⟩
    exact absurd impossible (by simp)
  | some byte =>
    obtain ⟨port, v⟩ := byte
    rw [Option.toList_some, endsOnMark_append]
    constructor
    · rintro (⟨early, before, ends⟩ | ends)
      · exact absurd ends (notEarlier early before)
      · exact ⟨port, v, rfl, by rwa [outputOf_append_same]⟩
    · rintro ⟨same, w, transmitted, ends⟩
      obtain ⟨rfl, rfl⟩ : port = same ∧ v = w := by simpa using transmitted
      rw [outputOf_append_same] at ends
      exact Or.inr ends

/-- A bus that watches for `aab`. -/
def restartBus : Bus := { (default : Bus) with stopMark := some [0x61, 0x61, 0x62] }

/-- Port 1 prints `aaab`, and the console a `b` in the middle of it. -/
def restartAccesses : List SerialAccess :=
  [.write 0 0 true 8 0x61, .write 1 0 true 8 0x61, .write 2 0 false 8 0x62,
    .write 3 0 true 8 0x61, .write 4 0 true 8 0x62]

/-- The match that the third `a` restarts ends the run. -/
theorem serialRun_stop_restart : (serialRun restartBus restartAccesses).stop = true := by
  have isMark : IsMark [0x61, 0x61, 0x62] := ⟨by decide, by decide⟩
  have exactly := serialRun_stop isMark (b := restartBus) rfl rfl (fun _ => rfl)
    restartAccesses default
  exact exactly.1.mpr ⟨_, List.prefix_refl _, [(1, 0x61), (1, 0x61), (0, 0x62), (1, 0x61)],
    1, 0x62, by decide, by decide⟩

end C900
