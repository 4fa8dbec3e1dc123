import C900.Bus.Marks
import C900.Cpu.Step

/-!
# The end of the mark

`mark_advance` compares the terminator of the mark like any other character. A NUL that follows
the mark on its own port matches it, and takes the position past the string; nothing else does.
-/

namespace C900

/-! ## What is read -/

/-- The characters of the mark that one `memcmp` of `mark_advance` compares. -/
def markBorderReads (pos k : Nat) : List Nat :=
  List.range k ++ (List.range k).map (pos - k + ·)

/-- The characters that the loop of `mark_advance` over `k` compares. -/
def markFallbackReads (mark : List Byte) (pos : Nat) : Nat → List Nat
  | 0 => []
  | k + 1 =>
    markBorderReads pos (k + 1) ++
      if markBorder mark pos (k + 1) then [] else markFallbackReads mark pos k

/-- The characters that `mark_advance` reads. -/
def markAdvanceReads (mark : List Byte) (pos : Nat) (v : Byte) : List Nat :=
  pos ::
    if mark.getD pos 0 = v then []
    else if pos = 0 then []
    else
      markFallbackReads mark pos (pos - 1) ++
        markAdvanceReads mark (markFallback mark pos (pos - 1)) v
termination_by pos
decreasing_by
  have := markFallback_le mark pos (pos - 1)
  omega

/-- The characters that `stop_mark_watch` reads: those of `mark_advance`, and the one at the new
position. -/
def stopMarkWatchReads (b : Bus) (port : SccPort) (v : Byte) : List Nat :=
  match b.stopMark with
  | none => []
  | some mark =>
    let pos := b.stopMarkPos port
    markAdvanceReads mark pos v ++ [markAdvance mark pos v]

/-- The characters of the mark that an access makes the watch read. -/
def SerialAccess.markReads (b : Bus) (access : SerialAccess) : List Nat :=
  match access.transmits b with
  | none => []
  | some (port, v) => stopMarkWatchReads b port v

theorem markBorderReads_lt {pos k i : Nat} (small : k ≤ pos) (read : i ∈ markBorderReads pos k) :
    i < pos := by
  rcases List.mem_append.mp read with front | back
  · exact Nat.lt_of_lt_of_le (List.mem_range.mp front) small
  · obtain ⟨j, below, rfl⟩ := List.mem_map.mp back
    have := List.mem_range.mp below
    omega

theorem markFallbackReads_lt {mark : List Byte} {pos k i : Nat} (small : k ≤ pos)
    (read : i ∈ markFallbackReads mark pos k) : i < pos := by
  induction k with
  | zero => exact absurd read List.not_mem_nil
  | succ k inductionHypothesis =>
    rcases List.mem_append.mp read with now | later
    · exact markBorderReads_lt small now
    · split_ifs at later with border
      · exact absurd later List.not_mem_nil
      · exact inductionHypothesis (Nat.le_of_succ_le small) later

/-- `mark_advance` reads nothing behind the position it starts from. -/
theorem markAdvanceReads_le {mark : List Byte} {pos i : Nat} {v : Byte}
    (read : i ∈ markAdvanceReads mark pos v) : i ≤ pos := by
  induction pos using Nat.strong_induction_on with
  | h pos inductionHypothesis =>
    rw [markAdvanceReads] at read
    rcases List.mem_cons.mp read with rfl | later
    · exact Nat.le_refl _
    split_ifs at later with same atStart
    · exact absurd later List.not_mem_nil
    · exact absurd later List.not_mem_nil
    · have shorter : markFallback mark pos (pos - 1) < pos := by
        have := markFallback_le mark pos (pos - 1)
        omega
      rcases List.mem_append.mp later with loop | again
      · exact Nat.le_of_lt (markFallbackReads_lt (Nat.sub_le pos 1) loop)
      · exact Nat.le_of_lt (Nat.lt_of_le_of_lt (inductionHypothesis _ shorter again) shorter)

/-- A NUL at the end of the mark matches the terminator. -/
theorem markAdvance_nul (mark : List Byte) : markAdvance mark mark.length 0 = mark.length + 1 := by
  rw [markAdvance, if_pos (by simp)]

/-! ## Runs -/

/-- No match position is past the mark. -/
def Bus.MarkInside (mark : List Byte) (b : Bus) : Prop := ∀ port, b.stopMarkPos port ≤ mark.length

/-- In the whole run the match positions stay within the mark, and nothing behind its terminator
is read. -/
def StaysInside (mark : List Byte) (b : Bus) : List SerialAccess → Prop
  | [] => b.MarkInside mark
  | access :: rest =>
    b.MarkInside mark ∧ (∀ i ∈ access.markReads b, i ≤ mark.length) ∧
      StaysInside mark (access.run b) rest

/-- Behind the output `sent`, no NUL of `later` follows the mark on its own port. -/
def NoNulAfter (mark : List Byte) (sent later : List (SccPort × Byte)) : Prop :=
  ∀ early port, early ++ [(port, 0)] <+: later → ¬ mark <:+ outputOf port (sent ++ early)

theorem noNulAfter_nil (mark : List Byte) (sent : List (SccPort × Byte)) :
    NoNulAfter mark sent [] := by
  intro early port before
  exact absurd (List.prefix_nil.mp before) (List.append_ne_nil_of_right_ne_nil _ (List.cons_ne_nil _ _))

/-- The first byte is no such NUL, and none behind it is. -/
theorem noNulAfter_cons (mark : List Byte) (sent later : List (SccPort × Byte)) (port : SccPort)
    (v : Byte) :
    NoNulAfter mark sent ((port, v) :: later) ↔
      ¬(v = 0 ∧ mark <:+ outputOf port sent) ∧ NoNulAfter mark (sent ++ [(port, v)]) later := by
  constructor
  · intro clean
    constructor
    · rintro ⟨rfl, ends⟩
      refine clean [] port (List.prefix_append [(port, 0)] later) ?_
      rwa [List.append_nil]
    · intro early other before
      rw [List.append_assoc]
      exact clean ((port, v) :: early) other (List.cons_prefix_cons.mpr ⟨rfl, before⟩)
  · rintro ⟨first, rest⟩ early other before
    cases early with
    | nil =>
      obtain ⟨same, -⟩ := List.cons_prefix_cons.mp before
      obtain ⟨rfl, rfl⟩ := Prod.mk.inj same
      rw [List.append_nil]
      exact fun ends => first ⟨rfl, ends⟩
    | cons byte early =>
      rw [List.cons_append] at before
      obtain ⟨rfl, behind⟩ := List.cons_prefix_cons.mp before
      have later := rest early other behind
      rwa [List.append_assoc] at later

/-- Each port's position is the longest match of its own output, whether or not the flag is up. -/
structure Following (mark : List Byte) (b : Bus) (sent : List (SccPort × Byte)) : Prop where
  armed : b.stopMark = some mark
  matched : ∀ port, LongestMatch mark (outputOf port sent) (b.stopMarkPos port)

namespace Following

variable {mark : List Byte} {b : Bus} {sent : List (SccPort × Byte)}

theorem inside (following : Following mark b sent) : b.MarkInside mark :=
  fun port => (following.matched port).ends.1

/-- The position behind one more byte, unless it is a NUL behind the mark. -/
theorem advanced (following : Following mark b sent) {port : SccPort} {v : Byte}
    (real : ¬(v = 0 ∧ mark <:+ outputOf port sent)) :
    LongestMatch mark (outputOf port sent ++ [v]) (markAdvance mark (b.stopMarkPos port) v) := by
  have longest := following.matched port
  refine markAdvance_follows longest.ends.1 (fun atEnd nul => ?_) longest.candidate
  exact real ⟨nul, longest.complete_iff.mp atEnd⟩

/-- One transmitted byte, unless it is a NUL behind the mark. -/
theorem transmit (following : Following mark b sent) {port : SccPort} {v : Byte}
    (real : ¬(v = 0 ∧ mark <:+ outputOf port sent)) {after : Bus}
    (watch : after.watch = (stopMarkWatch b port v).watch) :
    Following mark after (sent ++ [(port, v)]) := by
  have result : (stopMarkWatch b port v).stopMark = some mark ∧
      (stopMarkWatch b port v).stopMarkPos =
        Function.update b.stopMarkPos port (markAdvance mark (b.stopMarkPos port) v) := by
    simp only [stopMarkWatch, following.armed, and_self]
  obtain ⟨sameMark, samePos, -⟩ : after.stopMark = (stopMarkWatch b port v).stopMark ∧
      after.stopMarkPos = (stopMarkWatch b port v).stopMarkPos ∧
      after.stop = (stopMarkWatch b port v).stop := by
    simpa [Bus.watch] using watch
  refine ⟨sameMark.trans result.1, fun other => ?_⟩
  rw [samePos, result.2]
  by_cases same : other = port
  · subst same
    rw [Function.update_self, outputOf_append_same]
    exact following.advanced real
  · rw [Function.update_of_ne same, outputOf_append_other (Ne.symm same)]
    exact following.matched other

/-- The run stays inside the mark exactly if no NUL follows the mark. -/
theorem staysInside_iff (following : Following mark b sent) (accesses : List SerialAccess) :
    StaysInside mark b accesses ↔ NoNulAfter mark sent (transmissions b accesses) := by
  induction accesses generalizing b sent with
  | nil => exact iff_of_true following.inside (noNulAfter_nil mark sent)
  | cons access rest inductionHypothesis =>
    have watch := access.run_watch b
    rw [StaysInside, transmissions, SerialAccess.markReads]
    cases transmitted : access.transmits b with
    | none =>
      rw [transmitted] at watch
      obtain ⟨sameMark, samePos, -⟩ : (access.run b).stopMark = b.stopMark ∧
          (access.run b).stopMarkPos = b.stopMarkPos ∧ (access.run b).stop = b.stop := by
        simpa [Bus.watch] using watch
      have still : Following mark (access.run b) sent :=
        ⟨sameMark.trans following.armed, samePos ▸ following.matched⟩
      rw [inductionHypothesis still]
      exact ⟨fun whole => whole.2.2, fun clean => ⟨following.inside, List.forall_mem_nil _, clean⟩⟩
    | some byte =>
      obtain ⟨port, v⟩ := byte
      rw [transmitted] at watch
      rw [Option.toList_some, List.singleton_append, noNulAfter_cons]
      have longest := following.matched port
      simp only [stopMarkWatchReads, following.armed]
      by_cases real : ¬(v = 0 ∧ mark <:+ outputOf port sent)
      · have after := following.transmit real watch
        have reads : ∀ i ∈ markAdvanceReads mark (b.stopMarkPos port) v ++
            [markAdvance mark (b.stopMarkPos port) v], i ≤ mark.length := by
          intro i read
          rcases List.mem_append.mp read with inner | outer
          · exact (markAdvanceReads_le inner).trans longest.ends.1
          · rw [List.mem_singleton.mp outer]
            exact (following.advanced real).ends.1
        rw [inductionHypothesis after]
        exact ⟨fun whole => ⟨real, whole.2.2⟩, fun clean => ⟨following.inside, reads, clean.2⟩⟩
      · obtain ⟨rfl, ends⟩ := not_not.mp real
        have atEnd := longest.complete_iff.mpr ends
        refine iff_of_false (fun whole => ?_) fun clean => real clean.1
        have past := whole.2.1 (markAdvance mark (b.stopMarkPos port) 0)
          (List.mem_append_right _ (List.mem_singleton_self _))
        rw [atEnd, markAdvance_nul] at past
        exact absurd past (Nat.not_succ_le_self _)

end Following

/-- The match positions stay within the mark, and nothing behind its terminator is read, exactly if
no NUL follows the mark on its own port: for every mark and every order of accesses. -/
theorem serialRun_staysInside_iff {mark : List Byte} {b : Bus} (armed : b.stopMark = some mark)
    (fresh : ∀ port, b.stopMarkPos port = 0) (accesses : List SerialAccess) :
    StaysInside mark b accesses ↔ NoNulAfter mark [] (transmissions b accesses) := by
  have following : Following mark b [] := by
    refine ⟨armed, fun port => ?_⟩
    rw [fresh port]
    exact LongestMatch.start
  exact following.staysInside_iff accesses

/-- OTIRB of an `A` and a NUL to the console, with `A` for a mark. -/
def nulBehindMark : Machine :=
  { (default : Machine) with
    cpu := { (default : Cpu) with
      fcw := 0x4000, R := fun r => if r = 1 then 0x80 else if r = 2 then 0x0110 else 2 }
    bus := { (default : Bus) with
      rom := fun a => if a = 0x80 then 0x41 else [0x3A, 0x12, 0x03, 0x20].getD a.toNat 0
      stopMark := some [0x41] } }

/-- The two bytes of the instruction, as accesses. -/
def nulBehindMarkAccesses : List SerialAccess := [.write 0 0 false 8 0x41, .write 1 0 false 8 0]

/-- One step of the guest takes the position past the terminator of the mark. -/
theorem nulBehindMark_past :
    ((cpuStep none 2 nulBehindMark).map fun m => (m.bus.sent 0, m.bus.stopMarkPos 0)) =
        some ([0, 0x41], 2) ∧
    ¬∀ (mark : List Byte), IsMark mark → ∀ (b : Bus) (accesses : List SerialAccess),
      b.stopMark = some mark → (∀ port, b.stopMarkPos port = 0) → StaysInside mark b accesses := by
  constructor
  · decide +kernel
  · intro claimed
    have isMark : IsMark [0x41] := ⟨List.cons_ne_nil _ _, by decide⟩
    have stays := claimed [0x41] isMark nulBehindMark.bus nulBehindMarkAccesses rfl fun _ => rfl
    have past : 2 ∈ SerialAccess.markReads (SerialAccess.run nulBehindMark.bus
        (.write 0 0 false 8 0x41)) (.write 1 0 false 8 0) := by decide +kernel
    exact absurd (stays.2.2.2.1 2 past) (by decide)

/-- Without the NUL the run stays inside. -/
theorem serialRun_staysInside_iff_one :
    StaysInside [0x41] nulBehindMark.bus [.write 0 0 false 8 0x41] := by
  refine (serialRun_staysInside_iff rfl (fun _ => rfl) _).mpr ?_
  exact (noNulAfter_cons _ _ _ _ _).mpr ⟨fun nul => absurd nul.1 (by decide), noNulAfter_nil _ _⟩

end C900
