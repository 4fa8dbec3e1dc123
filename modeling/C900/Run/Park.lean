import C900.Emu.State
import C900.Logic.Halts

/-!
# The park watch

`park_step` looks at the guest once for each iteration of the run loop. It ends the run when the
guest has halted over and over without a change: exactly when the halts since the last change are
more than its budget.
-/

namespace C900

/-! ## The watch -/

def parkAwake : Quad := 100000

/-- `memcmp` of two register files. -/
instance registerFileDecidableEq : DecidableEq (Reg → Word) := fun a b =>
  decidable_of_iff (∀ r, a r = b r) funext_iff.symm

/-- What `park_step` compares of two halts. -/
structure ParkSignature where
  R : Reg → Word
  pc : Long
  fcw : Word
  tx : Quad
  inq : BitVec 32
  seq : Long
deriving DecidableEq, Inhabited

/-- `ParkWatch`. -/
structure ParkWatch where
  budget : Quad
  loops : Quad
  awake : Quad
  wasHalted : Bool
  valid : Bool
  signature : ParkSignature
deriving Inhabited

/-- `park_reset`. `default` is the zeroed record. -/
def parkReset (p : ParkWatch) : ParkWatch := { (default : ParkWatch) with budget := p.budget }

/-- `park_init`. -/
def parkInit (budget : Quad) : ParkWatch := { (default : ParkWatch) with budget := budget }

/-- The signature of a halt: `inqPos` is the position in the scripted input. -/
def parkSignature (m : Machine) (inqPos : BitVec 32) : ParkSignature where
  R := m.cpu.R
  pc := m.cpu.pc
  fcw := m.cpu.fcw
  tx := m.bus.lastTxInsn
  inq := inqPos
  seq := m.bus.promptSeq

/-- What the run's `stop_why` becomes. -/
def parkWhy : String :=
  "the guest is parked: halted, woken only by a periodic interrupt, and doing nothing when woken"

/-- The look at the guest the instant it has halted: if something moved, start over. -/
def ParkWatch.look (p : ParkWatch) (signature : ParkSignature) : ParkWatch :=
  if !p.wasHalted && !(p.valid && signature = p.signature) then
    { p with loops := 0, valid := true, signature := signature }
  else p

/-- One more iteration parked: the reason to stop when they are more than the budget. -/
def ParkWatch.park (p : ParkWatch) : Option String × ParkWatch :=
  if p.valid then
    let p := { p with loops := p.loops + 1 }
    (if p.budget < p.loops then some parkWhy else none, p)
  else (none, p)

/-- `park_step`, with the reason when it returns true. -/
def parkStep (p : ParkWatch) (m : Machine) (inqPos : BitVec 32) : Option String × ParkWatch :=
  if !m.cpu.halted then
    let p := { p with awake := p.awake + 1 }
    let p := if parkAwake < p.awake then { parkReset p with awake := p.awake } else p
    (none, { p with wasHalted := false })
  else
    let p := { p with awake := 0 }.look (parkSignature m inqPos)
    { p with wasHalted := true }.park

namespace ParkWatch

/-- The budget is a setting. -/
theorem look_budget (p : ParkWatch) (signature : ParkSignature) :
    (p.look signature).budget = p.budget := by
  unfold look
  split_ifs <;> rfl

theorem park_budget (p : ParkWatch) : p.park.2.budget = p.budget := by
  unfold park
  split_ifs <;> rfl

/-- A reason to stop has counted past the budget. -/
theorem park_ends {p : ParkWatch} (ends : p.park.1.isSome) : ∃ loops, p.budget < loops := by
  unfold park at ends
  split_ifs at ends with up
  · exact ⟨p.loops + 1, by simpa using ends⟩
  · exact absurd ends Bool.false_ne_true

end ParkWatch

/-- The watch after `n` iterations of the run loop. -/
def parkRun (budget : Quad) (seen : Nat → Machine × BitVec 32) : Nat → ParkWatch
  | 0 => parkInit budget
  | n + 1 => (parkStep (parkRun budget seen n) (seen n).1 (seen n).2).2

/-- `park_step` returns true in iteration `n`. -/
def ParkEnds (budget : Quad) (seen : Nat → Machine × BitVec 32) (n : Nat) : Prop :=
  (parkStep (parkRun budget seen n) (seen n).1 (seen n).2).1.isSome

/-- What there is to see in an iteration: nothing of a guest that is awake. -/
def parkObserved (seen : Nat → Machine × BitVec 32) (n : Nat) : Option ParkSignature :=
  if (seen n).1.cpu.halted then some (parkSignature (seen n).1 (seen n).2) else none

/-! ## The tally behind it -/

/-- The watch holds what a tally of the halts holds. -/
structure Tallies (budget : Quad) (p : ParkWatch) (t : Halts.Tally ParkSignature) : Prop where
  budget_eq : p.budget = budget
  halted : p.wasHalted = t.halted
  last : t.last = if p.valid then some p.signature else none
  loops : p.loops.toNat = t.count
  fresh : t.last = none → t.count = 0
  awake : t.last ≠ none → p.awake.toNat = t.awake ∧ t.awake ≤ parkAwake.toNat

namespace Tallies

variable {budget : Quad} {p : ParkWatch} {t : Halts.Tally ParkSignature}

theorem init (budget : Quad) : Tallies budget (parkInit budget) Halts.Tally.start where
  budget_eq := rfl
  halted := rfl
  last := rfl
  loops := rfl
  fresh _ := rfl
  awake known := absurd rfl known

/-- An iteration with the guest awake. -/
theorem awake_step (tallies : Tallies budget p t) {m : Machine} (inqPos : BitVec 32)
    (awake : m.cpu.halted = false) :
    (parkStep p m inqPos).1 = none ∧
      Tallies budget (parkStep p m inqPos).2 (t.observe parkAwake.toNat none) := by
  have step : parkStep p m inqPos = (none,
      { (if parkAwake < p.awake + 1 then { parkReset p with awake := p.awake + 1 }
          else { p with awake := p.awake + 1 } : ParkWatch) with wasHalted := false }) := by
    rw [parkStep, awake]
    rfl
  rw [step, Halts.Tally.observe]
  refine ⟨rfl, ?_⟩
  have valid := tallies.last
  have loops := tallies.loops
  have budgetKept := tallies.budget_eq
  by_cases known : t.last = none
  -- Nothing is remembered, however the awake counter wraps.
  · have count := tallies.fresh known
    have invalid : p.valid = false := by
      rw [known] at valid
      split_ifs at valid with up
      exact Bool.eq_false_iff.mpr up
    split_ifs
    · exact ⟨budgetKept, rfl, rfl, rfl, fun _ => rfl, fun known => absurd rfl known⟩
    · exact ⟨budgetKept, rfl, known, count.symm, fun _ => count,
        fun other => absurd known other⟩
    · exact ⟨budgetKept, rfl, by simp [invalid], by simp [loops, count], fun _ => rfl,
        fun known => absurd rfl known⟩
    · exact ⟨budgetKept, rfl, valid, loops, fun _ => count, fun other => absurd known other⟩
  · obtain ⟨counter, small⟩ := tallies.awake known
    have next : (p.awake + 1).toNat = t.awake + 1 := by
      rw [BitVec.toNat_add, counter]
      exact Nat.mod_eq_of_lt (Nat.lt_of_le_of_lt (Nat.succ_le_succ small) (by decide))
    have long : parkAwake < p.awake + 1 ↔ parkAwake.toNat < t.awake + 1 := by
      rw [BitVec.lt_def, next]
    rw [if_congr long rfl rfl]
    split_ifs with much
    · exact ⟨budgetKept, rfl, rfl, rfl, fun _ => rfl, fun known => absurd rfl known⟩
    · exact ⟨budgetKept, rfl, valid, loops, fun lost => absurd lost known,
        fun _ => ⟨next, Nat.not_lt.mp much⟩⟩

/-- A watch that has looked counts the iteration. -/
theorem park_step {q : ParkWatch} (budgetKept : q.budget = budget) (up : q.valid = true)
    (halted : q.wasHalted = t.halted) (last : t.last = some q.signature)
    (count : t.count = q.loops.toNat + 1) (room : t.count < 2 ^ 64)
    (awake : q.awake.toNat = t.awake) (rested : t.awake = 0) :
    (q.park.1.isSome ↔ budget.toNat < t.count) ∧ Tallies budget q.park.2 t := by
  have known : t.last ≠ none := by simp [last]
  have next : (q.loops + 1).toNat = t.count := by
    rw [BitVec.toNat_add, count]
    exact Nat.mod_eq_of_lt (count ▸ room)
  have result : q.park = (if q.budget < q.loops + 1 then some parkWhy else none,
      { q with loops := q.loops + 1 }) := by
    rw [ParkWatch.park, if_pos up]
  rw [result]
  constructor
  · have past : q.budget < q.loops + 1 ↔ budget.toNat < t.count := by
      rw [BitVec.lt_def, next, budgetKept]
    rw [← past]
    split_ifs with more
    · exact iff_of_true rfl more
    · exact iff_of_false Bool.false_ne_true more
  · exact ⟨budgetKept, halted, by rw [last, if_pos up], next, fun lost => absurd lost known,
      fun _ => ⟨awake, rested ▸ Nat.zero_le _⟩⟩

/-- An iteration with the guest halted, as long as the counter does not wrap. -/
theorem halted_step (tallies : Tallies budget p t) {m : Machine} (inqPos : BitVec 32)
    (halted : m.cpu.halted = true) (known : t.halted = true → t.last ≠ none)
    (room : t.count + 1 < 2 ^ 64) :
    let next := t.observe parkAwake.toNat (some (parkSignature m inqPos))
    ((parkStep p m inqPos).1.isSome ↔ budget.toNat < next.count) ∧
      Tallies budget (parkStep p m inqPos).2 next := by
  intro next
  let signature := parkSignature m inqPos
  have step : parkStep p m inqPos =
      ({ ({ p with awake := 0 } : ParkWatch).look signature with wasHalted := true } :
        ParkWatch).park := by
    rw [parkStep, halted]
    rfl
  have valid := tallies.last
  rw [step]
  by_cases still : t.halted = true
  · have up : p.valid = true := by
      by_contra down
      rw [if_neg down] at valid
      exact known still valid
    have look : ({ p with awake := 0 } : ParkWatch).look signature = { p with awake := 0 } := by
      rw [ParkWatch.look, tallies.halted, still]
      rfl
    have observed : next = { t with awake := 0, count := t.count + 1 } := by
      show t.observe _ _ = _
      rw [Halts.Tally.observe, if_pos still]
    rw [look, observed]
    exact park_step tallies.budget_eq up still.symm (by rw [valid, if_pos up])
      (congrArg (· + 1) tallies.loops.symm) room rfl rfl
  · have down : p.wasHalted = false := tallies.halted.trans (Bool.eq_false_iff.mpr still)
    have observed : next = ⟨some signature, 0, true,
        if t.last = some signature then t.count + 1 else 1⟩ := by
      show t.observe _ _ = _
      rw [Halts.Tally.observe, if_neg still]
    have agrees : t.last = some signature ↔ p.valid = true ∧ signature = p.signature := by
      rw [valid]
      split_ifs with up
      · exact ⟨fun same => ⟨up, (Option.some.inj same).symm⟩, fun both => congrArg some both.2.symm⟩
      · exact iff_of_false not_false fun both => up both.1
    rw [observed]
    by_cases same : p.valid = true ∧ signature = p.signature
    · have look : ({ p with awake := 0 } : ParkWatch).look signature = { p with awake := 0 } := by
        rw [ParkWatch.look, if_neg (by simp [same.1, same.2])]
      rw [look, if_pos (agrees.mpr same)]
      exact park_step tallies.budget_eq same.1 rfl (congrArg some same.2)
        (congrArg (· + 1) tallies.loops.symm) room rfl rfl
    · have look : ({ p with awake := 0 } : ParkWatch).look signature =
          { p with awake := 0, loops := 0, valid := true, signature := signature } := by
        have moved : (p.valid && decide (signature = p.signature)) = false :=
          Bool.eq_false_iff.mpr fun both => same (by simpa using both)
        rw [ParkWatch.look, down, moved]
        rfl
      rw [look, if_neg (mt agrees.mp same)]
      exact park_step tallies.budget_eq rfl rfl rfl rfl (show 1 < 2 ^ 64 by decide)
        rfl rfl

end Tallies

/-! ## Whole runs -/

section Runs

variable (budget : Quad) (seen : Nat → Machine × BitVec 32)

/-- The tally of a run. -/
def parkTally (n : Nat) : Halts.Tally ParkSignature :=
  Halts.Tally.run parkAwake.toNat (parkObserved seen) n

theorem parkStep_budget (p : ParkWatch) (m : Machine) (inqPos : BitVec 32) :
    (parkStep p m inqPos).2.budget = p.budget := by
  unfold parkStep
  split_ifs
  · exact apply_ite ParkWatch.budget _ _ _ |>.trans (ite_self _)
  · exact (ParkWatch.park_budget _).trans (ParkWatch.look_budget _ _)

theorem parkRun_budget (n : Nat) : (parkRun budget seen n).budget = budget := by
  induction n with
  | zero => rfl
  | succ n inductionHypothesis => exact (parkStep_budget _ _ _).trans inductionHypothesis

variable {budget} {seen}

theorem parkObserved_awake {n : Nat} (awake : (seen n).1.cpu.halted = false) :
    parkObserved seen n = none := by
  simp [parkObserved, awake]

theorem parkObserved_halted {n : Nat} (halted : (seen n).1.cpu.halted = true) :
    parkObserved seen n = some (parkSignature (seen n).1 (seen n).2) := by
  simp [parkObserved, halted]

/-- Behind a halt, the tally has a signature. -/
theorem parkTally_known {n : Nat} (halted : (parkTally seen n).halted = true) :
    (parkTally seen n).last ≠ none := by
  have knows := Halts.Tally.run_knows parkAwake.toNat (parkObserved seen) n
  obtain ⟨k, rfl, before⟩ := knows.halted.mp halted
  exact knows.known before

section Counting

variable (small : budget.toNat < 2 ^ 64 - 1)

include small

/-- One iteration behind a watch that has not ended the run. -/
theorem parkStep_tallies {n : Nat} (tallies : Tallies budget (parkRun budget seen n) (parkTally seen n))
    (below : (parkTally seen n).count ≤ budget.toNat) :
    (ParkEnds budget seen n ↔
        (parkObserved seen n).isSome ∧ budget.toNat < (parkTally seen (n + 1)).count) ∧
      Tallies budget (parkRun budget seen (n + 1)) (parkTally seen (n + 1)) := by
  have next : parkTally seen (n + 1) =
      (parkTally seen n).observe parkAwake.toNat (parkObserved seen n) := rfl
  cases halted : (seen n).1.cpu.halted with
  | false =>
    obtain ⟨returns, after⟩ := tallies.awake_step (seen n).2 halted
    rw [next, parkObserved_awake halted]
    refine ⟨iff_of_false ?_ fun both => absurd both.1 Bool.false_ne_true, after⟩
    rw [ParkEnds, returns]
    exact Bool.false_ne_true
  | true =>
    have room : (parkTally seen n).count + 1 < 2 ^ 64 := by omega
    obtain ⟨returns, after⟩ := tallies.halted_step (seen n).2 halted parkTally_known room
    rw [next, parkObserved_halted halted]
    exact ⟨returns.trans (and_iff_right rfl).symm, after⟩

/-- Up to its end, a run goes with its tally. -/
theorem parkRun_tallies {n : Nat} (quiet : ∀ k < n, ¬ParkEnds budget seen k) :
    Tallies budget (parkRun budget seen n) (parkTally seen n) ∧
      (parkTally seen n).count ≤ budget.toNat := by
  induction n with
  | zero => exact ⟨Tallies.init budget, Nat.zero_le _⟩
  | succ n inductionHypothesis =>
    obtain ⟨tallies, below⟩ := inductionHypothesis fun k less => quiet k (Nat.lt_succ_of_lt less)
    obtain ⟨ends, after⟩ := parkStep_tallies small tallies below
    refine ⟨after, ?_⟩
    have still := mt ends.mpr (quiet n (Nat.lt_succ_self n))
    cases observed : parkObserved seen n with
    | none =>
      have next : parkTally seen (n + 1) = (parkTally seen n).observe parkAwake.toNat none :=
        congrArg ((parkTally seen n).observe parkAwake.toNat) observed
      rw [next]
      exact (Halts.Tally.observe_awake_count _ _).trans below
    | some s =>
      rw [observed] at still
      exact Nat.not_lt.mp fun more => still ⟨rfl, more⟩

/-- As long as the run has not ended, it ends at a halt that is due. -/
theorem parkEnds_iff {n : Nat} (quiet : ∀ k < n, ¬ParkEnds budget seen k) :
    ParkEnds budget seen n ↔ (parkObserved seen n).isSome ∧
      Halts.Due (parkObserved seen) parkAwake.toNat budget.toNat n := by
  obtain ⟨tallies, below⟩ := parkRun_tallies small quiet
  rw [(parkStep_tallies small tallies below).1]
  exact and_congr_right fun halted => (Halts.Tally.due_iff halted).symm

/-- The first end is the first halt that is due. -/
theorem parkEnds_isLeast_iff (n : Nat) :
    IsLeast {k | ParkEnds budget seen k} n ↔
      IsLeast {k | Halts.Due (parkObserved seen) parkAwake.toNat budget.toNat k} n := by
  constructor
  · rintro ⟨ends, least⟩
    have quiet : ∀ k < n, ¬ParkEnds budget seen k := fun k less earlier =>
      absurd (least earlier) (Nat.not_le.mpr less)
    refine ⟨((parkEnds_iff small quiet).mp ends).2, fun k due => ?_⟩
    obtain ⟨i, before, halted, dueAt⟩ := due.at_halt
    by_contra less
    have early : i < n := Nat.lt_of_le_of_lt before (Nat.not_le.mp less)
    refine quiet i early ((parkEnds_iff small fun j below => ?_).mpr ⟨halted, dueAt⟩)
    exact quiet j (below.trans early)
  · rintro ⟨due, least⟩
    have quiet : ∀ k < n, ¬ParkEnds budget seen k := by
      intro k
      induction k using Nat.strong_induction_on with
      | h k inductionHypothesis =>
        intro less ends
        have earlier := (parkEnds_iff small fun j below =>
          inductionHypothesis j below (below.trans less)).mp ends
        exact absurd (least earlier.2) (Nat.not_le.mpr less)
    obtain ⟨i, before, halted, dueAt⟩ := due.at_halt
    obtain rfl := Nat.le_antisymm before (least dueAt)
    refine ⟨(parkEnds_iff small quiet).mpr ⟨halted, due⟩, fun k ends => ?_⟩
    exact Nat.not_lt.mp fun less => quiet k less ends

end Counting

theorem parkStep_ends {p : ParkWatch} {m : Machine} {inqPos : BitVec 32}
    (ends : (parkStep p m inqPos).1.isSome) : ∃ loops, p.budget < loops := by
  unfold parkStep at ends
  split_ifs at ends with awake
  · exact absurd ends Bool.false_ne_true
  · obtain ⟨loops, past⟩ := ParkWatch.park_ends ends
    have kept := ParkWatch.look_budget { p with awake := 0 } (parkSignature m inqPos)
    exact ⟨loops, lt_of_eq_of_lt kept.symm past⟩

/-- The largest budget is never used up. -/
theorem not_parkEnds_of_max (n : Nat) : ¬ParkEnds (BitVec.allOnes 64) seen n := by
  intro ends
  obtain ⟨loops, past⟩ := parkStep_ends ends
  rw [parkRun_budget, BitVec.lt_def, BitVec.toNat_allOnes] at past
  have bound := loops.isLt
  omega

end Runs

/-- The watch first ends a run at the first halt that is due, for every budget that the counter can
pass, and never ends that of a guest that changes within every `budget` halts, for every budget. -/
theorem parkWatch_exact (budget : Quad) (seen : Nat → Machine × BitVec 32) :
    (budget.toNat < 2 ^ 64 - 1 → ∀ n, IsLeast {k | ParkEnds budget seen k} n ↔
      IsLeast {k | Halts.Due (parkObserved seen) parkAwake.toNat budget.toNat k} n) ∧
    ((∀ i j, i ≤ j → budget.toNat ≤ Halts.haltsFrom (parkObserved seen) i j →
        ∃ k, i ≤ k ∧ k < j ∧ Halts.Changed (parkObserved seen) k) →
      ∀ n, ¬ParkEnds budget seen n) := by
  refine ⟨fun small => parkEnds_isLeast_iff small, fun changing => ?_⟩
  by_cases small : budget.toNat < 2 ^ 64 - 1
  · by_contra ended
    push Not at ended
    classical
    have ends := Nat.find_spec ended
    have first : IsLeast {k | ParkEnds budget seen k} (Nat.find ended) :=
      ⟨ends, fun k earlier => Nat.find_min' ended earlier⟩
    have due := ((parkEnds_isLeast_iff small _).mp first).1
    exact Halts.not_due_of_changing changing due
  · have bound := budget.isLt
    have largest : budget = BitVec.allOnes 64 := by
      apply BitVec.eq_of_toNat_eq
      rw [BitVec.toNat_allOnes]
      omega
    rw [largest]
    exact not_parkEnds_of_max

/-- A guest that has halted for good. -/
def haltedForGood : Nat → Machine × BitVec 32 :=
  fun _ => ({ (default : Machine) with cpu := { (default : Cpu) with halted := true } }, 0)

/-- With the largest budget the guest is due, and the counter wraps instead of passing it. -/
theorem haltedForGood_neverEnds :
    (IsLeast {k | Halts.Due (parkObserved haltedForGood) parkAwake.toNat
        (BitVec.allOnes 64).toNat k} (2 ^ 64 - 1) ∧
      ∀ n, ¬ParkEnds (BitVec.allOnes 64) haltedForGood n) ∧
    ¬∀ (budget : Quad) (seen : Nat → Machine × BitVec 32) (n : Nat),
      IsLeast {k | ParkEnds budget seen k} n ↔
        IsLeast {k | Halts.Due (parkObserved seen) parkAwake.toNat budget.toNat k} n := by
  have due : IsLeast {k | Halts.Due (parkObserved haltedForGood) parkAwake.toNat
      (BitVec.allOnes 64).toNat k} (2 ^ 64 - 1) := by
    have always : ∀ k, (parkObserved haltedForGood k).isSome := fun _ => rfl
    simp only [Halts.due_iff_of_halted always, BitVec.toNat_allOnes]
    exact ⟨by simp, fun k more => by simp at more; omega⟩
  refine ⟨⟨due, not_parkEnds_of_max⟩, fun claimed => ?_⟩
  exact not_parkEnds_of_max _ ((claimed _ _ _).mpr due).1

/-- The budget of a real run. -/
def parkLoops : Quad := 500000000

/-- A guest that has halted for good is ended with the halt that exceeds the budget of a real run. -/
theorem parkWatch_exact_haltedForGood :
    IsLeast {k | ParkEnds parkLoops haltedForGood k} 500000000 := by
  refine ((parkWatch_exact parkLoops haltedForGood).1 (by decide) _).mpr ?_
  have always : ∀ k, (parkObserved haltedForGood k).isSome := fun _ => rfl
  simp only [Halts.due_iff_of_halted always]
  exact ⟨by decide, fun k more => by simp [parkLoops] at more; omega⟩

end C900
