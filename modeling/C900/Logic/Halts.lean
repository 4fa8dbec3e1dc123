import Mathlib.Data.Nat.Count
import Mathlib.Order.Bounds.Basic

/-!
# Halts between restarts

A process is observed over and over: `none` while it runs, a signature of its state while it is
halted. A tally of the halts that starts anew whenever the process is seen to have moved counts
exactly the halts since then.
-/

universe u

namespace Halts

/-- The last place before `n` that has a property. -/
structure Latest (P : Nat → Prop) (n i : Nat) : Prop where
  before : i < n
  holds : P i
  last : ∀ k, i < k → k < n → ¬P k

namespace Latest

variable {P : Nat → Prop} {n i j : Nat}

theorem now (holds : P n) : Latest P (n + 1) n := by
  refine ⟨Nat.lt_succ_self n, holds, fun k above below => ?_⟩
  exact absurd (Nat.le_of_lt_succ below) (Nat.not_le.mpr above)

theorem succ (latest : Latest P n i) (other : ¬P n) : Latest P (n + 1) i := by
  refine ⟨Nat.lt_succ_of_lt latest.before, latest.holds, fun k above below => ?_⟩
  rcases Nat.lt_succ_iff_lt_or_eq.mp below with less | rfl
  · exact latest.last k above less
  · exact other

theorem unique (first : Latest P n i) (second : Latest P n j) : i = j := by
  rcases Nat.lt_trichotomy i j with less | same | more
  · exact absurd second.holds (first.last j less second.before)
  · exact same
  · exact absurd first.holds (second.last i more first.before)

end Latest

section Observations

variable {Signature : Type u} (obs : Nat → Option Signature)

/-- The length of the awake stretch right before the observation `n`. -/
def awakeBefore : Nat → Nat
  | 0 => 0
  | n + 1 => if (obs n).isSome then 0 else awakeBefore n + 1

/-- The process is halted, and was awake one observation before or was not observed. -/
structure IsEntry (n : Nat) : Prop where
  halted : (obs n).isSome
  fresh : ∀ k, n = k + 1 → obs k = none

/-- An entry with a signature other than that of the entry before it. -/
def Changed (n : Nat) : Prop :=
  IsEntry obs n ∧ ∃ e, Latest (IsEntry obs) n e ∧ obs n ≠ obs e

/-- The first halt of all. -/
def FirstHalt (n : Nat) : Prop :=
  (obs n).isSome ∧ ∀ k < n, obs k = none

/-- The first halt after an awake stretch of more than `limit` observations. -/
def AfterAwake (limit n : Nat) : Prop :=
  (obs n).isSome ∧ limit < awakeBefore obs n

/-- The tally of halts starts anew with the observation `n`. -/
def Restart (limit n : Nat) : Prop :=
  FirstHalt obs n ∨ Changed obs n ∨ AfterAwake obs limit n

/-- The halts from the observation `r` on and before the observation `n`. -/
def haltsFrom (r n : Nat) : Nat :=
  n.count fun k => r ≤ k ∧ (obs k).isSome

/-- With the observation `n`, there are more than `budget` halts since the last restart, which
counts as one. -/
def Due (limit budget n : Nat) : Prop :=
  ∃ r, Latest (Restart obs limit) (n + 1) r ∧ budget < haltsFrom obs r (n + 1)

end Observations

section Lemmas

variable {Signature : Type u} {obs : Nat → Option Signature} {limit n e r : Nat}

theorem Restart.halted (restart : Restart obs limit n) : (obs n).isSome := by
  obtain first | changed | after := restart
  · exact first.1
  · exact changed.1.halted
  · exact after.1

theorem awakeBefore_awake (awake : obs n = none) :
    awakeBefore obs (n + 1) = awakeBefore obs n + 1 := by
  simp [awakeBefore, awake]

theorem awakeBefore_halted (halted : (obs n).isSome) : awakeBefore obs (n + 1) = 0 := by
  simp [awakeBefore, halted]

theorem haltsFrom_succ (obs : Nat → Option Signature) (r n : Nat) :
    haltsFrom obs r (n + 1) = haltsFrom obs r n + if r ≤ n ∧ (obs n).isSome then 1 else 0 :=
  Nat.count_succ _ n

theorem haltsFrom_awake (awake : obs n = none) : haltsFrom obs r (n + 1) = haltsFrom obs r n := by
  simp [haltsFrom_succ, awake]

theorem haltsFrom_halted (halted : (obs n).isSome) (before : r < n) :
    haltsFrom obs r (n + 1) = haltsFrom obs r n + 1 := by
  rw [haltsFrom_succ, if_pos ⟨Nat.le_of_lt before, halted⟩]

/-- Nothing is counted before the count begins. -/
theorem haltsFrom_self (obs : Nat → Option Signature) (n : Nat) : haltsFrom obs n n = 0 := by
  refine Nat.count_of_forall_not ?_
  rintro k below ⟨above, -⟩
  exact absurd below (Nat.not_lt.mpr above)

/-- The restart itself is counted. -/
theorem haltsFrom_now (halted : (obs n).isSome) : haltsFrom obs n (n + 1) = 1 := by
  rw [haltsFrom_succ, haltsFrom_self, if_pos ⟨Nat.le_refl n, halted⟩]

/-- Leaving out one observation leaves out one halt at most. -/
theorem haltsFrom_le_succ (obs : Nat → Option Signature) (r n : Nat) :
    haltsFrom obs r n ≤ haltsFrom obs (r + 1) n + 1 := by
  induction n with
  | zero => exact Nat.zero_le _
  | succ n inductionHypothesis =>
    rw [haltsFrom_succ, haltsFrom_succ]
    rcases Nat.lt_trichotomy r n with less | rfl | more
    · have shown : (r ≤ n ∧ (obs n).isSome) ↔ (r + 1 ≤ n ∧ (obs n).isSome) :=
        and_congr_left' (iff_of_true (Nat.le_of_lt less) less)
      rw [if_congr shown rfl rfl]
      omega
    · rw [haltsFrom_self]
      split <;> omega
    · rw [if_neg (fun counted => absurd counted.1 (Nat.not_le.mpr more))]
      omega

/-- A process that changes within every `budget` halts is never due. -/
theorem not_due_of_changing {budget : Nat}
    (changing : ∀ i j, i ≤ j → budget ≤ haltsFrom obs i j → ∃ k, i ≤ k ∧ k < j ∧ Changed obs k) :
    ¬Due obs limit budget n := by
  rintro ⟨r, latest, counted⟩
  have behind := haltsFrom_le_succ obs r (n + 1)
  obtain ⟨k, above, below, changed⟩ := changing (r + 1) (n + 1) latest.before (by omega)
  exact latest.last k above below (.inr (.inl changed))

/-- Who is due has been due at a halt. -/
theorem Due.at_halt {budget : Nat} (due : Due obs limit budget n) :
    ∃ i ≤ n, (obs i).isSome ∧ Due obs limit budget i := by
  induction n with
  | zero =>
    obtain ⟨r, latest, counted⟩ := due
    obtain rfl := Nat.lt_one_iff.mp latest.before
    exact ⟨0, Nat.le_refl 0, latest.holds.halted, 0, latest, counted⟩
  | succ n inductionHypothesis =>
    by_cases halted : (obs (n + 1)).isSome
    · exact ⟨n + 1, Nat.le_refl _, halted, due⟩
    · obtain ⟨r, latest, counted⟩ := due
      have awake : obs (n + 1) = none := Option.not_isSome_iff_eq_none.mp halted
      have other : r ≠ n + 1 := fun same => halted (same ▸ latest.holds.halted)
      have before : r < n + 1 := Nat.lt_of_le_of_ne (Nat.le_of_lt_succ latest.before) other
      rw [haltsFrom_awake awake] at counted
      have earlier : Due obs limit budget n :=
        ⟨r, ⟨before, latest.holds, fun k above below => latest.last k above (Nat.lt_succ_of_lt below)⟩,
          counted⟩
      obtain ⟨i, below, found⟩ := inductionHypothesis earlier
      exact ⟨i, Nat.le_succ_of_le below, found⟩

/-- A process that never wakes up is due as soon as there are more observations than `budget`. -/
theorem due_iff_of_halted {budget : Nat} (always : ∀ k, (obs k).isSome) :
    Due obs limit budget n ↔ budget < n + 1 := by
  have first : Restart obs limit 0 := .inl ⟨always 0, nofun⟩
  have latest : Latest (Restart obs limit) (n + 1) 0 := by
    refine ⟨Nat.succ_pos n, first, fun k above _ => ?_⟩
    obtain ⟨k, rfl⟩ := Nat.exists_eq_add_of_lt above
    have stood : obs (0 + k) ≠ none := Option.isSome_iff_ne_none.mp (always _)
    rintro (first | changed | after)
    · exact stood (first.2 _ (Nat.lt_succ_self _))
    · exact stood (changed.1.fresh _ rfl)
    · rw [AfterAwake, awakeBefore_halted (always _)] at after
      exact absurd after.2 (Nat.not_lt_zero _)
  have count : haltsFrom obs 0 (n + 1) = n + 1 :=
    Nat.count_iff_forall.mpr fun k _ => ⟨Nat.zero_le k, always k⟩
  constructor
  · rintro ⟨r, latest', counted⟩
    obtain rfl := latest'.unique latest
    rwa [count] at counted
  · exact fun more => ⟨0, latest, by rwa [count]⟩

end Lemmas

/-! ## The tally -/

/-- A tally of the halts: the signature of the last entry, until a long awake stretch makes it
forgotten, and the halts since the restart. -/
structure Tally (Signature : Type u) where
  last : Option Signature
  awake : Nat
  halted : Bool
  count : Nat

namespace Tally

variable {Signature : Type u}

/-- Nothing has been observed. -/
def start : Tally Signature := ⟨none, 0, false, 0⟩

/-- One more observation. -/
def observe [DecidableEq Signature] (limit : Nat) (t : Tally Signature) :
    Option Signature → Tally Signature
  | none =>
    if limit < t.awake + 1 then ⟨none, t.awake + 1, false, 0⟩
    else { t with awake := t.awake + 1, halted := false }
  | some s =>
    if t.halted then { t with awake := 0, count := t.count + 1 }
    else ⟨some s, 0, true, if t.last = some s then t.count + 1 else 1⟩

/-- The tally after `n` observations. -/
def run [DecidableEq Signature] (limit : Nat) (obs : Nat → Option Signature) :
    Nat → Tally Signature
  | 0 => start
  | n + 1 => (run limit obs n).observe limit (obs n)

theorem observe_awake_count [DecidableEq Signature] (limit : Nat) (t : Tally Signature) :
    (t.observe limit none).count ≤ t.count := by
  rw [observe]
  split_ifs
  · exact Nat.zero_le _
  · exact Nat.le_refl _

/-- What a tally of `n` observations knows. -/
structure Knows (limit : Nat) (obs : Nat → Option Signature) (n : Nat) (t : Tally Signature) :
    Prop where
  awake : t.awake = awakeBefore obs n
  halted : t.halted = true ↔ ∃ k, n = k + 1 ∧ (obs k).isSome
  forgotten : t.last = none → (∀ k < n, obs k = none) ∨ limit < awakeBefore obs n
  awake_le : t.last ≠ none → awakeBefore obs n ≤ limit
  entry : ∀ s, t.last = some s → ∃ e, Latest (IsEntry obs) n e ∧ obs e = some s
  counted : t.last ≠ none → ∃ r, Latest (Restart obs limit) n r ∧ t.count = haltsFrom obs r n

namespace Knows

variable {limit n : Nat} {obs : Nat → Option Signature} {t : Tally Signature}

theorem start : Knows limit obs 0 (start : Tally Signature) where
  awake := rfl
  halted := ⟨fun up => absurd up Bool.false_ne_true, nofun⟩
  forgotten _ := .inl nofun
  awake_le known := absurd rfl known
  entry _ known := absurd known nofun
  counted known := absurd rfl known

/-- Behind a halt there is a signature. -/
theorem known (knows : Knows limit obs (n + 1) t) (halted : (obs n).isSome) : t.last ≠ none := by
  intro lost
  obtain all | long := knows.forgotten lost
  · exact Option.isSome_iff_ne_none.mp halted (all n (Nat.lt_succ_self n))
  · rw [awakeBefore_halted halted] at long
    exact absurd long (Nat.not_lt_zero _)

variable [DecidableEq Signature]

/-- The process is awake. -/
theorem observe_awake (knows : Knows limit obs n t) (awake : obs n = none) :
    Knows limit obs (n + 1) (t.observe limit none) := by
  have notHalted : ¬(obs n).isSome := by simp [awake]
  have notEntry : ¬IsEntry obs n := fun entry => notHalted entry.halted
  have notRestart : ¬Restart obs limit n := fun restart => notHalted restart.halted
  have stretch := awakeBefore_awake awake
  have gone : false = true ↔ ∃ k, n + 1 = k + 1 ∧ (obs k).isSome := by
    refine iff_of_false Bool.false_ne_true ?_
    rintro ⟨k, same, halted⟩
    obtain rfl := Nat.succ.inj same
    exact notHalted halted
  rw [observe]
  split_ifs with long
  · rw [knows.awake] at long
    refine ⟨?_, gone, fun _ => .inr (stretch ▸ long), fun known => absurd rfl known,
      fun _ known => absurd known nofun, fun known => absurd rfl known⟩
    rw [stretch, knows.awake]
  · rw [knows.awake] at long
    refine ⟨?_, gone, fun lost => ?_, fun _ => stretch ▸ Nat.not_lt.mp long, fun s known => ?_,
      fun known => ?_⟩
    · show t.awake + 1 = _
      rw [stretch, knows.awake]
    · obtain all | already := knows.forgotten lost
      · refine .inl fun k below => ?_
        rcases Nat.lt_succ_iff_lt_or_eq.mp below with less | rfl
        · exact all k less
        · exact awake
      · exact absurd (Nat.lt_succ_of_lt already) long
    · obtain ⟨e, latest, same⟩ := knows.entry s known
      exact ⟨e, latest.succ notEntry, same⟩
    · obtain ⟨r, latest, count⟩ := knows.counted known
      exact ⟨r, latest.succ notRestart, count.trans (haltsFrom_awake awake).symm⟩

/-- The process stays halted. -/
theorem observe_halted (knows : Knows limit obs n t) {s : Signature} (seen : obs n = some s)
    (still : t.halted = true) : Knows limit obs (n + 1) (t.observe limit (some s)) := by
  obtain ⟨k, rfl, before⟩ := knows.halted.mp still
  have stood : obs k ≠ none := Option.isSome_iff_ne_none.mp before
  have halted : (obs (k + 1)).isSome := by simp [seen]
  have awake : awakeBefore obs (k + 1) = 0 := awakeBefore_halted before
  have known := knows.known before
  have notEntry : ¬IsEntry obs (k + 1) := fun entry => stood (entry.fresh k rfl)
  have notRestart : ¬Restart obs limit (k + 1) := by
    rintro (first | changed | after)
    · exact stood (first.2 k (Nat.lt_succ_self k))
    · exact notEntry changed.1
    · have long := after.2
      omega
  rw [observe, if_pos still]
  refine ⟨(awakeBefore_halted halted).symm, iff_of_true still ⟨k + 1, rfl, halted⟩,
    fun lost => absurd lost known, fun _ => (awakeBefore_halted halted).le.trans (Nat.zero_le _),
    fun s known => ?_, fun known => ?_⟩
  · obtain ⟨e, latest, same⟩ := knows.entry s known
    exact ⟨e, latest.succ notEntry, same⟩
  · obtain ⟨r, latest, count⟩ := knows.counted known
    refine ⟨r, latest.succ notRestart, ?_⟩
    rw [haltsFrom_halted halted latest.before, ← count]

/-- The process halts. -/
theorem observe_entry (knows : Knows limit obs n t) {s : Signature} (seen : obs n = some s)
    (fresh : ¬t.halted = true) : Knows limit obs (n + 1) (t.observe limit (some s)) := by
  have halted : (obs n).isSome := by simp [seen]
  have entry : IsEntry obs n := by
    refine ⟨halted, fun k same => ?_⟩
    by_contra some
    exact fresh (knows.halted.mpr ⟨k, same, Option.isSome_iff_ne_none.mpr some⟩)
  have latest := Latest.now entry
  rw [observe, if_neg fresh]
  refine ⟨(awakeBefore_halted halted).symm, iff_of_true rfl ⟨n, rfl, halted⟩, nofun,
    fun _ => (awakeBefore_halted halted).le.trans (Nat.zero_le _), ?_, fun _ => ?_⟩
  · rintro s' ⟨⟩
    exact ⟨n, latest, seen⟩
  -- The count goes on exactly when the signature is that of the last entry.
  · by_cases same : t.last = some s
    · have known : t.last ≠ none := by simp [same]
      obtain ⟨r, restarted, count⟩ := knows.counted known
      obtain ⟨e, last, shown⟩ := knows.entry s same
      have notRestart : ¬Restart obs limit n := by
        rintro (first | ⟨-, e', last', differs⟩ | after)
        · have awake := first.2 e last.before
          rw [shown] at awake
          exact absurd awake nofun
        · obtain rfl := last.unique last'
          exact differs (seen.trans shown.symm)
        · exact absurd after.2 (Nat.not_lt.mpr (knows.awake_le known))
      refine ⟨r, restarted.succ notRestart, ?_⟩
      simp only [same, if_true]
      rw [haltsFrom_halted halted restarted.before, count]
    · have restart : Restart obs limit n := by
        cases known : t.last with
        | none =>
          obtain all | long := knows.forgotten known
          · exact .inl ⟨halted, all⟩
          · exact .inr (.inr ⟨halted, long⟩)
        | some s' =>
          obtain ⟨e, last, shown⟩ := knows.entry s' known
          refine .inr (.inl ⟨entry, e, last, fun equal => same ?_⟩)
          rw [known, ← shown, ← equal, seen]
      refine ⟨n, Latest.now restart, ?_⟩
      simp only [same, if_false]
      exact (haltsFrom_now halted).symm

theorem step (knows : Knows limit obs n t) : Knows limit obs (n + 1) (t.observe limit (obs n)) := by
  cases seen : obs n with
  | none => exact knows.observe_awake seen
  | some s =>
    by_cases still : t.halted = true
    · exact knows.observe_halted seen still
    · exact knows.observe_entry seen still

end Knows

variable [DecidableEq Signature] {limit n : Nat} {obs : Nat → Option Signature}

theorem run_knows (limit : Nat) (obs : Nat → Option Signature) (n : Nat) :
    Knows limit obs n (run limit obs n) := by
  induction n with
  | zero => exact Knows.start
  | succ n inductionHypothesis => exact inductionHypothesis.step

/-- A halt is due exactly if the tally is past the budget. -/
theorem due_iff {budget : Nat} (halted : (obs n).isSome) :
    Due obs limit budget n ↔ budget < (run limit obs (n + 1)).count := by
  have knows := run_knows limit obs (n + 1)
  obtain ⟨r, latest, count⟩ := knows.counted (knows.known halted)
  rw [count]
  constructor
  · rintro ⟨r', latest', counted⟩
    rwa [latest.unique latest']
  · exact fun counted => ⟨r, latest, counted⟩

end Tally

end Halts
