import Mathlib.Logic.Basic

/-!
# Programs that may raise

A program on a state returns or raises. `Ends` has a postcondition for each of the two ways
out, and its rules follow the program step by step; a loop over a list is followed through an
invariant of the part of the list that it has passed.
-/

variable {ε σ α β ι : Type}

theorem EStateM.bind_ok {x : EStateM ε σ α} {s t : σ} {a : α} (ran : x s = .ok a t)
    (f : α → EStateM ε σ β) : (x >>= f) s = f a t := by
  change EStateM.bind x f s = _
  rw [EStateM.bind, ran]

theorem EStateM.bind_error {x : EStateM ε σ α} {s t : σ} {e : ε} (ran : x s = .error e t)
    (f : α → EStateM ε σ β) : (x >>= f) s = .error e t := by
  change EStateM.bind x f s = _
  rw [EStateM.bind, ran]

/-- What holds at the end of a run: `Q` after a return, `E` after an exception. -/
def EStateM.Result.Satisfies (Q : α → σ → Prop) (E : ε → σ → Prop) : EStateM.Result ε σ α → Prop
  | .ok a s => Q a s
  | .error e s => E e s

/-- The run of the program from `s` returns with `Q` or raises with `E`. -/
def Ends (x : EStateM ε σ α) (s : σ) (Q : α → σ → Prop) (E : ε → σ → Prop) : Prop :=
  (x s).Satisfies Q E

/-- No exception. -/
def noRaise : ε → σ → Prop := fun _ _ => False

namespace Ends

variable {x : EStateM ε σ α} {f : α → EStateM ε σ β} {s : σ} {Q Q' : α → σ → Prop}
  {R : β → σ → Prop} {E E' : ε → σ → Prop}

theorem value {a : α} (holds : Q a s) : Ends (pure a) s Q E := holds

theorem raise {e : ε} (holds : E e s) : Ends (throw e : EStateM ε σ α) s Q E := holds

theorem state {Q : σ → σ → Prop} (holds : Q s s) : Ends (get : EStateM ε σ σ) s Q E :=
  holds

theorem update {Q : PUnit → σ → Prop} {step : σ → σ} (holds : Q ⟨⟩ (step s)) :
    Ends (modify step : EStateM ε σ PUnit) s Q E := holds

theorem bind (first : Ends x s (fun a t => Ends (f a) t R E) E) : Ends (x >>= f) s R E := by
  change (EStateM.bind x f s).Satisfies R E
  unfold EStateM.bind
  unfold Ends at first
  cases ran : x s with
  | ok a t =>
    rw [ran] at first
    exact first
  | error e t =>
    rw [ran] at first
    exact first

theorem mono (ends : Ends x s Q E) (returned : ∀ a t, Q a t → Q' a t)
    (raised : ∀ e t, E e t → E' e t) : Ends x s Q' E' := by
  unfold Ends at ends ⊢
  cases ran : x s with
  | ok a t =>
    rw [ran] at ends
    exact returned a t ends
  | error e t =>
    rw [ran] at ends
    exact raised e t ends

theorem always (returned : ∀ a t, Q a t) (raised : ∀ e t, E e t) : Ends x s Q E := by
  unfold Ends
  cases x s with
  | ok a t => exact returned a t
  | error e t => exact raised e t

theorem and (ends : Ends x s Q E) (ends' : Ends x s Q' E') :
    Ends x s (fun a t => Q a t ∧ Q' a t) (fun e t => E e t ∧ E' e t) := by
  unfold Ends at ends ends' ⊢
  cases ran : x s with
  | ok a t =>
    rw [ran] at ends ends'
    exact ⟨ends, ends'⟩
  | error e t =>
    rw [ran] at ends ends'
    exact ⟨ends, ends'⟩

/-- A program that returns. -/
theorem of_ok {a : α} {t : σ} (ran : x s = .ok a t) (holds : Q a t) : Ends x s Q E := by
  unfold Ends
  rw [ran]
  exact holds

/-- A program that raises. -/
theorem of_error {e : ε} {t : σ} (ran : x s = .error e t) (holds : E e t) : Ends x s Q E := by
  unfold Ends
  rw [ran]
  exact holds

/-- A run that does not raise returns. -/
theorem returns (ends : Ends x s Q noRaise) : ∃ a t, x s = .ok a t ∧ Q a t := by
  unfold Ends at ends
  cases ran : x s with
  | ok a t =>
    rw [ran] at ends
    exact ⟨a, t, rfl, ends⟩
  | error e t =>
    rw [ran] at ends
    exact ends.elim

/-- A run that does not return raises. -/
theorem raises (ends : Ends x s (fun _ _ => False) E) : ∃ e t, x s = .error e t ∧ E e t := by
  unfold Ends at ends
  cases ran : x s with
  | ok a t =>
    rw [ran] at ends
    exact ends.elim
  | error e t =>
    rw [ran] at ends
    exact ⟨e, t, rfl, ends⟩

/-- A value that is at hand, or an exception. -/
theorem lifted {result : Except ε α} (returned : ∀ a, result = .ok a → Q a s)
    (raised : ∀ e, result = .error e → E e s) : Ends (ofExcept result) s Q E := by
  cases result with
  | ok a => exact returned a rfl
  | error e => exact raised e rfl

theorem ite {p : Prop} [Decidable p] {y : EStateM ε σ α} (yes : p → Ends x s Q E)
    (no : ¬ p → Ends y s Q E) : Ends (if p then x else y) s Q E := by
  by_cases holds : p
  · rw [if_pos holds]
    exact yes holds
  · rw [if_neg holds]
    exact no holds

/-- A handler goes on from the state that the exception left. -/
theorem caught {handler : ε → EStateM ε σ α}
    (body : Ends x s Q fun e t => Ends (handler e) t Q E) : Ends (tryCatch x handler) s Q E := by
  change (EStateM.tryCatch x handler s).Satisfies Q E
  unfold EStateM.tryCatch
  unfold Ends at body
  cases ran : x s with
  | ok a t =>
    rw [ran] at body
    exact body
  | error e t =>
    rw [ran] at body
    exact body

/-- A loop over a list that carries a value. -/
theorem foldlM {body : β → ι → EStateM ε σ β} (Inv : List ι → β → σ → Prop) (items : List ι)
    {start : β} (initially : Inv [] start s)
    (step : ∀ before i after value t, items = before ++ i :: after → Inv before value t →
      Ends (body value i) t (Inv (before ++ [i])) E) :
    Ends (items.foldlM body start) s (Inv items) E := by
  have run : ∀ after before value t, items = before ++ after → Inv before value t →
      Ends (after.foldlM body value) t (Inv items) E := by
    intro after
    induction after with
    | nil =>
      intro before value t split holds
      rw [List.append_nil] at split
      rw [split]
      exact Ends.value holds
    | cons i after inductionHypothesis =>
      intro before value t split holds
      rw [List.foldlM_cons]
      refine bind ((step before i after value t split holds).mono (fun next u holds' => ?_)
        fun _ _ raised => raised)
      exact inductionHypothesis (before ++ [i]) next u (by rw [split, List.append_assoc]; rfl) holds'
  exact run items [] start s rfl initially

/-- A loop over a list that carries nothing. -/
theorem forM {body : ι → EStateM ε σ PUnit} (Inv : List ι → σ → Prop) (items : List ι)
    (initially : Inv [] s)
    (step : ∀ before i after t, items = before ++ i :: after → Inv before t →
      Ends (body i) t (fun _ u => Inv (before ++ [i]) u) E) :
    Ends (items.forM body) s (fun _ t => Inv items t) E := by
  have run : ∀ after before t, items = before ++ after → Inv before t →
      Ends (after.forM body) t (fun _ u => Inv items u) E := by
    intro after
    induction after with
    | nil =>
      intro before t split holds
      rw [List.append_nil] at split
      rw [split]
      exact value holds
    | cons i after inductionHypothesis =>
      intro before t split holds
      change Ends (body i >>= fun _ => after.forM body) t _ E
      refine bind ((step before i after t split holds).mono (fun _ u holds' => ?_)
        fun _ _ raised => raised)
      exact inductionHypothesis (before ++ [i]) u (by rw [split, List.append_assoc]; rfl) holds'
  exact run items [] s rfl initially

/-- A loop over `n` numbers from `low` up. -/
theorem foldlM_range' {body : β → Nat → EStateM ε σ β} (Inv : Nat → β → σ → Prop) {low n : Nat}
    {start : β} (initially : Inv low start s)
    (step : ∀ i value t, low ≤ i → i < low + n → Inv i value t →
      Ends (body value i) t (Inv (i + 1)) E) :
    Ends ((List.range' low n).foldlM body start) s (Inv (low + n)) E := by
  induction n generalizing low start s with
  | zero => exact value initially
  | succ n inductionHypothesis =>
    rw [List.range'_succ, List.foldlM_cons]
    have later : low + (n + 1) = low + 1 + n := Nat.add_right_comm low n 1
    refine bind ((step low start s (Nat.le_refl _) (by omega) initially).mono
      (fun next t holds => ?_) fun _ _ raised => raised)
    rw [later]
    exact inductionHypothesis holds fun i value u high small =>
      step i value u (Nat.le_of_succ_le high) (later ▸ small)

/-- A loop over the numbers below `n`. -/
theorem foldlM_range {body : β → Nat → EStateM ε σ β} (Inv : Nat → β → σ → Prop) (n : Nat)
    {start : β} (initially : Inv 0 start s)
    (step : ∀ i value t, i < n → Inv i value t → Ends (body value i) t (Inv (i + 1)) E) :
    Ends ((List.range n).foldlM body start) s (Inv n) E := by
  rw [List.range_eq_range']
  have whole := foldlM_range' (E := E) (n := n) Inv initially
    fun i value t _ small => step i value t (by rwa [Nat.zero_add] at small)
  rwa [Nat.zero_add] at whole

end Ends

/-- A loop over values that are at hand, or exceptions, as a program. -/
theorem ofExcept_foldlM {body : β → ι → Except ε β} (items : List ι) (start : β) :
    (ofExcept (items.foldlM body start) : EStateM ε σ β) =
      items.foldlM (fun value i => ofExcept (body value i)) start := by
  induction items generalizing start with
  | nil => rfl
  | cons i rest inductionHypothesis =>
    rw [List.foldlM_cons, List.foldlM_cons]
    cases body start i with
    | ok next => exact inductionHypothesis next
    | error e => rfl
