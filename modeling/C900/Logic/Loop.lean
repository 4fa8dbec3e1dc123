import Mathlib.Logic.Basic

/-!
# Counted loops

`forUpTo n body s` runs `body 0`, `body 1`, … `body (n - 1)` on the state `s`.
The rules split a loop in two, turn a loop of blocks into one loop, carry an
invariant, and relate two loops that run side by side.
-/

universe u v w

variable {State : Type u} {Other : Type v} {Third : Type w}

/-- The counted loop. -/
def forUpTo : Nat → (Nat → State → State) → State → State
  | 0, _, state => state
  | n + 1, body, state => body n (forUpTo n body state)

namespace forUpTo

@[simp] theorem zero (body : Nat → State → State) (state : State) :
    forUpTo 0 body state = state := rfl

theorem succ (n : Nat) (body : Nat → State → State) (state : State) :
    forUpTo (n + 1) body state = body n (forUpTo n body state) := rfl

/-- Run the first `m` rounds, then the other `n`. -/
theorem add (m n : Nat) (body : Nat → State → State) (state : State) :
    forUpTo (m + n) body state =
      forUpTo n (fun i => body (m + i)) (forUpTo m body state) := by
  induction n with
  | zero => rfl
  | succ n inductionHypothesis =>
    rw [← Nat.add_assoc, succ, succ, inductionHypothesis]

/-- A loop over blocks of `k` rounds is one loop. -/
theorem mul (m k : Nat) (body : Nat → State → State) (state : State) :
    forUpTo m (fun j => forUpTo k (fun i => body (j * k + i))) state =
      forUpTo (m * k) body state := by
  induction m with
  | zero => simp
  | succ m inductionHypothesis =>
    rw [succ, inductionHypothesis, Nat.succ_mul, add]

/-- An invariant that may mention the round number. -/
theorem invariant {body : Nat → State → State} {state : State} (holds : Nat → State → Prop)
    (n : Nat) (start : holds 0 state)
    (round : ∀ i s, i < n → holds i s → holds (i + 1) (body i s)) :
    holds n (forUpTo n body state) := by
  induction n with
  | zero => exact start
  | succ n inductionHypothesis =>
    refine round n _ n.lt_succ_self (inductionHypothesis fun i s small => ?_)
    exact round i s (Nat.lt_succ_of_lt small)

/-- Two loops run side by side. -/
theorem related {body : Nat → State → State} {other : Nat → Other → Other}
    {state : State} {start : Other} (related : Nat → State → Other → Prop) (n : Nat)
    (atStart : related 0 state start)
    (round : ∀ i s t, i < n → related i s t → related (i + 1) (body i s) (other i t)) :
    related n (forUpTo n body state) (forUpTo n other start) := by
  induction n with
  | zero => exact atStart
  | succ n inductionHypothesis =>
    refine round n _ _ n.lt_succ_self (inductionHypothesis fun i s t small => ?_)
    exact round i s t (Nat.lt_succ_of_lt small)

/-- Three loops run side by side. -/
theorem related₃ {body : Nat → State → State} {other : Nat → Other → Other}
    {third : Nat → Third → Third} {state : State} {start : Other} {begin : Third}
    (related : Nat → State → Other → Third → Prop) (n : Nat) (atStart : related 0 state start begin)
    (round : ∀ i s t u, i < n → related i s t u →
      related (i + 1) (body i s) (other i t) (third i u)) :
    related n (forUpTo n body state) (forUpTo n other start) (forUpTo n third begin) := by
  induction n with
  | zero => exact atStart
  | succ n inductionHypothesis =>
    refine round n _ _ _ n.lt_succ_self (inductionHypothesis fun i s t u small => ?_)
    exact round i s t u (Nat.lt_succ_of_lt small)

/-- Bodies that agree on the states of an invariant give equal loops. -/
theorem congr {body other : Nat → State → State} {state : State} (holds : State → Prop) (n : Nat)
    (start : holds state)
    (same : ∀ i s, i < n → holds s → body i s = other i s ∧ holds (body i s)) :
    forUpTo n body state = forUpTo n other state := by
  refine (forUpTo.related (fun _ s t => s = t ∧ holds s) n ⟨rfl, start⟩ ?_).1
  rintro i s t small ⟨rfl, kept⟩
  exact same i s small kept

end forUpTo

-- A loop with a literal bound must not be unrolled by the unifier.
attribute [irreducible] forUpTo
