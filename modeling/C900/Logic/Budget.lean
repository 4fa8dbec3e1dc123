import Mathlib.Tactic.Common

/-!
# Events of a run within a budget

A run takes steps while its state is live, at most as many as the budget allows. `Within`
says that one of these steps begins with an event.
-/

universe u

variable {State : Type u}

/-- A run of at most so many steps, each from a live state, comes to a step that begins with
the event. -/
inductive Within (step : State → Option State) (live event : State → Prop) :
    Nat → State → Prop where
  | now {n s} (alive : live s) (happens : event s) : Within step live event (n + 1) s
  | later {n s t} (alive : live s) (next : step s = some t)
      (within : Within step live event n t) : Within step live event (n + 1) s

namespace Within

variable {step : State → Option State} {live event : State → Prop} {n : Nat} {s t : State}

/-- Nothing happens without a budget. -/
theorem not_zero : ¬Within step live event 0 s := nofun

/-- Nothing happens to a run that has ended. -/
theorem not_dead (dead : ¬live s) : ¬Within step live event n s := by
  intro within
  cases within with
  | now alive => exact dead alive
  | later alive => exact dead alive

/-- A weaker event. -/
theorem imp {weaker : State → Prop} (implied : ∀ s, event s → weaker s)
    (within : Within step live event n s) : Within step live weaker n s := by
  induction within with
  | now alive happens => exact now alive (implied _ happens)
  | later alive next _ inductionHypothesis => exact later alive next inductionHypothesis

/-- The first step of a run that goes on without the event. -/
theorem next_iff (alive : live s) (not : ¬event s) (next : step s = some t) :
    Within step live event (n + 1) s ↔ Within step live event n t := by
  constructor
  · intro within
    cases within with
    | now _ happens => exact absurd happens not
    | later _ went within =>
      obtain rfl := Option.some.inj (next.symm.trans went)
      exact within
  · exact later alive next

/-- A run that stops in its first step. -/
theorem not_stuck (not : ¬event s) (stuck : step s = none) :
    ¬Within step live event n s := by
  intro within
  cases within with
  | now _ happens => exact not happens
  | later _ went => exact absurd (stuck.symm.trans went) nofun

/-- A budgeted run can be followed. -/
instance decidable (step : State → Option State) (live event : State → Prop)
    [DecidablePred live] [DecidablePred event] :
    (n : Nat) → (s : State) → Decidable (Within step live event n s)
  | 0, _ => isFalse not_zero
  | n + 1, s =>
    if alive : live s then
      if happens : event s then isTrue (now alive happens)
      else
        match next : step s with
        | none => isFalse (not_stuck happens next)
        | some t =>
          @decidable_of_iff _ _ (next_iff alive happens next).symm (decidable step live event n t)
    else isFalse (not_dead alive)

end Within
