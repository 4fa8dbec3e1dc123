import C900.Logic.History

/-!
# A part that other events do not reach

Some events are addressed to a part of the state. The part is separate when every other
event leaves it alone and shows nothing of it, and an event addressed to it takes and
shows what the part alone determines. A run then does to a separate part, and shows of
it, what the events addressed to it would alone.
-/

universe u v w

/-- The part of a good state that the events of `mine` are addressed to is separate. -/
structure Separate {State : Type u} {Event : Type v} {Seen : Type w} {Part : Type*}
    (step : State → Event → State) (see : State → Event → Option Seen) (good : State → Prop)
    (part : State → Part) (mine : Event → Bool) : Prop where
  kept : ∀ {s} e, good s → good (step s e)
  silent : ∀ {s e}, good s → mine e = false → part (step s e) = part s ∧ see s e = none
  own : ∀ {s t e}, good s → good t → mine e = true → part s = part t →
    part (step s e) = part (step t e) ∧ see s e = see t e

namespace Separate

variable {State : Type u} {Event : Type v} {Seen : Type w} {Part : Type*}
  {step : State → Event → State} {see : State → Event → Option Seen} {good : State → Prop}
  {part : State → Part} {mine : Event → Bool} {s t : State}

/-- The events of other parts can be left out of a run. -/
theorem purge (separate : Separate step see good part mine) (first : good s) (second : good t)
    (same : part s = part t) (events : List Event) :
    part (runEvents step s events) = part (runEvents step t (events.filter mine)) ∧
      observed step see s events = observed step see t (events.filter mine) := by
  induction events generalizing s t with
  | nil => exact ⟨same, rfl⟩
  | cons e rest inductionHypothesis =>
    cases address : mine e with
    | false =>
      obtain ⟨unchanged, nothing⟩ := separate.silent first address
      rw [List.filter_cons_of_neg (by rw [address]; exact Bool.false_ne_true), observed, nothing]
      exact inductionHypothesis (separate.kept e first) second (unchanged.trans same)
    | true =>
      obtain ⟨after, shown⟩ := separate.own first second address same
      rw [List.filter_cons_of_pos address, observed, observed, shown]
      obtain ⟨parts, seen⟩ :=
        inductionHypothesis (separate.kept e first) (separate.kept e second) after
      exact ⟨parts, congrArg (_ ++ ·) seen⟩

/-- The part of a run is the part of the run of its own events. -/
theorem run (separate : Separate step see good part mine) (start : good s)
    (events : List Event) :
    part (runEvents step s events) = part (runEvents step s (events.filter mine)) ∧
      observed step see s events = observed step see s (events.filter mine) :=
  separate.purge start start rfl events

end Separate
