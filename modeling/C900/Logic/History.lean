import Mathlib.Data.List.Induction
import Mathlib.Tactic.Common

/-!
# What is seen along a run

A run is a list of events applied to a state. `observed` lists what the events
show, `Since` says that something has happened since the last event of another
kind, and `Delivery` is the account of a receiver with room for one item: what
it took, what was read from it, what waits in it and what it lost.
-/

universe u v w

variable {State : Type u} {Event : Type v} {Seen : Type w}

/-- The state after a list of events. -/
def runEvents (step : State → Event → State) (state : State) (events : List Event) : State :=
  events.foldl step state

/-- What a list of events shows, oldest first. -/
def observed (step : State → Event → State) (see : State → Event → Option Seen) :
    State → List Event → List Seen
  | _, [] => []
  | state, event :: rest => (see state event).toList ++ observed step see (step state event) rest

/-- An event of the first kind has happened, and none of the second kind after
it. -/
def Since (step : State → Event → State) (sets clears : State → Event → Prop) (state : State)
    (events : List Event) : Prop :=
  ∃ before event after, events = before ++ event :: after ∧
    sets (runEvents step state before) event ∧
    ∀ middle later rest, after = middle ++ later :: rest →
      ¬ clears (runEvents step state (before ++ event :: middle)) later

section Runs

variable (step : State → Event → State) (see : State → Event → Option Seen)
  (sets clears : State → Event → Prop)

@[simp] theorem runEvents_nil (state : State) : runEvents step state [] = state := rfl

theorem runEvents_append (state : State) (events : List Event) (event : Event) :
    runEvents step state (events ++ [event]) = step (runEvents step state events) event := by
  simp [runEvents]

theorem observed_append (state : State) (events : List Event) (event : Event) :
    observed step see state (events ++ [event]) =
      observed step see state events ++ (see (runEvents step state events) event).toList := by
  induction events generalizing state with
  | nil => simp [observed]
  | cons first rest inductionHypothesis =>
    rw [List.cons_append, observed, observed, inductionHypothesis, List.append_assoc]
    rfl

theorem not_since_nil (state : State) : ¬ Since step sets clears state [] := by
  rintro ⟨before, event, after, parts, -⟩
  exact absurd parts.symm (List.append_ne_nil_of_right_ne_nil _ (List.cons_ne_nil _ _))

/-- One more event: it sets, or it was set before and the event does not clear. -/
theorem since_append (state : State) (events : List Event) (last : Event) :
    Since step sets clears state (events ++ [last]) ↔
      sets (runEvents step state events) last ∨
        (Since step sets clears state events ∧
          ¬ clears (runEvents step state events) last) := by
  constructor
  · rintro ⟨before, event, after, parts, set, kept⟩
    induction after using List.reverseRecOn with
    | nil =>
      obtain ⟨rfl, same⟩ := List.append_inj' parts rfl
      obtain rfl := List.singleton_inj.mp same
      exact Or.inl set
    | append_singleton after final _ =>
      rw [← List.cons_append, ← List.append_assoc] at parts
      obtain ⟨rfl, same⟩ := List.append_inj' parts rfl
      obtain rfl := List.singleton_inj.mp same
      refine Or.inr ⟨⟨before, event, after, rfl, set, ?_⟩, kept after last [] rfl⟩
      rintro middle later rest rfl
      exact kept middle later (rest ++ [last]) (by simp)
  · rintro (set | ⟨⟨before, event, after, rfl, set, kept⟩, notCleared⟩)
    · refine ⟨events, last, [], rfl, set, ?_⟩
      intro middle later rest parts
      exact absurd parts.symm (List.append_ne_nil_of_right_ne_nil _ (List.cons_ne_nil _ _))
    · refine ⟨before, event, after ++ [last], by simp, set, ?_⟩
      intro middle later rest parts
      induction rest using List.reverseRecOn with
      | nil =>
        obtain ⟨rfl, same⟩ := List.append_inj' parts rfl
        obtain rfl := List.singleton_inj.mp same
        exact notCleared
      | append_singleton rest final _ =>
        rw [← List.cons_append, ← List.append_assoc] at parts
        exact kept middle later rest (List.append_inj' parts rfl).1

end Runs

/-! ## What holds at every step -/

/-- The property holds of every state of a run and the event that comes to it. -/
def EachStep (step : State → Event → State) (property : State → Event → Prop) :
    State → List Event → Prop
  | _, [] => True
  | state, event :: rest =>
    property state event ∧ EachStep step property (step state event) rest

/-- Where a condition keeps an invariant and decides a property of each step, it decides
the property along whole runs. -/
theorem EachStep.iff_of_invariant {step : State → Event → State}
    {assumed property condition : State → Event → Prop} {invariant : State → Prop}
    (keeps : ∀ {state event}, invariant state → assumed state event → condition state event →
      property state event ∧ invariant (step state event))
    (needs : ∀ {state event}, invariant state → assumed state event → property state event →
      condition state event)
    {state : State} {events : List Event} (start : invariant state)
    (holds : EachStep step assumed state events) :
    EachStep step property state events ↔ EachStep step condition state events := by
  induction events generalizing state with
  | nil => exact Iff.rfl
  | cons event rest inductionHypothesis =>
    constructor
    · rintro ⟨now, later⟩
      have conditional := needs start holds.1 now
      have next := (keeps start holds.1 conditional).2
      exact ⟨conditional, (inductionHypothesis next holds.2).mp later⟩
    · rintro ⟨conditional, later⟩
      obtain ⟨now, next⟩ := keeps start holds.1 conditional
      exact ⟨now, (inductionHypothesis next holds.2).mpr later⟩

/-! ## The account of a one-item receiver -/

/-- What was read and what waits are a subsequence of what was taken, and the
rest of what was taken is lost. -/
structure Delivery {Item : Type u} (taken read : List Item) (waiting : Option Item)
    (lost : Nat) : Prop where
  inOrder : (read ++ waiting.toList).Sublist taken
  account : taken.length = (read ++ waiting.toList).length + lost

namespace Delivery

variable {Item : Type u} {taken read : List Item} {waiting : Option Item} {old : Item}
  {lost : Nat}

theorem start : Delivery ([] : List Item) [] none 0 := ⟨List.Sublist.refl _, rfl⟩

/-- An item comes into the empty receiver. -/
theorem arrive (delivery : Delivery taken read none lost) (item : Item) :
    Delivery (taken ++ [item]) read (some item) lost := by
  obtain ⟨inOrder, account⟩ := delivery
  rw [Option.toList_none, List.append_nil] at inOrder account
  refine ⟨inOrder.append (List.Sublist.refl _), ?_⟩
  simp only [List.length_append, Option.toList_some, List.length_singleton]
  omega

/-- An item comes over one that has not been read. -/
theorem overwrite (delivery : Delivery taken read (some old) lost) (item : Item) :
    Delivery (taken ++ [item]) read (some item) (lost + 1) := by
  obtain ⟨inOrder, account⟩ := delivery
  refine ⟨((List.sublist_append_left _ _).trans inOrder).append (List.Sublist.refl _), ?_⟩
  simp only [List.length_append, Option.toList_some, List.length_singleton] at account ⊢
  omega

/-- The waiting item is read. -/
theorem consume (delivery : Delivery taken read waiting lost) :
    Delivery taken (read ++ waiting.toList) none lost := by
  obtain ⟨inOrder, account⟩ := delivery
  exact ⟨by simpa using inOrder, by simpa using account⟩

/-- What was read is a subsequence of what was taken. -/
theorem read_sublist (delivery : Delivery taken read waiting lost) : read.Sublist taken :=
  (List.sublist_append_left _ _).trans delivery.inOrder

/-- Where nothing is lost, everything taken was read or waits. -/
theorem lossless (delivery : Delivery taken read waiting 0) : taken = read ++ waiting.toList :=
  (delivery.inOrder.eq_of_length delivery.account.symm).symm

end Delivery
