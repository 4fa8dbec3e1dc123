import C900.Logic.History

/-!
# A line sampled into a latch

A level-sensitive request line is sampled at every boundary and the sample kept in a
latch until the request is taken. `latchTaken` is the rule by which a boundary takes
it: the latch is set, the request is enabled and nothing outranks it. The line may
have dropped by then. `runEvents_next_iff` says from the boundaries alone when the latch
still holds a request: an earlier boundary has sampled the line and taken something else.
-/

/-- What a boundary sees: the line, whether it is enabled, and whether a request of
higher priority goes first. -/
structure Boundary where
  line : Bool
  enabled : Bool
  outranked : Bool
deriving DecidableEq

namespace Boundary

/-- The latch once the line is sampled. -/
def sampled (latch : Bool) (x : Boundary) : Bool := latch || (x.line && x.enabled)

/-- The boundary takes the request. -/
def takes (latch : Bool) (x : Boundary) : Bool := x.sampled latch && x.enabled && !x.outranked

/-- The latch behind the boundary. -/
def next (latch : Bool) (x : Boundary) : Bool := x.sampled latch && !x.takes latch

/-- The boundary samples the line and takes something of higher priority. -/
def Defers (x : Boundary) : Prop := x.line = true ∧ x.enabled = true ∧ x.outranked = true

/-- What stays in the latch was there before or comes from a deferring boundary. -/
theorem next_iff (latch : Bool) (x : Boundary) :
    x.next latch = true ↔ x.Defers ∨ (latch = true ∧ ¬ x.takes latch = true) := by
  obtain ⟨line, enabled, outranked⟩ := x
  unfold Defers
  cases latch <;> cases line <;> cases enabled <;> cases outranked <;> decide

/-- The latch holds a request exactly when a boundary has deferred it and none has
taken it since. -/
theorem runEvents_next_iff (events : List Boundary) :
    runEvents (fun latch x => x.next latch) false events = true ↔
      Since (fun latch x => next latch x) (fun _ x => x.Defers)
        (fun latch x => x.takes latch = true) false events := by
  induction events using List.reverseRecOn with
  | nil =>
    constructor
    · intro set
      exact absurd set Bool.false_ne_true
    · intro since
      exact absurd since (not_since_nil _ _ _ _)
  | append_singleton events last inductionHypothesis =>
    rw [runEvents_append, next_iff, since_append, inductionHypothesis]

end Boundary
