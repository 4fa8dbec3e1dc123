import C900.Logic.Raising

/-!
# Programs under a guard

Some properties of a run hold where nothing went wrong in it, which its last state can tell, since
the state records what happened. A guard is such a condition on a state: it holds all along a run
at whose end it holds. What a program that returns leaves under a guard follows step by step.
-/

variable {ε σ α β ι : Type}

/-- A condition on states that held before if it holds now. -/
structure Guard (σ : Type) where
  Good : σ → Prop
  Before : σ → σ → Prop
  refl : ∀ s, Before s s
  trans : ∀ {s t u}, Before s t → Before t u → Before s u
  back : ∀ {s t}, Before s t → Good t → Good s

namespace Guard

variable (guard : Guard σ) {x : EStateM ε σ α} {f : α → EStateM ε σ β} {s : σ}
  {Q Q' : α → σ → Prop} {R : β → σ → Prop}

/-- The program goes forward. -/
def Forward (x : EStateM ε σ α) : Prop := ∀ s a t, x s = .ok a t → guard.Before s t

/-- Where the program returns in a good state, `Q` holds. -/
def Returns (x : EStateM ε σ α) (s : σ) (Q : α → σ → Prop) : Prop :=
  ∀ a t, x s = .ok a t → guard.Good t → Q a t

/-- A sequence returns where both of its parts do. -/
theorem bind_returned {b : β} {u : σ} (ran : (x >>= f) s = .ok b u) :
    ∃ a t, x s = .ok a t ∧ f a t = .ok b u := by
  cases first : x s with
  | ok a t =>
    rw [EStateM.bind_ok first] at ran
    exact ⟨a, t, rfl, ran⟩
  | error e t =>
    rw [EStateM.bind_error first] at ran
    cases ran

/-! ## Going forward -/

namespace Forward

variable {guard}

theorem value (a : α) : guard.Forward (pure a : EStateM ε σ α) := by
  intro s a' t ran
  cases ran
  exact guard.refl s

theorem raise (e : ε) : guard.Forward (throw e : EStateM ε σ α) := by
  intro s a t ran
  cases ran

theorem state : guard.Forward (get : EStateM ε σ σ) := by
  intro s a t ran
  cases ran
  exact guard.refl s

theorem bind (first : guard.Forward x) (next : ∀ a, guard.Forward (f a)) :
    guard.Forward (x >>= f) := by
  intro s b u ran
  obtain ⟨a, t, here, there⟩ := bind_returned ran
  exact guard.trans (first s a t here) (next a t b u there)

theorem ite {p : Prop} [Decidable p] {y : EStateM ε σ α} (yes : guard.Forward x)
    (no : guard.Forward y) : guard.Forward (if p then x else y) := by
  split
  · exact yes
  · exact no

theorem foldlM {body : β → ι → EStateM ε σ β} (each : ∀ b i, guard.Forward (body b i))
    (items : List ι) (start : β) : guard.Forward (items.foldlM body start) := by
  induction items generalizing start with
  | nil => exact value start
  | cons i rest inductionHypothesis =>
    rw [List.foldlM_cons]
    exact bind (each start i) inductionHypothesis

theorem forM {body : ι → EStateM ε σ PUnit} (each : ∀ i, guard.Forward (body i))
    (items : List ι) : guard.Forward (items.forM body) := by
  induction items with
  | nil => exact value PUnit.unit
  | cons i rest inductionHypothesis => exact bind (each i) fun _ => inductionHypothesis

end Forward

/-! ## What is left -/

namespace Returns

variable {guard}

theorem value {a : α} (holds : Q a s) : guard.Returns (pure a : EStateM ε σ α) s Q := by
  intro a' t ran _
  cases ran
  exact holds

theorem raise (e : ε) : guard.Returns (throw e : EStateM ε σ α) s Q := by
  intro a t ran
  cases ran

theorem state {Q : σ → σ → Prop} (holds : Q s s) : guard.Returns (get : EStateM ε σ σ) s Q := by
  intro a t ran _
  cases ran
  exact holds

theorem mono (returns : guard.Returns x s Q) (weaker : ∀ a t, Q a t → Q' a t) :
    guard.Returns x s Q' := fun a t ran good => weaker a t (returns a t ran good)

/-- The first part ends in a good state, since the second one goes forward to one. -/
theorem bind (first : guard.Returns x s Q) (forward : ∀ a, guard.Forward (f a))
    (next : ∀ a t, Q a t → guard.Returns (f a) t R) : guard.Returns (x >>= f) s R := by
  intro b u ran good
  obtain ⟨a, t, here, there⟩ := bind_returned ran
  exact next a t (first a t here (guard.back (forward a t b u there) good)) b u there good

theorem ite {p : Prop} [Decidable p] {y : EStateM ε σ α} (yes : p → guard.Returns x s Q)
    (no : ¬ p → guard.Returns y s Q) : guard.Returns (if p then x else y) s Q := by
  split
  · next holds => exact yes holds
  · next fails => exact no fails

/-- A loop that carries a value, through an invariant of the part of the list that it has passed. -/
theorem foldlM {body : β → ι → EStateM ε σ β} (Inv : List ι → β → σ → Prop) (items : List ι)
    {start : β} (forward : ∀ b i, guard.Forward (body b i)) (initially : Inv [] start s)
    (step : ∀ before i after value t, items = before ++ i :: after → Inv before value t →
      guard.Returns (body value i) t (Inv (before ++ [i]))) :
    guard.Returns (items.foldlM body start) s (Inv items) := by
  have run : ∀ after before value t, items = before ++ after → Inv before value t →
      guard.Returns (after.foldlM body value) t (Inv items) := by
    intro after
    induction after with
    | nil =>
      intro before value t split holds
      rw [List.append_nil] at split
      rw [split]
      exact Returns.value holds
    | cons i after inductionHypothesis =>
      intro before value t split holds
      rw [List.foldlM_cons]
      refine bind (step before i after value t split holds)
        (fun next => Forward.foldlM forward after next) fun next u holds' => ?_
      exact inductionHypothesis (before ++ [i]) next u (by rw [split, List.append_assoc]; rfl) holds'
  exact run items [] start s rfl initially

/-- A loop that carries nothing. -/
theorem forM {body : ι → EStateM ε σ PUnit} (Inv : List ι → σ → Prop) (items : List ι)
    (forward : ∀ i, guard.Forward (body i)) (initially : Inv [] s)
    (step : ∀ before i after t, items = before ++ i :: after → Inv before t →
      guard.Returns (body i) t fun _ u => Inv (before ++ [i]) u) :
    guard.Returns (items.forM body) s fun _ t => Inv items t := by
  have run : ∀ after before t, items = before ++ after → Inv before t →
      guard.Returns (after.forM body) t fun _ u => Inv items u := by
    intro after
    induction after with
    | nil =>
      intro before t split holds
      rw [List.append_nil] at split
      rw [split]
      exact value holds
    | cons i after inductionHypothesis =>
      intro before t split holds
      change guard.Returns (body i >>= fun _ => after.forM body) t _
      refine bind (step before i after t split holds) (fun _ => Forward.forM forward after)
        fun _ u holds' => ?_
      exact inductionHypothesis (before ++ [i]) u (by rw [split, List.append_assoc]; rfl) holds'
  exact run items [] s rfl initially

end Returns

end Guard
