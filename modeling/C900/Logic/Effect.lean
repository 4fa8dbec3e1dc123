import Mathlib.Logic.Basic

/-!
# Stateful programs and their operations

Run lemmas for `StateM`, and the programs that are built from a family of
operations by `pure` and `bind`. A property of such a program follows from the
same property of its operations: `Built.preserves` carries a relation between the
state before and after, and `Built.related` two runs of one program side by side.
-/

variable {σ α β : Type}

namespace StateM

theorem bind_apply (x : StateM σ α) (f : α → StateM σ β) (s : σ) :
    (x >>= f) s = f (x s).1 (x s).2 := rfl

theorem pure_apply (a : α) (s : σ) : (pure a : StateM σ α) s = (a, s) := rfl

theorem ite_apply (p : Prop) [Decidable p] (x y : StateM σ α) (s : σ) :
    (if p then x else y) s = if p then x s else y s := by
  split <;> rfl

end StateM

/-- A family of operations on a state. -/
abbrev Operations (σ : Type) := ∀ ⦃α : Type⦄, StateM σ α → Prop

/-- The programs built from a family of operations. -/
inductive Built (ops : Operations σ) : ∀ ⦃α : Type⦄, StateM σ α → Prop where
  | op {α : Type} {x : StateM σ α} (operation : ops x) : Built ops x
  | pure {α : Type} (a : α) : Built ops (pure a)
  | bind {α β : Type} {x : StateM σ α} {f : α → StateM σ β} (first : Built ops x)
      (rest : ∀ a, Built ops (f a)) : Built ops (x >>= f)

namespace Built

variable {ops : Operations σ}

/-- More operations build more programs. -/
theorem mono {more : Operations σ} (included : ∀ ⦃α⦄ (x : StateM σ α), ops x → more x)
    {x : StateM σ α} (built : Built ops x) : Built more x := by
  induction built with
  | op operation => exact op (included _ operation)
  | pure a => exact pure a
  | bind _ _ first rest => exact bind first rest

theorem ite {p : Prop} [Decidable p] {x y : StateM σ α} (yes : Built ops x) (no : Built ops y) :
    Built ops (if p then x else y) := by
  split
  · exact yes
  · exact no

/-- A loop over a list. -/
theorem forM {ι : Type} (body : ι → StateM σ PUnit) (built : ∀ i, Built ops (body i))
    (items : List ι) : Built ops (items.forM body) := by
  induction items with
  | nil => exact pure _
  | cons i rest inductionHypothesis => exact bind (built i) fun _ => inductionHypothesis

/-- A relation between the state before and the state after. -/
theorem preserves {x : StateM σ α} (built : Built ops x) (related : σ → σ → Prop)
    (refl : ∀ s, related s s) (trans : ∀ s t u, related s t → related t u → related s u)
    (operation : ∀ ⦃β⦄ (y : StateM σ β), ops y → ∀ s, related s (y s).2) (s : σ) :
    related s (x s).2 := by
  induction built generalizing s with
  | op is => exact operation _ is s
  | pure a => exact refl s
  | bind _ _ first rest => exact trans _ _ _ (first s) (rest _ _)

/-- Two runs side by side. `cost` never falls along a run from a state with `holds`; while a run
costs nothing, the states agree and so do the results. -/
theorem related {x : StateM σ α} (built : Built ops x) (holds : σ → Prop) (cost : σ → Nat)
    (agree : σ → σ → Prop)
    (kept : ∀ ⦃β⦄ (y : StateM σ β), ops y → ∀ s, holds s → holds (y s).2)
    (rising : ∀ ⦃β⦄ (y : StateM σ β), ops y → ∀ s, holds s → cost s ≤ cost (y s).2)
    (operation : ∀ ⦃β⦄ (y : StateM σ β), ops y → ∀ s t, holds s → agree s t →
      cost (y s).2 = cost s → (y s).1 = (y t).1 ∧ agree (y s).2 (y t).2)
    (s t : σ) (start : holds s) (alike : agree s t) (free : cost (x s).2 = cost s) :
    (x s).1 = (x t).1 ∧ agree (x s).2 (x t).2 := by
  induction built generalizing s t with
  | op is => exact operation _ is s t start alike free
  | pure a => exact ⟨rfl, alike⟩
  | @bind _ _ x f built others first rest =>
    have run : ∀ ⦃β⦄ {y : StateM σ β}, Built ops y → ∀ s, holds s →
        holds (y s).2 ∧ cost s ≤ cost (y s).2 := fun β y built s start =>
      built.preserves (fun s t => holds s → holds t ∧ cost s ≤ cost t)
        (fun s start => ⟨start, Nat.le_refl _⟩)
        (fun s t u toT toU start =>
          ⟨(toU (toT start).1).1, Nat.le_trans (toT start).2 (toU (toT start).1).2⟩)
        (fun _ y is s start => ⟨kept y is s start, rising y is s start⟩) s start
    obtain ⟨middle, below⟩ := run built s start
    have above := (run (others (x s).1) (x s).2 middle).2
    rw [StateM.bind_apply] at free ⊢
    have free₁ : cost (x s).2 = cost s := Nat.le_antisymm (free ▸ above) below
    obtain ⟨value, states⟩ := first s t start alike free₁
    have next := rest (x s).1 _ _ middle states (free.trans free₁.symm)
    rw [StateM.bind_apply, ← value]
    exact next

end Built
