import Mathlib.Data.List.Infix

/-!
# Grafting a tree

A tree is seen through its paths, each of which leads nowhere or shows something. Another tree is
grafted onto it at a place: below the place the paths show what they show in the other tree, the way
to the place consists of directories, and every other path shows what it showed. A tree whose root is
a directory can be grafted one name of its root after the other.
-/

namespace Grafting

universe u v

variable {ν : Type u} {γ : Type v} [DecidableEq ν]

/-- What the path `p` shows once `sub` is grafted at `place`, where it showed `old`. -/
def graft (dir : γ) (place : List ν) (sub : List ν → Option γ) (p : List ν) (old : Option γ) :
    Option γ :=
  if place <+: p then (sub (p.drop place.length)).or old
  else if p <+: place ∧ (sub []).isSome then some dir
  else old

/-- The tree with these names alone in its root. -/
def only (sub : List ν → Option γ) (names : List ν) : List ν → Option γ
  | [] => sub []
  | name :: rest => if name ∈ names then sub (name :: rest) else none

variable {dir : γ} {place p rest names : List ν} {name : ν} {sub : List ν → Option γ}
  {old : Option γ}

/-- Below the place, what is grafted comes before what was there. -/
theorem graft_below (dir : γ) (place rest : List ν) (sub : List ν → Option γ) (old : Option γ) :
    graft dir place sub (place ++ rest) old = (sub rest).or old := by
  rw [graft, if_pos (List.prefix_append place rest), List.drop_left]

/-- The way to the place. -/
theorem graft_above (above : p <+: place) (ne : p ≠ place) (root : (sub []).isSome) (old : Option γ) :
    graft dir place sub p old = some dir := by
  have notBelow : ¬ place <+: p := fun below => ne (above.eq_of_length_le below.length_le)
  rw [graft, if_neg notBelow, if_pos ⟨above, root⟩]

/-- Beside the place nothing changes. -/
theorem graft_away (notBelow : ¬ place <+: p) (notAbove : ¬ p <+: place) (old : Option γ) :
    graft dir place sub p old = old := by
  rw [graft, if_neg notBelow, if_neg fun above => notAbove above.1]

/-- Nothing is grafted. -/
theorem graft_nothing (nothing : ∀ rest, sub rest = none) (dir : γ) (place p : List ν) (old : Option γ) :
    graft dir place sub p old = old := by
  unfold graft
  simp [nothing]

/-- A tree that is its root alone. -/
theorem graft_leaf {top : γ} (root : sub [] = some top)
    (below : ∀ name rest, sub (name :: rest) = none) (dir : γ) (place p : List ν) (old : Option γ) :
    graft dir place sub p old =
      if p = place then some top else if p <+: place then some dir else old := by
  by_cases inside : place <+: p
  · obtain ⟨rest, rfl⟩ := inside
    rw [graft_below]
    cases rest with
    | nil => rw [root, List.append_nil, if_pos rfl, Option.some_or]
    | cons name rest =>
      have longer : place.length < (place ++ name :: rest).length := by simp
      have ne : place ++ name :: rest ≠ place := fun same =>
        Nat.lt_irrefl _ (longer.trans_eq (congrArg List.length same))
      have notAbove : ¬ place ++ name :: rest <+: place := fun above =>
        Nat.not_lt.mpr above.length_le longer
      rw [below, Option.none_or, if_neg ne, if_neg notAbove]
  · have ne : p ≠ place := by
      rintro rfl
      exact inside List.prefix_rfl
    rw [if_neg ne]
    split
    · next above => exact graft_above above ne (by rw [root]; rfl) old
    · next away => exact graft_away inside away old

/-- Nothing is below a name that is left out. -/
theorem only_new (new : name ∉ names) (sub : List ν → Option γ) (rest : List ν) :
    only sub names (name :: rest) = none :=
  if_neg new

/-- A list with every name leaves nothing out. -/
theorem only_all (all : ∀ name rest, name ∉ names → sub (name :: rest) = none) :
    only sub names = sub := by
  funext p
  cases p with
  | nil => rfl
  | cons name rest =>
    rw [only]
    split
    · rfl
    · next other => exact (all name rest other).symm

/-- One more name of the root. -/
theorem graft_only (root : sub [] = some dir) (new : name ∉ names) (place p : List ν)
    (old : Option γ) :
    graft dir (place ++ [name]) (fun rest => sub (name :: rest)) p
        (graft dir place (only sub names) p old) =
      graft dir place (only sub (names ++ [name])) p old := by
  have start : ∀ names : List ν, only sub names [] = some dir := fun _ => root
  by_cases below : place <+: p
  · obtain ⟨rest, rfl⟩ := below
    rw [graft_below, graft_below]
    cases rest with
    | nil =>
      -- The place itself.
      rw [start, start, List.append_nil, graft, if_neg fun longer => ?_]
      · split <;> rfl
      · have length := longer.length_le
        rw [List.length_append, List.length_singleton] at length
        exact absurd length (Nat.not_succ_le_self _)
    | cons n rest =>
      by_cases same : n = name
      · subst same
        have split : place ++ n :: rest = place ++ [n] ++ rest := by simp
        rw [split, graft_below, only, only, if_neg new, if_pos (by simp), Option.none_or]
      · have other : (n ∈ names ++ [name]) ↔ n ∈ names := by simp [same]
        rw [graft_away, only, only]
        · simp only [other]
        · rw [List.prefix_append_right_inj, List.cons_prefix_cons]
          exact fun here => same here.1.symm
        · rw [List.prefix_append_right_inj, List.cons_prefix_cons]
          exact fun here => same here.1
  · have notBelow : ¬ place ++ [name] <+: p := fun longer => below ((List.prefix_append _ _).trans longer)
    by_cases above : p <+: place
    · have ne : p ≠ place := by
        rintro rfl
        exact below List.prefix_rfl
      rw [graft_above above ne (by rw [start]; rfl), graft_above above ne (by rw [start]; rfl), graft,
        if_neg notBelow]
      split <;> rfl
    · have notAbove : ¬ p <+: place ++ [name] := by
        intro longer
        rcases List.prefix_concat_iff.mp longer with whole | shorter
        · exact below (whole ▸ List.prefix_append _ _)
        · exact above shorter
      rw [graft_away notBelow notAbove, graft_away below above, graft_away below above]

end Grafting
