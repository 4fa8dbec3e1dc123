import C900.Logic.PointerTree

/-!
# Cutting a tree to its first leaves

A pruning of a tree to its first `k` leaves keeps a pointer below the root whose leaves are all
among them, without a look at what is below it, and every pointer on the way to one that it
keeps. The other pointers are dropped.
-/

namespace PointerTree

/-- All leaves below the end of the path are among the first `k`. -/
def Within (n d k : Nat) (path : List Nat) : Prop := start n d path + n ^ (d - path.length) ≤ k

/-- A pointer that is kept lies at the end of the path or below it. -/
def Survives (child : Nat → Nat → Nat) (n d k b : Nat) (path : List Nat) : Prop :=
  ∃ rest, path ++ rest ≠ [] ∧ IsPath n d (path ++ rest) ∧ Within n d k (path ++ rest) ∧
    follow child b (path ++ rest) ≠ 0

section Within

variable {n d k : Nat} {path rest : List Nat}

theorem start_append (short : path.length ≤ d) :
    start n d (path ++ rest) = start n d path + start n (d - path.length) rest := by
  induction path generalizing d with
  | nil => rw [List.nil_append, start_nil, Nat.zero_add, List.length_nil, Nat.sub_zero]
  | cons slot path inductionHypothesis =>
    obtain ⟨e, rfl⟩ : ∃ e, d = e + 1 := ⟨d - 1, by rw [List.length_cons] at short; omega⟩
    rw [List.cons_append, start_cons, start_cons, List.length_cons, Nat.add_sub_add_right,
      inductionHypothesis (Nat.le_of_succ_le_succ short), Nat.add_assoc]

theorem within_cons (positive : 0 < n) (slot : Nat) :
    Within n (d + 1) k (slot :: rest) ↔ Within n d (k - slot * n ^ d) rest := by
  have some : 0 < n ^ (d - rest.length) := Nat.pow_pos positive
  unfold Within
  rw [start_cons, List.length_cons, Nat.add_sub_add_right]
  omega

/-- What is below a path within the first leaves is within them. -/
theorem Within.append (within : Within n d k path) (isPath : IsPath n d (path ++ rest)) :
    Within n d k (path ++ rest) := by
  have total := isPath.1
  rw [List.length_append] at total
  have short : path.length ≤ d := by omega
  have isRest : IsPath n (d - path.length) rest :=
    ⟨by omega, fun slot member => isPath.2 slot (List.mem_append_right _ member)⟩
  have below := start_add_le isRest
  unfold Within at within ⊢
  rw [start_append short, List.length_append, Nat.sub_add_eq]
  omega

end Within

section Survives

variable {child other : Nat → Nat → Nat} {n d k b slot : Nat} {path rest : List Nat}

theorem Survives.ne_zero (survives : Survives child n d k b path) : follow child b path ≠ 0 := by
  obtain ⟨rest, -, -, -, found⟩ := survives
  exact follow_ne_zero_of_append found

/-- What survives below a place keeps the place. -/
theorem Survives.above (path : List Nat) (survives : Survives child n d k b (path ++ rest)) :
    Survives child n d k b path := by
  obtain ⟨further, proper, isPath, within, found⟩ := survives
  rw [List.append_assoc] at proper isPath within found
  exact ⟨rest ++ further, proper, isPath, within, found⟩

/-- A pointer is kept where its leaves are. -/
theorem Survives.of_within (proper : path ≠ []) (isPath : IsPath n d path)
    (within : Within n d k path) (found : follow child b path ≠ 0) :
    Survives child n d k b path := by
  refine ⟨[], ?_⟩
  rw [List.append_nil]
  exact ⟨proper, isPath, within, found⟩

/-- The node itself is kept with one of its slots. -/
theorem survives_nil : Survives child n d k b [] ↔ ∃ slot, Survives child n d k b [slot] := by
  constructor
  · rintro ⟨rest, proper, isPath, within, found⟩
    cases rest with
    | nil => exact absurd rfl proper
    | cons slot rest => exact ⟨slot, rest, List.cons_ne_nil _ _, isPath, within, found⟩
  · rintro ⟨slot, survives⟩
    exact Survives.above [] survives

theorem Survives.slot_lt (survives : Survives child n d k b (slot :: rest)) : slot < n := by
  obtain ⟨further, -, isPath, -⟩ := survives
  exact isPath.2 slot List.mem_cons_self

/-- Below a slot that is looked into, the pruning of the node is the pruning of its child. -/
theorem survives_cons (positive : 0 < n) (nonzero : b ≠ 0) (small : slot < n)
    (open' : ¬ Within n (d + 1) k [slot]) :
    Survives child n (d + 1) k b (slot :: rest) ↔
      Survives child n d (k - slot * n ^ d) (child b slot) rest := by
  rw [within_cons positive] at open'
  constructor
  · rintro ⟨further, -, isPath, within, found⟩
    rw [List.cons_append] at isPath within found
    rw [within_cons positive] at within
    rw [follow_cons nonzero] at found
    refine ⟨further, fun none => open' ?_, (IsPath.cons.mp isPath).2, within, found⟩
    rw [none] at within
    exact within
  · rintro ⟨further, -, isPath, within, found⟩
    refine ⟨further, List.cons_ne_nil _ _, IsPath.cons.mpr ⟨small, isPath⟩,
      (within_cons positive slot).mpr within, ?_⟩
    rw [List.cons_append, follow_cons nonzero]
    exact found

/-- What survives depends on the nodes that the pruning can come to. -/
theorem Survives.congr (survives : Survives child n d k b path)
    (same : ∀ p, IsPath n d p → follow other b p = follow child b p) :
    Survives other n d k b path := by
  obtain ⟨rest, proper, isPath, within, found⟩ := survives
  refine ⟨rest, proper, isPath, within, ?_⟩
  rw [same _ isPath]
  exact found

end Survives

end PointerTree
