import Mathlib.Data.List.Range
import Mathlib.Data.List.Nodup
import Mathlib.Tactic.Common
import Mathlib.Algebra.Group.Nat.Defs

/-!
# Trees of pointers

A node of height 0 is a leaf. A node of height `d + 1` holds `n` pointers to nodes of height
`d`; the pointer 0 leads nowhere. `child` reads a pointer from a node, a path is the list of
slots from a node down. The leaves below a node are numbered by the digits of their paths, and
`preorder` lists the paths to the nodes that have one of the first `t` leaves below them, each
node before those below it.
-/

namespace PointerTree

/-! ## Paths -/

/-- The node at the end of a path, 0 where the path breaks off. -/
def follow (child : Nat → Nat → Nat) : Nat → List Nat → Nat
  | b, [] => b
  | b, slot :: rest => if b = 0 then 0 else follow child (child b slot) rest

/-- A path of at most `d` slots. -/
def IsPath (n d : Nat) (path : List Nat) : Prop := path.length ≤ d ∧ ∀ slot ∈ path, slot < n

/-- The number of the first leaf below the end of a path from a node of height `d`. -/
def start (n : Nat) : Nat → List Nat → Nat
  | d + 1, slot :: rest => slot * n ^ d + start n d rest
  | _, _ => 0

/-- The path to leaf `r` from a node of height `d`. -/
def digits (n : Nat) : Nat → Nat → List Nat
  | 0, _ => []
  | d + 1, r => r / n ^ d :: digits n d (r % n ^ d)

/-- The paths to the nodes with one of the first `t` leaves below them. -/
def preorder (n : Nat) : Nat → Nat → List (List Nat)
  | 0, t => if t = 0 then [] else [[]]
  | d + 1, t =>
    if t = 0 then []
    else [] :: (List.range n).flatMap fun slot => (preorder n d (t - slot * n ^ d)).map (slot :: ·)

section Follow

variable {child other : Nat → Nat → Nat} {b : Nat}

@[simp] theorem follow_nil : follow child b [] = b := rfl

theorem follow_cons (nonzero : b ≠ 0) (slot : Nat) (rest : List Nat) :
    follow child b (slot :: rest) = follow child (child b slot) rest := by
  rw [follow, if_neg nonzero]

@[simp] theorem follow_zero (path : List Nat) : follow child 0 path = 0 := by
  cases path with
  | nil => rfl
  | cons slot rest => rw [follow, if_pos rfl]

theorem follow_append (path rest : List Nat) :
    follow child b (path ++ rest) = follow child (follow child b path) rest := by
  induction path generalizing b with
  | nil => rfl
  | cons slot path inductionHypothesis =>
    by_cases zero : b = 0
    · subst zero
      rw [follow_zero, follow_zero, follow_zero]
    · rw [List.cons_append, follow_cons zero, follow_cons zero, inductionHypothesis]

/-- What is found along a path depends on the nodes that the path goes through. -/
theorem follow_congr {path : List Nat}
    (same : ∀ before slot after, path = before ++ slot :: after → follow child b before ≠ 0 →
      other (follow child b before) slot = child (follow child b before) slot) :
    follow other b path = follow child b path := by
  induction path generalizing b with
  | nil => rfl
  | cons slot rest inductionHypothesis =>
    by_cases zero : b = 0
    · subst zero
      rw [follow_zero, follow_zero]
    · have here : other b slot = child b slot := same [] slot rest rfl zero
      rw [follow_cons zero, follow_cons zero, here]
      refine inductionHypothesis fun before next after split found => ?_
      have further := same (slot :: before) next after (by rw [split, List.cons_append])
      rw [follow_cons zero] at further
      exact further found

/-- A node found below a path has nodes above it. -/
theorem follow_ne_zero_of_append {path rest : List Nat}
    (found : follow child b (path ++ rest) ≠ 0) : follow child b path ≠ 0 := by
  intro zero
  rw [follow_append, zero, follow_zero] at found
  exact found rfl

end Follow

/-! ## Leaves by number -/

section Numbers

variable {n : Nat}

theorem IsPath.cons {d slot : Nat} {rest : List Nat} :
    IsPath n (d + 1) (slot :: rest) ↔ slot < n ∧ IsPath n d rest := by
  unfold IsPath
  rw [List.length_cons, List.forall_mem_cons, Nat.add_le_add_iff_right]
  exact and_left_comm

theorem IsPath.nil (d : Nat) : IsPath n d [] := ⟨Nat.zero_le d, nofun⟩

theorem IsPath.mono {d e : Nat} {path : List Nat} (isPath : IsPath n d path) (le : d ≤ e) :
    IsPath n e path := ⟨isPath.1.trans le, isPath.2⟩

@[simp] theorem start_nil (d : Nat) : start n d [] = 0 := by cases d <;> rfl

theorem start_cons (d slot : Nat) (rest : List Nat) :
    start n (d + 1) (slot :: rest) = slot * n ^ d + start n d rest := rfl

theorem digits_length (d r : Nat) : (digits n d r).length = d := by
  induction d generalizing r with
  | zero => rfl
  | succ d inductionHypothesis => rw [digits, List.length_cons, inductionHypothesis]

/-- The leaf at the end of a path is one of the leaves below the start of the path. -/
theorem start_add_le {d : Nat} {path : List Nat} (isPath : IsPath n d path) :
    start n d path + n ^ (d - path.length) ≤ n ^ d := by
  induction d generalizing path with
  | zero =>
    have none : path = [] := List.eq_nil_of_length_eq_zero (Nat.le_zero.mp isPath.1)
    subst none
    exact Nat.le_of_eq (Nat.zero_add _)
  | succ d inductionHypothesis =>
    cases path with
    | nil => exact Nat.le_of_eq (Nat.zero_add _)
    | cons slot rest =>
      obtain ⟨small, isRest⟩ := IsPath.cons.mp isPath
      have below := inductionHypothesis isRest
      have bound : (slot + 1) * n ^ d ≤ n * n ^ d := Nat.mul_le_mul_right _ small
      have power : n ^ (d + 1) = n * n ^ d := Nat.pow_succ'
      have next : (slot + 1) * n ^ d = slot * n ^ d + n ^ d := Nat.succ_mul slot _
      rw [start_cons, List.length_cons, Nat.add_sub_add_right, power]
      omega

theorem start_lt {d : Nat} {path : List Nat} (positive : 0 < n) (isPath : IsPath n d path) :
    start n d path < n ^ d := by
  have below := start_add_le isPath
  have some : 0 < n ^ (d - path.length) := Nat.pow_pos positive
  omega

theorem digits_isPath {d r : Nat} (small : r < n ^ d) : IsPath n d (digits n d r) := by
  induction d generalizing r with
  | zero => exact IsPath.nil 0
  | succ d inductionHypothesis =>
    have power : n ^ (d + 1) = n ^ d * n := Nat.pow_succ n d
    have some : 0 < n ^ d := Nat.pos_of_ne_zero fun zero => by
      rw [power, zero, Nat.zero_mul] at small
      exact Nat.not_lt_zero r small
    have slot : r / n ^ d < n := Nat.div_lt_of_lt_mul (by omega)
    exact IsPath.cons.mpr ⟨slot, inductionHypothesis (Nat.mod_lt r some)⟩

theorem start_digits {d r : Nat} (small : r < n ^ d) : start n d (digits n d r) = r := by
  induction d generalizing r with
  | zero =>
    rw [Nat.pow_zero] at small
    rw [digits, start_nil]
    omega
  | succ d inductionHypothesis =>
    have power : n ^ (d + 1) = n ^ d * n := Nat.pow_succ n d
    have some : 0 < n ^ d := Nat.pos_of_ne_zero fun zero => by
      rw [power, zero, Nat.zero_mul] at small
      exact Nat.not_lt_zero r small
    rw [digits, start_cons, inductionHypothesis (Nat.mod_lt r some), Nat.mul_comm]
    exact Nat.div_add_mod r (n ^ d)

/-- The leaves below a slot are numbered in a row. -/
theorem digits_row {d r : Nat} (slot : Nat) (small : r < n ^ d) :
    digits n (d + 1) (slot * n ^ d + r) = slot :: digits n d r := by
  have some : 0 < n ^ d := by omega
  have high : (slot * n ^ d + r) / n ^ d = slot := by
    rw [Nat.mul_comm, Nat.mul_add_div some, Nat.div_eq_of_lt small, Nat.add_zero]
  have low : (slot * n ^ d + r) % n ^ d = r := by
    rw [Nat.mul_comm, Nat.mul_add_mod, Nat.mod_eq_of_lt small]
  rw [digits, high, low]

theorem digits_zero (d : Nat) : digits n d 0 = List.replicate d 0 := by
  induction d with
  | zero => rfl
  | succ d inductionHypothesis =>
    rw [digits, Nat.zero_div, Nat.zero_mod, inductionHypothesis, List.replicate_succ]

/-- The path to the first leaf below a node keeps to the first slots from there. -/
theorem digits_start {d : Nat} {path : List Nat} (positive : 0 < n) (isPath : IsPath n d path) :
    digits n d (start n d path) = path ++ List.replicate (d - path.length) 0 := by
  induction d generalizing path with
  | zero =>
    have none : path = [] := List.eq_nil_of_length_eq_zero (Nat.le_zero.mp isPath.1)
    subst none
    rfl
  | succ d inductionHypothesis =>
    cases path with
    | nil => rw [start_nil, digits_zero, List.nil_append, List.length_nil, Nat.sub_zero]
    | cons slot rest =>
      obtain ⟨-, isRest⟩ := IsPath.cons.mp isPath
      rw [start_cons, digits_row slot (start_lt positive isRest), inductionHypothesis isRest,
        List.length_cons, Nat.add_sub_add_right, List.cons_append]

/-- A whole path is that of its leaf. -/
theorem digits_start_whole {d : Nat} {path : List Nat} (positive : 0 < n)
    (isPath : IsPath n d path) (whole : path.length = d) :
    digits n d (start n d path) = path := by
  rw [digits_start positive isPath, whole, Nat.sub_self, List.replicate_zero, List.append_nil]

end Numbers

/-! ## Nodes in order -/

section Order

variable {n : Nat}

theorem preorder_zero (n d : Nat) : preorder n d 0 = [] := by
  cases d <;> rfl

theorem preorder_leaf {t : Nat} (some : t ≠ 0) : preorder n 0 t = [[]] := if_neg some

theorem preorder_succ {d t : Nat} (some : t ≠ 0) :
    preorder n (d + 1) t = [] :: (List.range n).flatMap fun slot =>
      (preorder n d (t - slot * n ^ d)).map (slot :: ·) := if_neg some

theorem mem_preorder {d t : Nat} {path : List Nat} :
    path ∈ preorder n d t ↔ IsPath n d path ∧ start n d path < t := by
  induction d generalizing t path with
  | zero =>
    have root : IsPath n 0 path ↔ path = [] := by
      refine ⟨fun isPath => List.eq_nil_of_length_eq_zero (Nat.le_zero.mp isPath.1), ?_⟩
      rintro rfl
      exact IsPath.nil 0
    have first : start n 0 path = 0 := by
      cases path <;> rfl
    rw [root, first]
    by_cases none : t = 0
    · subst none
      rw [preorder_zero]
      simp
    · rw [preorder_leaf none, List.mem_singleton]
      exact ⟨fun here => ⟨here, Nat.pos_of_ne_zero none⟩, And.left⟩
  | succ d inductionHypothesis =>
    by_cases none : t = 0
    · subst none
      rw [preorder_zero]
      simp
    · rw [preorder_succ none, List.mem_cons]
      cases path with
      | nil =>
        rw [start_nil]
        exact iff_of_true (Or.inl rfl) ⟨IsPath.nil _, Nat.pos_of_ne_zero none⟩
      | cons slot rest =>
        have inside : slot :: rest ∈ ((List.range n).flatMap fun slot =>
            (preorder n d (t - slot * n ^ d)).map (slot :: ·)) ↔
            slot < n ∧ rest ∈ preorder n d (t - slot * n ^ d) := by
          simp only [List.mem_flatMap, List.mem_range, List.mem_map, List.cons.injEq]
          constructor
          · rintro ⟨_, small, _, member, rfl, rfl⟩
            exact ⟨small, member⟩
          · exact fun ⟨small, member⟩ => ⟨slot, small, rest, member, rfl, rfl⟩
        rw [inside, inductionHypothesis, IsPath.cons, start_cons]
        constructor
        · rintro (whole | ⟨small, isRest, before⟩)
          · cases whole
          · exact ⟨⟨small, isRest⟩, by omega⟩
        · rintro ⟨⟨small, isRest⟩, before⟩
          exact Or.inr ⟨small, isRest, by omega⟩

theorem preorder_nodup (d t : Nat) : (preorder n d t).Nodup := by
  induction d generalizing t with
  | zero =>
    rw [preorder]
    split
    · exact List.nodup_nil
    · exact List.nodup_singleton _
  | succ d inductionHypothesis =>
    by_cases none : t = 0
    · rw [none, preorder_zero]
      exact List.nodup_nil
    · rw [preorder_succ none, List.nodup_cons]
      constructor
      · simp
      · rw [List.nodup_flatMap]
        constructor
        · intro slot _
          exact (inductionHypothesis _).map fun _ _ same => List.tail_eq_of_cons_eq same
        · refine List.nodup_range.imp fun {slot other} apart path inSlot inOther => ?_
          obtain ⟨_, _, rfl⟩ := List.mem_map.mp inSlot
          obtain ⟨_, _, same⟩ := List.mem_map.mp inOther
          exact apart (List.head_eq_of_cons_eq same).symm

/-- The numbers below `t` in rows of `k`. -/
theorem range_rows (m k t : Nat) :
    List.range (min (m * k) t) = (List.range m).flatMap fun row =>
      (List.range (min k (t - row * k))).map (row * k + ·) := by
  induction m with
  | zero => simp
  | succ m inductionHypothesis =>
    have next : (m + 1) * k = m * k + k := Nat.succ_mul m k
    have split : min ((m + 1) * k) t = min (m * k) t + min k (t - m * k) := by omega
    rw [List.range_succ, List.flatMap_append, ← inductionHypothesis, List.flatMap_singleton, split,
      List.range_add]
    by_cases full : t ≤ m * k
    · have none : min k (t - m * k) = 0 := by omega
      rw [none]
      rfl
    · have whole : min (m * k) t = m * k := by omega
      rw [whole]

/-- The leaves among the listed nodes are in the order of their numbers. -/
theorem preorder_leaves (d t : Nat) :
    (preorder n d t).filter (fun path => path.length = d) =
      (List.range (min (n ^ d) t)).map (digits n d) := by
  induction d generalizing t with
  | zero =>
    by_cases none : t = 0
    · subst none
      rfl
    · have one : min (n ^ 0) t = 1 := by
        rw [Nat.pow_zero]
        omega
      rw [preorder_leaf none, one]
      rfl
  | succ d inductionHypothesis =>
    by_cases none : t = 0
    · subst none
      rw [preorder_zero, Nat.min_zero]
      rfl
    · have power : n ^ (d + 1) = n * n ^ d := Nat.pow_succ'
      rw [preorder_succ none, List.filter_cons_of_neg (by simp), power, range_rows,
        List.map_flatMap, List.filter_flatMap]
      refine List.flatMap_congr fun slot _ => ?_
      rw [List.filter_map, List.map_map]
      have shorter : ((fun path : List Nat => decide (path.length = d + 1)) ∘ (slot :: ·)) =
          fun path : List Nat => decide (path.length = d) := by
        funext path
        simp
      rw [shorter, inductionHypothesis, List.map_map]
      refine List.map_congr_left fun r member => ?_
      have small : r < n ^ d := by
        have := List.mem_range.mp member
        omega
      exact (digits_row slot small).symm

end Order

end PointerTree
