import Mathlib.Tactic.Common

/-!
# Blocks laid end to end

Every block of a list begins where the one before it ends. Blocks that are laid end to
end lie between the start and the stop, in their order and without sharing a place.
-/

universe u

variable {Block : Type u} (first size : Block → Int)

/-- The blocks fill the places from `start` to `stop`, in their order. -/
def EndToEnd : Int → List Block → Int → Prop
  | start, [], stop => start = stop
  | start, block :: rest, stop => first block = start ∧ EndToEnd (start + size block) rest stop

namespace EndToEnd

variable {first size} {blocks : List Block} {start stop : Int} {a b : Block}

/-- One more block after the last. -/
theorem append_singleton (laid : EndToEnd first size start blocks stop) (next : first a = stop) :
    EndToEnd first size start (blocks ++ [a]) (stop + size a) := by
  induction blocks generalizing start with
  | nil => exact ⟨next.trans (Eq.symm laid), congrArg (· + size a) laid⟩
  | cons block rest inductionHypothesis => exact ⟨laid.1, inductionHypothesis laid.2⟩

/-- The stop is not before the start. -/
theorem start_le_stop (laid : EndToEnd first size start blocks stop)
    (positive : ∀ x ∈ blocks, 0 < size x) : start ≤ stop := by
  induction blocks generalizing start with
  | nil => exact Int.le_of_eq laid
  | cons block rest inductionHypothesis =>
    have own := positive block List.mem_cons_self
    have later := inductionHypothesis laid.2 fun x member =>
      positive x (List.mem_cons_of_mem block member)
    omega

/-- A block lies between the start and the stop. -/
theorem bounds (laid : EndToEnd first size start blocks stop)
    (positive : ∀ x ∈ blocks, 0 < size x) (member : a ∈ blocks) :
    start ≤ first a ∧ first a + size a ≤ stop := by
  induction blocks generalizing start with
  | nil => exact absurd member List.not_mem_nil
  | cons block rest inductionHypothesis =>
    obtain ⟨begins, later⟩ := laid
    have own := positive block List.mem_cons_self
    have others : ∀ x ∈ rest, 0 < size x := fun x inRest =>
      positive x (List.mem_cons_of_mem block inRest)
    rcases List.mem_cons.mp member with rfl | inRest
    · have after := later.start_le_stop others
      omega
    · have bounded := inductionHypothesis later others inRest
      omega

/-- A place is in one block. -/
theorem unique (laid : EndToEnd first size start blocks stop)
    (positive : ∀ x ∈ blocks, 0 < size x) {i j : Nat} (atI : blocks[i]? = some a)
    (atJ : blocks[j]? = some b) {place : Int}
    (inA : first a ≤ place ∧ place < first a + size a)
    (inB : first b ≤ place ∧ place < first b + size b) : i = j := by
  induction blocks generalizing start i j with
  | nil => exact absurd atI (by rw [List.getElem?_nil]; exact nofun)
  | cons block rest inductionHypothesis =>
    obtain ⟨begins, later⟩ := laid
    have others : ∀ x ∈ rest, 0 < size x := fun x inRest =>
      positive x (List.mem_cons_of_mem block inRest)
    cases i with
    | zero =>
      cases j with
      | zero => rfl
      | succ j =>
        obtain rfl := Option.some.inj atI
        have bounded := later.bounds others (List.mem_of_getElem? atJ)
        omega
    | succ i =>
      cases j with
      | zero =>
        obtain rfl := Option.some.inj atJ
        have bounded := later.bounds others (List.mem_of_getElem? atI)
        omega
      | succ j => exact congrArg Nat.succ (inductionHypothesis later others atI atJ)

end EndToEnd
