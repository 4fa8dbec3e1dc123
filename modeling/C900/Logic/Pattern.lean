import Mathlib.Data.List.Basic
import Mathlib.Data.List.Infix

/-!
# Matching a pattern as a stream goes by

A matcher that reads a stream one item at a time keeps the length of the
longest prefix of its pattern that ends the stream. The rules below follow one
item through such a matcher: the candidates for the new length shrink from
border to border until one of them can be continued.
-/

universe u

variable {Item : Type u} {pattern stream : List Item} {item : Item} {j k : Nat}

/-- The first `k` items of the pattern end the stream. -/
def EndsWith (pattern stream : List Item) (k : Nat) : Prop :=
  k ≤ pattern.length ∧ pattern.take k <:+ stream

/-- The longest prefix of the pattern that ends the stream has `k` items. -/
structure LongestMatch (pattern stream : List Item) (k : Nat) : Prop where
  ends : EndsWith pattern stream k
  longest : ∀ j, EndsWith pattern stream j → j ≤ k

/-- Every prefix that the item continues has at most `k` items, and the one of
`k` items ends the stream. -/
structure Candidate (pattern stream : List Item) (item : Item) (k : Nat) : Prop where
  ends : EndsWith pattern stream k
  bound : ∀ j, EndsWith pattern stream j → pattern[j]? = some item → j ≤ k

theorem EndsWith.zero : EndsWith pattern stream 0 :=
  ⟨Nat.zero_le _, by simp⟩

/-- A prefix ends the longer stream when the shorter prefix ended the stream and
the item is the next one of the pattern. -/
theorem EndsWith.append_iff :
    EndsWith pattern (stream ++ [item]) (k + 1) ↔
      pattern[k]? = some item ∧ EndsWith pattern stream k := by
  constructor
  · rintro ⟨inside, ends⟩
    have next : pattern[k]? = some pattern[k] := List.getElem?_eq_getElem inside
    rw [List.take_add_one, next, Option.toList_some] at ends
    rcases List.suffix_concat_iff.mp ends with empty | ⟨front, parts, frontEnds⟩
    · exact absurd empty (List.append_ne_nil_of_right_ne_nil _ (List.cons_ne_nil _ _))
    · obtain ⟨rfl, last⟩ := List.append_inj' parts rfl
      refine ⟨?_, Nat.le_of_succ_le inside, frontEnds⟩
      rw [next]
      exact congrArg some (List.singleton_inj.mp last)
  · rintro ⟨next, inside, ends⟩
    have small : k < pattern.length := (List.getElem?_eq_some_iff.mp next).1
    refine ⟨small, ?_⟩
    rw [List.take_add_one, next, Option.toList_some]
    exact List.suffix_concat_iff.mpr (Or.inr ⟨_, rfl, ends⟩)

/-- Below a prefix that ends the stream, the prefixes that end the stream are the
borders of that prefix. -/
theorem EndsWith.iff_border (ends : EndsWith pattern stream k) (small : j ≤ k) :
    EndsWith pattern stream j ↔ pattern.take j <:+ pattern.take k := by
  constructor
  · intro shorter
    refine List.suffix_of_suffix_length_le shorter.2 ends.2 ?_
    simp only [List.length_take]
    omega
  · intro border
    exact ⟨Nat.le_trans small ends.1, border.trans ends.2⟩

namespace LongestMatch

/-- Nothing has been read. -/
theorem start : LongestMatch pattern [] 0 := by
  refine ⟨EndsWith.zero, ?_⟩
  rintro j ⟨inside, ends⟩
  have empty := congrArg List.length (List.suffix_nil.mp ends)
  simp only [List.length_take, List.length_nil] at empty
  omega

/-- The whole pattern ends the stream exactly when all of it has been matched. -/
theorem complete_iff (longestMatch : LongestMatch pattern stream k) :
    k = pattern.length ↔ pattern <:+ stream := by
  constructor
  · rintro rfl
    simpa using longestMatch.ends.2
  · intro ends
    have whole := longestMatch.longest pattern.length ⟨Nat.le_refl _, by simpa using ends⟩
    exact Nat.le_antisymm longestMatch.ends.1 whole

/-- Before the item is looked at, the whole match is the candidate. -/
theorem candidate (longestMatch : LongestMatch pattern stream k) :
    Candidate pattern stream item k :=
  ⟨longestMatch.ends, fun j ends _ => longestMatch.longest j ends⟩

end LongestMatch

namespace Candidate

/-- The item continues the candidate. -/
theorem continued (candidate : Candidate pattern stream item k)
    (next : pattern[k]? = some item) : LongestMatch pattern (stream ++ [item]) (k + 1) := by
  refine ⟨EndsWith.append_iff.mpr ⟨next, candidate.ends⟩, ?_⟩
  rintro (_ | j) ends
  · exact Nat.zero_le _
  · obtain ⟨also, shorter⟩ := EndsWith.append_iff.mp ends
    exact Nat.succ_le_succ (candidate.bound j shorter also)

/-- The item does not even start the pattern. -/
theorem broken (candidate : Candidate pattern stream item 0)
    (other : pattern[0]? ≠ some item) : LongestMatch pattern (stream ++ [item]) 0 := by
  refine ⟨EndsWith.zero, ?_⟩
  rintro (_ | j) ends
  · exact Nat.le_refl _
  · obtain ⟨next, shorter⟩ := EndsWith.append_iff.mp ends
    obtain rfl : j = 0 := Nat.le_zero.mp (candidate.bound j shorter next)
    exact absurd next other

/-- The item does not continue the candidate: its longest proper border is the
next candidate. -/
theorem fallBack (candidate : Candidate pattern stream item k)
    (other : pattern[k]? ≠ some item) (shorter : j < k)
    (border : pattern.take j <:+ pattern.take k)
    (longest : ∀ i, i < k → pattern.take i <:+ pattern.take k → i ≤ j) :
    Candidate pattern stream item j := by
  have small : j ≤ k := Nat.le_of_lt shorter
  refine ⟨(candidate.ends.iff_border small).mpr border, ?_⟩
  intro i ends next
  have bound : i ≤ k := candidate.bound i ends next
  rcases Nat.lt_or_eq_of_le bound with less | rfl
  · exact longest i less ((candidate.ends.iff_border bound).mp ends)
  · exact absurd next other

end Candidate
