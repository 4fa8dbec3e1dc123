import Mathlib.Data.List.TakeWhile
import Mathlib.Data.Nat.Notation
import Mathlib.Tactic.Common

/-!
# Terminated strings

Strings in a memory, each with a terminator behind it, and the tokens of a string. `scanTo` reads
a string back, `nextToken` is the `strtok` of C for one separator.
-/

universe u

variable {α : Type u}

/-! ## In memory -/

/-- The memory holds a string and its terminator from a place on. -/
def TerminatedAt (nul : α) (memory : ℕ → α) : ℕ → List α → Prop
  | place, [] => memory place = nul
  | place, c :: rest => memory place = c ∧ TerminatedAt nul memory (place + 1) rest

/-- Read up to the terminator, but no more than so many. -/
def scanTo [DecidableEq α] (nul : α) (memory : ℕ → α) : ℕ → ℕ → List α
  | 0, _ => []
  | fuel + 1, place =>
    if memory place = nul then [] else memory place :: scanTo nul memory fuel (place + 1)

namespace TerminatedAt

variable {nul : α} {memory other : ℕ → α} {place fuel : ℕ} {s : List α}

/-- The string depends on its own cells. -/
theorem congr (holds : TerminatedAt nul memory place s)
    (same : ∀ p, place ≤ p → p < place + (s.length + 1) → other p = memory p) :
    TerminatedAt nul other place s := by
  induction s generalizing place with
  | nil => exact (same place (Nat.le_refl _) (by simp)).trans holds
  | cons c rest inductionHypothesis =>
    obtain ⟨first, others⟩ := holds
    rw [List.length_cons] at same
    refine ⟨(same place (Nat.le_refl _) (by omega)).trans first, ?_⟩
    exact inductionHypothesis others fun p above below => same p (by omega) (by omega)

/-- The string is read back. -/
theorem scanTo_eq [DecidableEq α] (holds : TerminatedAt nul memory place s) (absent : nul ∉ s)
    (enough : s.length < fuel) : scanTo nul memory fuel place = s := by
  induction s generalizing place fuel with
  | nil =>
    obtain ⟨fuel, rfl⟩ := Nat.exists_eq_succ_of_ne_zero (Nat.ne_of_gt enough)
    exact if_pos holds
  | cons c rest inductionHypothesis =>
    obtain ⟨first, others⟩ := holds
    rw [List.length_cons] at enough
    obtain ⟨fuel, rfl⟩ := Nat.exists_eq_succ_of_ne_zero (n := fuel) (by omega)
    rw [List.mem_cons, not_or] at absent
    have some : memory place ≠ nul := by
      rw [first]
      exact Ne.symm absent.1
    rw [scanTo, if_neg some, first, inductionHypothesis others absent.2 (by omega)]

end TerminatedAt

/-! ## Tokens -/

section Tokens

variable [DecidableEq α] (separator : α)

/-- The next token of a string and what follows its separator, if there is one. -/
def nextToken (s : List α) : Option (List α × List α) :=
  let s := s.dropWhile (· = separator)
  if s = [] then none
  else some (s.takeWhile (· ≠ separator), (s.dropWhile (· ≠ separator)).drop 1)

/-- The first tokens of a string. -/
def tokens : ℕ → List α → List (List α)
  | 0, _ => []
  | n + 1, s =>
    match nextToken separator s with
    | none => []
    | some (token, rest) => token :: tokens n rest

/-- The entries of a string between its separators, without the empty ones. -/
def entries (s : List α) : List (List α) := (s.splitOn separator).filter (· ≠ [])

variable {separator} {s : List α}

theorem entries_cons_separator : entries separator (separator :: s) = entries separator s := by
  rw [entries, List.splitOn_cons_eq_if_modifyHead, if_pos (beq_self_eq_true separator)]
  rfl

/-- Separators in front do not count. -/
theorem entries_dropWhile :
    entries separator (s.dropWhile (· = separator)) = entries separator s := by
  induction s with
  | nil => rfl
  | cons c rest inductionHypothesis =>
    by_cases same : c = separator
    · rw [List.dropWhile_cons_of_pos (by simpa using same), inductionHypothesis, same,
        entries_cons_separator]
    · rw [List.dropWhile_cons_of_neg (by simpa using same)]

/-- A string that starts with an entry. -/
theorem entries_append (rest : List α) {token : List α} (plain : separator ∉ token)
    (some : token ≠ []) : entries separator (token ++ separator :: rest) = token :: entries separator rest ∧
      entries separator token = [token] := by
  unfold entries
  rw [List.splitOn_append_cons_of_beq token rest (beq_self_eq_true separator),
    List.splitOn_eq_singleton plain]
  simp [some]

/-- A string that does not start with a separator starts with an entry. -/
theorem entries_token {c : α} {others : List α} (first : c ≠ separator) :
    entries separator (c :: others) = (c :: others).takeWhile (· ≠ separator) ::
      entries separator (((c :: others).dropWhile (· ≠ separator)).drop 1) := by
  have plain : separator ∉ (c :: others).takeWhile (· ≠ separator) := fun member => by
    simpa using List.mem_takeWhile_imp member
  have some : (c :: others).takeWhile (· ≠ separator) ≠ [] := by
    rw [List.takeWhile_cons_of_pos (by simpa using first)]
    exact nofun
  have parts : (c :: others).takeWhile (· ≠ separator) ++
      (c :: others).dropWhile (· ≠ separator) = c :: others := List.takeWhile_append_dropWhile
  generalize (c :: others).takeWhile (· ≠ separator) = token at plain some parts ⊢
  cases behind : (c :: others).dropWhile (· ≠ separator) with
  | nil =>
    rw [behind, List.append_nil] at parts
    rw [← parts, (entries_append [] plain some).2]
    rfl
  | cons d rest =>
    have separates : d = separator := by
      have head := List.head?_dropWhile_not (· ≠ separator) (c :: others)
      rw [behind] at head
      simpa using head
    rw [behind, separates] at parts
    rw [← parts, (entries_append rest plain some).1]
    rfl

/-- The tokens are the entries. -/
theorem tokens_eq (n : ℕ) (s : List α) : tokens separator n s = (entries separator s).take n := by
  induction n generalizing s with
  | zero => rfl
  | succ n inductionHypothesis =>
    rw [← entries_dropWhile, tokens, nextToken]
    generalize stripped : s.dropWhile (· = separator) = body
    cases body with
    | nil => rfl
    | cons c others =>
      have first : c ≠ separator := by
        have head := List.head?_dropWhile_not (· = separator) s
        rw [stripped] at head
        simpa using head
      rw [entries_token first, List.take_succ_cons, ← inductionHypothesis]
      rfl

/-- A token is a part of the string. -/
theorem sublist_of_mem_tokens {n : ℕ} {token : List α} (member : token ∈ tokens separator n s) :
    token.Sublist s := by
  induction n generalizing s with
  | zero => exact absurd member List.not_mem_nil
  | succ n inductionHypothesis =>
    rw [tokens] at member
    cases next : nextToken separator s with
    | none =>
      rw [next] at member
      exact absurd member List.not_mem_nil
    | some parts =>
      rw [next] at member
      unfold nextToken at next
      dsimp only at next
      split_ifs at next with nothing
      rw [← Option.some.inj next] at member
      refine List.Sublist.trans ?_ (List.dropWhile_sublist (· = separator))
      rcases List.mem_cons.mp member with rfl | later
      · exact List.takeWhile_sublist _
      · exact (inductionHypothesis later).trans
          ((List.drop_sublist _ _).trans (List.dropWhile_sublist _))

end Tokens
