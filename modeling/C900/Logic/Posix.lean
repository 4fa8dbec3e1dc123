import Mathlib.Data.List.DropRight
import Mathlib.Tactic.Common
import Mathlib.Tactic.SplitIfs

/-!
# Slash-separated paths

A path names a place by its parts: what lies between its slashes, without the empty parts
and the single dots. A path lies below another when it has further parts behind the
other's, none of which is a double dot; joining and cutting paths move between places.
-/

/-- A path, as the characters of a string. -/
abbrev PosixPath := List Char

namespace PosixPath

/-- The parts between the slashes that name something. -/
def parts (p : PosixPath) : List PosixPath :=
  (p.splitOn '/').filter fun part => part ≠ [] && part ≠ ['.']

/-- A path from the root. -/
def isAbsolute (p : PosixPath) : Bool := p.head? = some '/'

/-- The part that goes up. -/
def dotDot : PosixPath := ['.', '.']

/-- `os.path.join` of two paths: an absolute second path replaces the first. -/
def join (a b : PosixPath) : PosixPath :=
  if b.isAbsolute then b
  else if a = [] ∨ a.getLast? = some '/' then a ++ b
  else a ++ '/' :: b

/-- `rstrip ("/")`. -/
def stripSlashes (p : PosixPath) : PosixPath := p.rdropWhile (· = '/')

/-- The directory of a head that ends at its last slash. -/
def trimHead (head : PosixPath) : PosixPath :=
  if head ≠ [] ∧ head.any (· ≠ '/') then stripSlashes head else head

/-- `os.path.split`: before and behind the last slash. -/
def split (p : PosixPath) : PosixPath × PosixPath :=
  (trimHead (p.rdropWhile (· ≠ '/')), p.rtakeWhile (· ≠ '/'))

/-- `os.path.dirname`. -/
def dirname (p : PosixPath) : PosixPath := (split p).1

/-- A path from the root, or one from the current directory, that does not go up. -/
def Direct (absolute : Bool) (p : PosixPath) : Prop := p.isAbsolute = absolute ∧ dotDot ∉ p.parts

/-- The path lies at the destination or below it. -/
def Below (dest p : PosixPath) : Prop :=
  p.isAbsolute = dest.isAbsolute ∧ ∃ rest, p.parts = dest.parts ++ rest ∧ dotDot ∉ rest

/-- The path is the destination or one of the directories above it. -/
def Above (dest p : PosixPath) : Prop := p.isAbsolute = dest.isAbsolute ∧ p.parts <+: dest.parts

section

variable {a b p : PosixPath}

theorem parts_append_slash (a b : PosixPath) : parts (a ++ '/' :: b) = parts a ++ parts b := by
  unfold parts
  rw [List.splitOn_append_cons_self, List.filter_append]

theorem parts_nil : parts [] = [] := rfl

/-- A name without a slash is the single part of itself. -/
theorem parts_single (nonempty : p ≠ []) (notDot : p ≠ ['.']) (plain : '/' ∉ p) :
    parts p = [p] := by
  have whole : p.splitOn '/' = [p] := by
    have cut : (['/'].intercalate [p]).splitOn '/' = [p] := List.splitOn_intercalate '/'
      (fun part member => List.mem_singleton.mp member ▸ plain) (List.cons_ne_nil p [])
    rwa [List.intercalate_singleton] at cut
  unfold parts
  rw [whole, List.filter_cons_of_pos, List.filter_nil]
  rw [Bool.and_eq_true]
  exact ⟨decide_eq_true nonempty, decide_eq_true notDot⟩

theorem parts_slash (a : PosixPath) : parts (a ++ ['/']) = parts a := by
  rw [parts_append_slash, parts_nil, List.append_nil]

/-- Slashes at the end name nothing. -/
theorem parts_slashes (a : PosixPath) {slashes : PosixPath} (all : ∀ c ∈ slashes, c = '/') :
    parts (a ++ slashes) = parts a := by
  induction slashes using List.reverseRecOn with
  | nil => rw [List.append_nil]
  | append_singleton rest last inductionHypothesis =>
    obtain rfl := all last (by simp)
    rw [← List.append_assoc, parts_slash]
    exact inductionHypothesis fun c member => all c (by simp [member])

theorem not_mem_of_mem_splitOn {part : PosixPath} (member : part ∈ p.splitOn '/') :
    '/' ∉ part := by
  induction p generalizing part with
  | nil =>
    rw [List.splitOn_nil, List.mem_singleton] at member
    rw [member]
    exact List.not_mem_nil
  | cons c rest inductionHypothesis =>
    obtain ⟨first, others, parts⟩ :=
      List.exists_cons_of_ne_nil (List.splitOn_ne_nil '/' rest)
    rw [List.splitOn_cons_eq_if_modifyHead, parts] at member
    rw [parts] at inductionHypothesis
    split_ifs at member with slash
    · rcases List.mem_cons.mp member with rfl | inside
      · exact List.not_mem_nil
      · exact inductionHypothesis inside
    · rcases List.mem_cons.mp member with rfl | inside
      · refine List.not_mem_cons_of_ne_of_not_mem (fun same => slash ?_)
          (inductionHypothesis List.mem_cons_self)
        exact beq_iff_eq.mpr same.symm
      · exact inductionHypothesis (List.mem_cons_of_mem _ inside)

/-- A part is a path of one part. -/
theorem parts_of_mem {part : PosixPath} (member : part ∈ p.parts) : parts part = [part] := by
  obtain ⟨inside, name⟩ := List.mem_filter.mp member
  rw [Bool.and_eq_true] at name
  exact parts_single (of_decide_eq_true name.1) (of_decide_eq_true name.2)
    (not_mem_of_mem_splitOn inside)

/-- A path of one part has no slash. -/
theorem not_mem_of_parts (plain : parts p = [p]) : '/' ∉ p := by
  have member : p ∈ p.parts := by
    rw [plain]
    exact List.mem_singleton_self p
  exact not_mem_of_mem_splitOn (List.mem_filter.mp member).1

theorem isAbsolute_of_parts (plain : parts p = [p]) : p.isAbsolute = false :=
  decide_eq_false fun slash => not_mem_of_parts plain (List.mem_of_mem_head? slash)

/-- The parts of a path that is put together from parts. -/
theorem parts_flatMap {names : List PosixPath} (plain : ∀ name ∈ names, parts name = [name]) :
    parts (names.flatMap ('/' :: ·)) = names := by
  induction names using List.reverseRecOn with
  | nil => rfl
  | append_singleton init last inductionHypothesis =>
    rw [List.flatMap_append, List.flatMap_singleton, parts_append_slash,
      inductionHypothesis fun name member => plain name (List.mem_append_left _ member),
      plain last (by simp)]

/-- The parts of a path put together again. -/
theorem parts_intercalate (p : PosixPath) : parts ('/' :: ['/'].intercalate p.parts) = p.parts := by
  have behind : parts ('/' :: ['/'].intercalate p.parts) = parts (['/'].intercalate p.parts) :=
    parts_append_slash [] _
  have names : ∀ part ∈ p.parts, (part ≠ [] && part ≠ ['.']) = true ∧ '/' ∉ part :=
    fun part member => by
      obtain ⟨inside, name⟩ := List.mem_filter.mp member
      exact ⟨name, not_mem_of_mem_splitOn inside⟩
  rw [behind]
  by_cases empty : p.parts = []
  · rw [empty]
    rfl
  · have cut := List.splitOn_intercalate '/' (fun part member => (names part member).2) empty
    show List.filter _ ((['/'].intercalate p.parts).splitOn '/') = p.parts
    rw [cut]
    exact List.filter_eq_self.mpr fun part member => (names part member).1

theorem isAbsolute_append (nonempty : a ≠ []) (b : PosixPath) : isAbsolute (a ++ b) = isAbsolute a := by
  cases a with
  | nil => exact absurd rfl nonempty
  | cons c rest => rfl

/-- The place of a join with a relative path. -/
theorem parts_join (relative : b.isAbsolute = false) : parts (join a b) = parts a ++ parts b := by
  unfold join
  rw [relative, if_neg Bool.false_ne_true]
  split_ifs with ends
  · rcases ends with rfl | slash
    · rw [parts_nil]
      rfl
    · obtain ⟨start, rfl⟩ := List.getLast?_eq_some_iff.mp slash
      rw [parts_slash, List.append_assoc]
      exact parts_append_slash start b
  · exact parts_append_slash a b

theorem isAbsolute_join (relative : b.isAbsolute = false) : (join a b).isAbsolute = a.isAbsolute := by
  unfold join
  rw [relative, if_neg Bool.false_ne_true]
  by_cases empty : a = []
  · rw [if_pos (Or.inl empty), empty]
    exact relative
  split_ifs
  · exact isAbsolute_append empty b
  · exact isAbsolute_append empty _

/-- Cutting slashes from the end keeps the place. -/
theorem trimHead_place (head : PosixPath) :
    (trimHead head).isAbsolute = head.isAbsolute ∧ parts (trimHead head) = parts head := by
  unfold trimHead
  split_ifs with inner
  · obtain ⟨-, some⟩ := inner
    have whole : head.rdropWhile (· = '/') ++ head.rtakeWhile (· = '/') = head :=
      List.rdropWhile_append_rtakeWhile
    have slashes : ∀ c ∈ head.rtakeWhile (· = '/'), c = '/' := fun c member => by
      have slash := List.mem_rtakeWhile_imp member
      exact of_decide_eq_true slash
    have kept : stripSlashes head ≠ [] := fun empty => by
      obtain ⟨c, member, other⟩ := List.any_eq_true.mp some
      have slash := List.rdropWhile_eq_nil_iff.mp empty c member
      exact of_decide_eq_true other (of_decide_eq_true slash)
    constructor
    · rw [← isAbsolute_append kept (head.rtakeWhile (· = '/')), stripSlashes, whole]
    · rw [← parts_slashes (stripSlashes head) slashes, stripSlashes, whole]
  · exact ⟨rfl, rfl⟩

/-- The head of a path up to its last slash. -/
theorem rdropWhile_slash (p : PosixPath) :
    p.rdropWhile (· ≠ '/') = [] ∨ ∃ start, p.rdropWhile (· ≠ '/') = start ++ ['/'] := by
  by_cases empty : p.rdropWhile (· ≠ '/') = []
  · exact Or.inl empty
  · have slash := List.rdropWhile_last_not _ p empty
    have last : (p.rdropWhile (· ≠ '/')).getLast empty = '/' := by simpa using slash
    refine Or.inr ⟨(p.rdropWhile (· ≠ '/')).dropLast, ?_⟩
    have whole := List.dropLast_append_getLast empty
    rw [last] at whole
    exact whole.symm

/-- The directory of a path is above it. -/
theorem dirname_above (p : PosixPath) : Above p (dirname p) := by
  have whole : p.rdropWhile (· ≠ '/') ++ p.rtakeWhile (· ≠ '/') = p :=
    List.rdropWhile_append_rtakeWhile
  obtain ⟨absolute, place⟩ := trimHead_place (p.rdropWhile (· ≠ '/'))
  unfold Above dirname split
  rw [absolute, place]
  rcases rdropWhile_slash p with none | ⟨start, head⟩
  · rw [none, List.nil_append] at whole
    rw [none]
    refine ⟨?_, List.nil_prefix⟩
    cases p with
    | nil => rfl
    | cons c rest =>
      have other : c ≠ '/' := by
        have member : c ∈ (c :: rest).rtakeWhile (· ≠ '/') := by
          rw [whole]
          exact List.mem_cons_self
        have other := List.mem_rtakeWhile_imp member
        exact of_decide_eq_true other
      exact (decide_eq_false fun (slash : some c = some '/') => other (Option.some.inj slash)).symm
  · rw [head] at whole
    rw [head, parts_slash]
    constructor
    · conv_rhs => rw [← whole]
      exact (isAbsolute_append (List.append_ne_nil_of_right_ne_nil _ (List.cons_ne_nil _ _)) _).symm
    · conv_rhs => rw [← whole, List.append_assoc]
      exact (parts_append_slash start _).symm ▸ List.prefix_append _ _

/-- The head and the tail of a path have its parts. -/
theorem split_parts (p : PosixPath) : (split p).1.parts ++ parts (split p).2 = p.parts := by
  have whole : p.rdropWhile (· ≠ '/') ++ p.rtakeWhile (· ≠ '/') = p :=
    List.rdropWhile_append_rtakeWhile
  unfold split
  dsimp only
  rw [(trimHead_place _).2]
  rcases rdropWhile_slash p with none | ⟨start, head⟩
  · rw [none, List.nil_append] at whole
    rw [none, whole]
    rfl
  · rw [head, parts_slash, ← parts_append_slash]
    conv_rhs => rw [← whole, head, List.append_assoc]
    rfl

theorem split_length (p : PosixPath) : (split p).1.length + (split p).2.length ≤ p.length := by
  have whole : (p.rdropWhile (· ≠ '/')).length + (p.rtakeWhile (· ≠ '/')).length = p.length := by
    rw [← List.length_append, List.rdropWhile_append_rtakeWhile]
  have trimmed : (trimHead (p.rdropWhile (· ≠ '/'))).length ≤ (p.rdropWhile (· ≠ '/')).length := by
    unfold trimHead stripSlashes
    split
    · exact (List.rdropWhile_prefix _ _).length_le
    · exact Nat.le_refl _
  exact Nat.le_trans (Nat.add_le_add_right trimmed _) whole.le

/-- A head that ends in a slash is nothing but slashes. -/
theorem split_slash (p : PosixPath) (slash : (split p).1.getLast? = some '/') :
    (split p).1.parts = [] := by
  unfold split trimHead at slash ⊢
  dsimp only at slash ⊢
  split at slash
  · next inner =>
    have nonempty : stripSlashes (p.rdropWhile (· ≠ '/')) ≠ [] := fun empty => by
      rw [empty] at slash
      cases slash
    have last := List.rdropWhile_last_not (· = '/') _ nonempty
    rw [List.getLast?_eq_getLast_of_ne_nil nonempty] at slash
    exact absurd (decide_eq_true (Option.some.inj slash)) last
  · next outer =>
    rw [if_neg outer]
    by_cases empty : p.rdropWhile (· ≠ '/') = []
    · rw [empty]
      rfl
    · have all : ∀ c ∈ p.rdropWhile (· ≠ '/'), c = '/' := by
        intro c member
        by_contra other
        exact outer ⟨empty, List.any_eq_true.mpr ⟨c, member, decide_eq_true other⟩⟩
      exact parts_slashes [] all

theorem split_plain (p : PosixPath) : '/' ∉ (split p).2 := by
  intro member
  have other := List.mem_rtakeWhile_imp member
  simp at other

/-- What comes behind a slash, or behind nothing. -/
theorem rtakeWhile_behind {front : PosixPath} (ends : front = [] ∨ front.getLast? = some '/')
    (relative : '/' ∉ b) : (front ++ b).rtakeWhile (· ≠ '/') = b := by
  induction b using List.reverseRecOn with
  | nil =>
    rw [List.append_nil]
    rcases ends with rfl | last
    · rfl
    · obtain ⟨start, rfl⟩ := List.getLast?_eq_some_iff.mp last
      exact List.rtakeWhile_concat_neg _ _ _ (by simp)
  | append_singleton init c inductionHypothesis =>
    have other : c ≠ '/' := by
      rintro rfl
      exact relative (List.mem_append_right _ List.mem_cons_self)
    rw [← List.append_assoc, List.rtakeWhile_concat, if_pos (decide_eq_true other),
      inductionHypothesis fun member => relative (List.mem_append_left _ member)]

/-- The tail of a join. -/
theorem split_join (a : PosixPath) (relative : '/' ∉ b) : (split (join a b)).2 = b := by
  have plain : b.isAbsolute = false := decide_eq_false fun slash =>
    relative (List.mem_of_mem_head? slash)
  unfold split join
  rw [plain, if_neg Bool.false_ne_true]
  split_ifs with ends
  · exact rtakeWhile_behind ends relative
  · rw [show a ++ '/' :: b = (a ++ ['/']) ++ b by simp]
    exact rtakeWhile_behind (Or.inr (by simp)) relative

/-! ## Moving about -/

variable {dest child : PosixPath}

theorem below_refl (dest : PosixPath) : Below dest dest :=
  ⟨rfl, [], (List.append_nil _).symm, List.not_mem_nil⟩

theorem above_refl (dest : PosixPath) : Above dest dest := ⟨rfl, List.prefix_refl _⟩

theorem Below.trans (first : Below dest child) (second : Below child p) : Below dest p := by
  obtain ⟨absolute, rest, place, down⟩ := first
  obtain ⟨absolute', rest', place', down'⟩ := second
  refine ⟨absolute'.trans absolute, rest ++ rest', ?_, fun member => ?_⟩
  · rw [place', place, List.append_assoc]
  · rcases List.mem_append.mp member with here | further
    · exact down here
    · exact down' further

theorem Above.trans (first : Above dest child) (second : Above child p) : Above dest p :=
  ⟨second.1.trans first.1, second.2.trans first.2⟩

/-- What is above a place below the destination is below the destination or above it. -/
theorem Below.above (below : Below dest child) (above : Above child p) :
    Below dest p ∨ Above dest p := by
  obtain ⟨absolute, rest, place, down⟩ := below
  obtain ⟨absolute', start⟩ := above
  have inside : dest.parts <+: child.parts := place ▸ List.prefix_append _ _
  rcases List.prefix_or_prefix_of_prefix start inside with shorter | longer
  · exact Or.inr ⟨absolute'.trans absolute, shorter⟩
  · obtain ⟨between, middle⟩ := longer
    rw [place, ← middle, List.prefix_append_right_inj] at start
    exact Or.inl ⟨absolute'.trans absolute, between, middle.symm,
      fun member => down (start.subset member)⟩

/-- Joining a relative path without double dots moves down. -/
theorem join_below (dest : PosixPath) (relative : b.isAbsolute = false) (down : dotDot ∉ b.parts) :
    Below dest (join dest b) :=
  ⟨isAbsolute_join relative, b.parts, parts_join relative, down⟩

/-- Joining a name other than `..` keeps a path from going up. -/
theorem Direct.join {absolute : Bool} (direct : Direct absolute a) (plain : parts b = [b])
    (down : b ≠ dotDot) : Direct absolute (join a b) := by
  have relative : b.isAbsolute = false := isAbsolute_of_parts plain
  refine ⟨(isAbsolute_join relative).trans direct.1, fun up => ?_⟩
  rw [parts_join relative, plain] at up
  rcases List.mem_append.mp up with above | last
  · exact direct.2 above
  · exact down (List.mem_singleton.mp last).symm

end

end PosixPath
