import C900.Fs.Superblock
import Mathlib.Data.Finset.Card
import Mathlib.Data.Set.Insert
import Mathlib.Logic.Relation

/-!
# The free list is a stack

`Chain` reads the free list off an image: the cache from its top entry down,
then the cache in the block the lowest entry names, and so on. On a well-formed
list `alloc_block` pops and `free_block` pushes, provided the block that is
freed into an empty cache holds bytes that read as an exhausted link: it becomes
the bottom of the chain, and nothing is written to it.
-/

namespace C900

/-- The bytes of the block read as a link with nothing on it. -/
def EmptyLink (block : Buffer) : Prop :=
  linkCount block = 0 ∨
    ∃ n, n + 1 ≤ nicFree ∧ linkCount block = (n + 1 : Nat) ∧ linkEntry block n = 0

/-- The free list of a partition, from a cache of `n` entries down. A closed list
(`last = none`) ends at an exhausted cache. An open list ends at the block that
`last` names, whatever the bytes of that block are. -/
inductive Chain (fs : CoherentFs) (image : Image) (isize fsize : Nat) (last : Option Nat) :
    Nat → (Nat → Nat) → List Nat → Prop where
  | empty {free} (closed : last = none) : Chain fs image isize fsize last 0 free []
  | sentinel {n free} (closed : last = none) (zero : free n = 0) :
      Chain fs image isize fsize last (n + 1) free []
  | entry {n free b rest} (top : free (n + 1) = b) (nonzero : b ≠ 0) (inArea : isize ≤ b ∧ b < fsize)
      (below : Chain fs image isize fsize last (n + 1) free rest) :
      Chain fs image isize fsize last (n + 2) free (b :: rest)
  | link {n free b rest} (top : free 0 = b) (nonzero : b ≠ 0) (inArea : isize ≤ b ∧ b < fsize)
      (small : n ≤ nicFree) (count : linkCount (image.readBlock (fs.partOff + b)) = n)
      (below : Chain fs image isize fsize last n
        (linkEntry (image.readBlock (fs.partOff + b))) rest) :
      Chain fs image isize fsize last 1 free (b :: rest)
  | bottom {free b} (top : free 0 = b) (nonzero : b ≠ 0) (inArea : isize ≤ b ∧ b < fsize)
      (isLast : last = some b) : Chain fs image isize fsize last 1 free [b]

section Chains

variable {fs : CoherentFs} {image : Image} {isize fsize : Nat} {last : Option Nat} {n : Nat}
  {free : Nat → Nat} {list : List Nat}

/-- A list whose lowest entry is the sentinel is closed. -/
theorem Chain.closed (chain : Chain fs image isize fsize last n free list) (zero : free 0 = 0) :
    last = none := by
  induction chain with
  | empty closed | sentinel closed => exact closed
  | entry top nonzero inArea below inductionHypothesis => exact inductionHypothesis zero
  | link top nonzero | bottom top nonzero => exact absurd (top.symm.trans zero) nonzero

/-- Every block of the list is a data block. -/
theorem Chain.inArea (chain : Chain fs image isize fsize last n free list) :
    ∀ b ∈ list, isize ≤ b ∧ b < fsize := by
  induction chain with
  | empty | sentinel => simp
  | entry top nonzero inArea below inductionHypothesis
  | link top nonzero inArea small count below inductionHypothesis =>
    intro b mem
    rcases List.mem_cons.mp mem with rfl | later
    · exact inArea
    · exact inductionHypothesis b later
  | bottom top nonzero inArea isLast =>
    intro b mem
    rw [List.mem_singleton.mp mem]
    exact inArea

/-- The list depends on the cache entries below the count and on the blocks that
are on it. -/
theorem Chain.congr (chain : Chain fs image isize fsize last n free list) {other : Image}
    {cache : Nat → Nat} (entries : ∀ i < n, cache i = free i)
    (blocks : ∀ b ∈ list, other.readBlock (fs.partOff + b) = image.readBlock (fs.partOff + b)) :
    Chain fs other isize fsize last n cache list := by
  induction chain generalizing cache with
  | empty closed => exact .empty closed
  | sentinel closed zero => exact .sentinel closed ((entries _ (Nat.lt_succ_self _)).trans zero)
  | entry top nonzero inArea below inductionHypothesis =>
    refine .entry ((entries _ (by omega)).trans top) nonzero inArea (inductionHypothesis ?_ ?_)
    · exact fun i small => entries i (by omega)
    · exact fun b mem => blocks b (List.mem_cons_of_mem _ mem)
  | link top nonzero inArea small count below inductionHypothesis =>
    have same := blocks _ List.mem_cons_self
    refine .link ((entries 0 (by omega)).trans top) nonzero inArea small (by rw [same]; exact count)
      (inductionHypothesis ?_ ?_)
    · intro i _
      rw [same]
    · exact fun b mem => blocks b (List.mem_cons_of_mem _ mem)
  | bottom top nonzero inArea isLast =>
    exact .bottom ((entries 0 (by omega)).trans top) nonzero inArea isLast

/-- An exhausted link is the end of a closed list. -/
theorem EmptyLink.chain {block : Buffer} (empty : EmptyLink block) :
    ∃ n ≤ nicFree, linkCount block = n ∧
      Chain fs image isize fsize none n (linkEntry block) [] := by
  rcases empty with none | ⟨n, small, count, zero⟩
  · exact ⟨0, Nat.zero_le _, none, .empty rfl⟩
  · exact ⟨n + 1, small, count, .sentinel rfl zero⟩

/-- An open list is closed when its last block holds an exhausted link. -/
theorem Chain.close {c : Nat} (chain : Chain fs image isize fsize (some c) n free list)
    (empty : EmptyLink (image.readBlock (fs.partOff + c))) :
    Chain fs image isize fsize none n free list := by
  induction chain with
  | empty closed => cases closed
  | sentinel closed zero => cases closed
  | entry top nonzero inArea below inductionHypothesis =>
    exact .entry top nonzero inArea inductionHypothesis
  | link top nonzero inArea small count below inductionHypothesis =>
    exact .link top nonzero inArea small count inductionHypothesis
  | bottom top nonzero inArea isLast =>
    cases isLast
    obtain ⟨n, small, count, below⟩ := empty.chain
    exact .link top nonzero inArea small count below

/-- An open list is not empty. -/
theorem Chain.open_ne_nil {c : Nat} (chain : Chain fs image isize fsize (some c) n free list) :
    list ≠ [] := by
  rintro rfl
  cases chain with
  | empty closed => cases closed
  | sentinel closed zero => cases closed

end Chains

/-- The partition's free list is `list`: `nfree` entries in the cache, and a
total count of `tfree`. -/
def CoherentFs.Holds (fs : CoherentFs) (image : Image) (isize fsize : Nat) (last : Option Nat)
    (nfree tfree : Nat) (list : List Nat) : Prop :=
  nfree ≤ nicFree ∧ ∃ free, fs.Sees image isize fsize nfree free tfree ∧
    Chain fs image isize fsize last nfree free list

section Specs

variable {fs : CoherentFs} {image : Image} {isize fsize nfree tfree : Nat} {last : Option Nat}
  {list : List Nat} {b : Nat}

/-- `alloc_block` pops the list. -/
theorem CoherentFs.Holds.allocBlock (data : 2 ≤ isize)
    (holds : fs.Holds image isize fsize last nfree tfree (b :: list)) (notLast : last ≠ some b)
    (now : Nat) :
    ∃ after n, fs.allocBlock now image = .ok b after ∧ fs.SbOnly image after ∧
      fs.Holds after isize fsize last n (tfree - 1) list := by
  obtain ⟨bound, free, sees, chain⟩ := holds
  -- No block of the list is the superblock.
  have kept : ∀ {after : Image}, fs.SbOnly image after → ∀ c ∈ b :: list,
      after.readBlock (fs.partOff + c) = image.readBlock (fs.partOff + c) := by
    intro after only c mem
    have low := (chain.inArea c mem).1
    exact only.block _ (by omega)
  cases chain with
  | entry top nonzero inArea below =>
    subst top
    obtain ⟨after, call, only, sees'⟩ :=
      CoherentFs.allocBlock_entry sees (by omega) nonzero inArea now
    refine ⟨after, _, call, only, by omega, free, sees', below.congr (fun _ _ => rfl) ?_⟩
    exact fun c mem => kept only c (List.mem_cons_of_mem _ mem)
  | link top nonzero inArea small count below =>
    subst top
    obtain ⟨after, call, only, sees'⟩ :=
      CoherentFs.allocBlock_link sees nonzero inArea small count now
    refine ⟨after, _, call, only, small, _, sees', below.congr (fun _ _ => rfl) ?_⟩
    exact fun c mem => kept only c (List.mem_cons_of_mem _ mem)
  | bottom top nonzero inArea isLast => exact absurd isLast notLast

/-- On an empty list `alloc_block` runs out of blocks, and the list stays
empty. -/
theorem CoherentFs.Holds.allocBlock_nil
    (holds : fs.Holds image isize fsize none nfree tfree []) (now : Nat) :
    ∃ after n, fs.allocBlock now image = .error .outOfFreeBlocks after ∧ fs.SbOnly image after ∧
      fs.Holds after isize fsize none n tfree [] := by
  obtain ⟨bound, free, sees, chain⟩ := holds
  cases chain with
  | empty closed =>
    exact ⟨image, 0, CoherentFs.allocBlock_empty sees now, Image.AgreeExcept.refl _ _, bound, free,
      sees, .empty rfl⟩
  | sentinel closed zero =>
    obtain ⟨after, call, only, sees'⟩ :=
      CoherentFs.allocBlock_sentinel sees (by omega) zero now
    exact ⟨after, 0, call, only, Nat.zero_le _, free, sees', .empty rfl⟩

/-- The count of cache entries after a push. -/
def pushCount (nfree : Nat) : Nat := if nfree = nicFree then 1 else nfree + 1

/-- `free_block` pushes onto the list. A full cache needs the block to be in the
image; an empty cache needs it to read as an exhausted link. -/
theorem CoherentFs.Holds.freeBlock (data : 2 ≤ isize)
    (holds : fs.Holds image isize fsize last nfree tfree list) (inArea : isize ≤ b ∧ b < fsize)
    (fresh : b ∉ list) (room : nfree = nicFree → image.hasBlock (fs.partOff + b) = true)
    (ends : nfree = 0 → EmptyLink (image.readBlock (fs.partOff + b))) (now : Nat) :
    ∃ after, fs.freeBlock now b image = .ok () after ∧
      Image.AgreeExcept (fun bno => bno = fs.partOff + 1 ∨ bno = fs.partOff + b) image after ∧
      fs.Holds after isize fsize last (pushCount nfree) ((tfree + 1) % 2 ^ 32) (b :: list) := by
  obtain ⟨bound, free, sees, chain⟩ := holds
  have nonzero : b ≠ 0 := by omega
  by_cases full : nfree = nicFree
  · subst full
    obtain ⟨after, call, only, sees', count, entries⟩ :=
      CoherentFs.freeBlock_spill sees nonzero (by omega) inArea (room rfl) now
    refine ⟨after, call, only, by decide, _, sees', ?_⟩
    refine .link (Function.update_self ..) nonzero inArea (Nat.le_refl _) count ?_
    refine chain.congr entries fun c mem => ?_
    have low := (chain.inArea c mem).1
    have ne : c ≠ b := fun same => fresh (same ▸ mem)
    exact only.block _ (by omega)
  · obtain ⟨after, call, only, sees'⟩ :=
      CoherentFs.freeBlock_push sees (by omega) nonzero inArea now
    rw [pushCount, if_neg full]
    refine ⟨after, call, Image.AgreeExcept.mono only fun _ eq => Or.inl eq, by omega, _, sees', ?_⟩
    have kept : ∀ c, isize ≤ c →
        after.readBlock (fs.partOff + c) = image.readBlock (fs.partOff + c) :=
      fun c low => only.block _ (by omega)
    cases nfree with
    | zero =>
      cases chain with
      | empty closed =>
        subst closed
        have empty := ends rfl
        rw [← kept b inArea.1] at empty
        obtain ⟨n, small, count, below⟩ := empty.chain
        exact .link (Function.update_self ..) nonzero inArea small count below
    | succ n =>
      refine .entry (Function.update_self ..) nonzero inArea (chain.congr ?_ ?_)
      · intro i small
        exact Function.update_of_ne (by omega) ..
      · exact fun c mem => kept c (chain.inArea c mem).1

/-- The first block freed into an empty cache is an open list. -/
theorem CoherentFs.Sees.freeBlock_first {free : Nat → Nat} (data : 2 ≤ isize)
    (sees : fs.Sees image isize fsize 0 free tfree) (inArea : isize ≤ b ∧ b < fsize) (now : Nat) :
    ∃ after, fs.freeBlock now b image = .ok () after ∧ fs.SbOnly image after ∧
      fs.Holds after isize fsize (some b) 1 ((tfree + 1) % 2 ^ 32) [b] := by
  have nonzero : b ≠ 0 := by omega
  obtain ⟨after, call, only, sees'⟩ :=
    CoherentFs.freeBlock_push sees (by decide) nonzero inArea now
  exact ⟨after, call, only, by decide, _, sees',
    .bottom (Function.update_self ..) nonzero inArea rfl⟩

/-- Blocks outside the superblock and the list may change freely. -/
theorem CoherentFs.Holds.congr (holds : fs.Holds image isize fsize last nfree tfree list)
    {other : Image} (len : other.len = image.len)
    (sb : other.readBlock (fs.partOff + 1) = image.readBlock (fs.partOff + 1))
    (blocks : ∀ b ∈ list, other.readBlock (fs.partOff + b) = image.readBlock (fs.partOff + b)) :
    fs.Holds other isize fsize last nfree tfree list := by
  obtain ⟨bound, free, sees, chain⟩ := holds
  refine ⟨bound, free, ⟨?_, ?_⟩, chain.congr (fun _ _ => rfl) blocks⟩
  · have inside := sees.inside
    unfold Image.hasBlock at inside ⊢
    rw [len]
    exact inside
  · rw [sb]
    exact sees.view

end Specs

end C900
