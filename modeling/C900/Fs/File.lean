import C900.Fs.Check
import Mathlib.Data.List.Basic

/-!
# File contents

The read side of `disk.py`: `file_blocks` and `read_file`. Its walk over the
pointer blocks is a second one, beside `walk_inode_blocks`, which the check uses.
`walkIndirect_related` runs the two side by side: they pass the same logical
blocks, and every block that the read side looks at is one the check visits.
-/

namespace C900

/-! ## Reading a file -/

/-- The list that `file_blocks` builds: absolute block numbers, `none` for `HOLE`. -/
abbrev BlockList := List (Option Nat)

/-- A block number of an inode or pointer block as a list entry. -/
def CoherentFs.absolute (fs : CoherentFs) (b : Nat) : Option Nat :=
  if b ≠ 0 then some (fs.partOff + b) else none

/-- `_walk_indirect`. -/
def CoherentFs.walkIndirect (fs : CoherentFs) (image : Image) (need : Nat) :
    Nat → Nat → BlockList → BlockList
  | 0, _, out => out
  | depth + 1, bno, out =>
    if need ≤ out.length then out
    else if bno = 0 then
      forUpTo (span (depth + 1)) (fun _ out =>
        if need ≤ out.length then out else out ++ [none]) out
    else
      let blk := image.readBlock (fs.partOff + bno)
      forUpTo indirectCount (fun i out =>
        if need ≤ out.length then out
        else
          let entry := blk.get32 (i * 4)
          if depth = 0 then out ++ [fs.absolute entry]
          else fs.walkIndirect image need depth entry out) out

/-- `file_blocks`. -/
def CoherentFs.fileBlocks (fs : CoherentFs) (image : Image) (inode : Inode) : BlockList :=
  let need := (inode.size + blockSize - 1) / blockSize
  let direct := (inode.addrs.take nDirect).foldl (fun blocks b =>
    if need ≤ blocks.length then blocks else blocks ++ [fs.absolute b]) []
  let addr := fun j => inode.addrs.getD j 0
  let single := fs.walkIndirect image need 1 (addr 10) direct
  let double := fs.walkIndirect image need 2 (addr 11) single
  fs.walkIndirect image need 3 (addr 12) double

/-- The bytes of a list entry; a hole reads as zeros. -/
def Image.readEntry (image : Image) (b : Option Nat) : Buffer :=
  match b with
  | none => fun _ => 0
  | some bno => image.readBlock bno

/-- The loop body of `read_file`, on the bytes so far and their number to go. -/
def Image.readStep (image : Image) (state : List (BitVec 8) × Nat) (b : Option Nat) : List (BitVec 8) × Nat :=
  if state.2 = 0 then state
  else
    let take := min blockSize state.2
    (state.1 ++ (List.range take).map (image.readEntry b), state.2 - take)

/-- `read_file`. -/
def CoherentFs.readFile (fs : CoherentFs) (image : Image) (inode : Inode) : List (BitVec 8) :=
  ((fs.fileBlocks image inode).foldl image.readStep ([], inode.size)).1

/-! ## The two walks -/

section Walks

variable (fs : CoherentFs) (need : Nat)

/-- What the walk of the check and the list of the read side have in common:
position, and blocks. -/
structure CoherentFs.Follows (walk : Walk) (out : BlockList) : Prop where
  within : walk.2 ≤ need
  length : out.length = walk.2
  visited : ∀ b, some b ∈ out → ∃ visit ∈ walk.1, b = fs.partOff + visit.1

/-- Filling up with holes. -/
theorem fillHoles_length (n : Nat) (out : BlockList) (within : out.length ≤ need) :
    (forUpTo n (fun _ (out : BlockList) => if need ≤ out.length then out else out ++ [none])
      out).length = min need (out.length + n) ∧
    ∀ b, some b ∈ forUpTo n (fun _ (out : BlockList) =>
      if need ≤ out.length then out else out ++ [none]) out → some b ∈ out := by
  refine forUpTo.invariant (fun i (s : BlockList) => s.length = min need (out.length + i) ∧
    ∀ b, some b ∈ s → some b ∈ out) n ⟨by omega, fun b mem => mem⟩ ?_
  rintro i s - ⟨length, holes⟩
  split
  · exact ⟨by omega, holes⟩
  · refine ⟨by rw [List.length_append, List.length_singleton]; omega, fun b mem => ?_⟩
    rcases List.mem_append.mp mem with old | new
    · exact holes b old
    · simp at new

/-- A walk below a pointer block that reads as zeros only passes holes. -/
theorem CoherentFs.walkIndirect_zeros (image : Image) (depth bno : Nat) (out : BlockList)
    (within : out.length ≤ need) (zeros : image.readBlock (fs.partOff + bno) = fun _ => 0) :
    (fs.walkIndirect image need (depth + 1) bno out).length =
      min need (out.length + span (depth + 1)) ∧
    ∀ b, some b ∈ fs.walkIndirect image need (depth + 1) bno out → some b ∈ out := by
  rw [walkIndirect]
  split
  · exact ⟨by omega, fun b mem => mem⟩
  split
  · exact fillHoles_length need _ out within
  · dsimp only
    rw [zeros]
    have entries : ∀ i, Buffer.get32 (fun _ => 0) (i * 4) = 0 := fun i => rfl
    have rounds : span (depth + 1) = indirectCount * span depth := by
      rw [span, span, Nat.pow_succ, Nat.mul_comm]
    rw [rounds]
    refine forUpTo.invariant (fun i (s : BlockList) =>
      s.length = min need (out.length + i * span depth) ∧ ∀ b, some b ∈ s → some b ∈ out)
      indirectCount ⟨by omega, fun b mem => mem⟩ ?_
    rintro i s - ⟨length, holes⟩
    have next : (i + 1) * span depth = i * span depth + span depth := Nat.succ_mul i _
    have some : 1 ≤ span depth := Nat.one_le_pow _ _ (by decide)
    rw [entries]
    split
    · exact ⟨by omega, holes⟩
    split
    · rename_i leaf
      subst leaf
      have one : span 0 = 1 := rfl
      refine ⟨by rw [List.length_append, List.length_singleton]; omega, fun b mem => ?_⟩
      rcases List.mem_append.mp mem with old | new
      · exact holes b old
      · simp [absolute] at new
    · rename_i inner
      obtain ⟨d, rfl⟩ : ∃ d, depth = d + 1 := ⟨depth - 1, by omega⟩
      rw [walkIndirect, if_neg (by omega), if_pos rfl]
      obtain ⟨filled, stays⟩ := fillHoles_length need (span (d + 1)) s (by omega)
      exact ⟨by rw [filled]; omega, fun b mem => holes b (stays b mem)⟩

/-- Two images hold the same bytes in a block of the partition. -/
def CoherentFs.SameBlock (image other : Image) (rel : Nat) : Prop :=
  other.readBlock (fs.partOff + rel) = image.readBlock (fs.partOff + rel)

/-- A hole is filled without a look at the image. -/
theorem CoherentFs.walkIndirect_hole (image other : Image) (depth : Nat) (out : BlockList) :
    fs.walkIndirect other need depth 0 out = fs.walkIndirect image need depth 0 out := by
  cases depth with
  | zero => rfl
  | succ depth => simp only [walkIndirect, if_true]

/-- Below a pointer block that reads as zeros on both images the lists are equal. -/
theorem CoherentFs.walkIndirect_zeros_same (image other : Image) (depth bno : Nat)
    (out : BlockList) (zeros : image.readBlock (fs.partOff + bno) = fun _ => 0)
    (still : other.readBlock (fs.partOff + bno) = fun _ => 0) :
    fs.walkIndirect other need (depth + 1) bno out =
      fs.walkIndirect image need (depth + 1) bno out := by
  have entries : ∀ i, Buffer.get32 (fun _ => 0) (i * 4) = 0 := fun i => rfl
  simp only [walkIndirect, zeros, still, entries, fs.walkIndirect_hole need image other]

/-- The check's walk, the read side and the read side on another image, after
some steps from a walk that had made the visits `start`: the other image gives
the same list if it has the visited blocks. -/
structure CoherentFs.Abreast (image other : Image) (start : List Visit) (walk : Walk)
    (out otherOut : BlockList) : Prop where
  kept : ∀ visit ∈ start, visit ∈ walk.1
  follows : fs.Follows need walk out
  same : (∀ visit ∈ walk.1, fs.SameBlock image other visit.1) → otherOut = out

section Steps

variable {fs : CoherentFs} {need : Nat} {image other : Image} {start : List Visit} {walk : Walk}
  {out otherOut : BlockList}

theorem CoherentFs.Follows.abreast (follows : fs.Follows need walk out) :
    fs.Abreast need image other walk.1 walk out out :=
  ⟨fun _ mem => mem, follows, fun _ => rfl⟩

theorem CoherentFs.Abreast.fewer {less : List Visit}
    (abreast : fs.Abreast need image other start walk out otherOut)
    (sub : ∀ visit ∈ less, visit ∈ start) :
    fs.Abreast need image other less walk out otherOut :=
  ⟨fun visit mem => abreast.kept visit (sub visit mem), abreast.follows, abreast.same⟩

/-- Go on with a step that treats the two images alike once the visited blocks
agree. -/
theorem CoherentFs.Abreast.trans {walk' : Walk} {out' otherOut' : BlockList}
    (step : BlockList → BlockList) (abreast : fs.Abreast need image other start walk out otherOut)
    (further : fs.Abreast need image other walk.1 walk' out' (step out))
    (alike : (∀ visit ∈ walk'.1, fs.SameBlock image other visit.1) → otherOut' = step otherOut) :
    fs.Abreast need image other start walk' out' otherOut' := by
  refine ⟨fun visit mem => further.kept visit (abreast.kept visit mem), further.follows,
    fun all => ?_⟩
  rw [alike all, abreast.same fun visit mem => all visit (further.kept visit mem)]
  exact further.same all

/-- The visit of one data block, or a hole of one block. -/
theorem CoherentFs.Follows.leaf {visits : List Visit} {got : Nat}
    (follows : fs.Follows need (visits, got) out) (goOn : got < need) (entry : Nat) :
    (∀ visit ∈ visits, visit ∈ if entry ≠ 0 then visits ++ [(entry, false)] else visits) ∧
      fs.Follows need (if entry ≠ 0 then visits ++ [(entry, false)] else visits, got + 1)
        (out ++ [fs.absolute entry]) := by
  obtain ⟨within, length, visited⟩ := follows
  refine ⟨fun visit mem => ?_, ⟨goOn, ?_, fun b mem => ?_⟩⟩
  · split
    · exact List.mem_append_left _ mem
    · exact mem
  · rw [List.length_append, List.length_singleton, length]
  · unfold CoherentFs.absolute at mem
    split at mem
    · rename_i used
      simp only [if_pos used]
      rcases List.mem_append.mp mem with old | new
      · obtain ⟨visit, member, value⟩ := visited b old
        exact ⟨visit, List.mem_append_left _ member, value⟩
      · refine ⟨(entry, false), List.mem_append_right _ (List.mem_singleton_self _), ?_⟩
        exact Option.some.inj (List.mem_singleton.mp new)
    · rename_i unused
      simp only [if_neg unused]
      rcases List.mem_append.mp mem with old | new
      · exact visited b old
      · cases List.mem_singleton.mp new

end Steps

/-- What the read side does with one entry of a pointer block. -/
def CoherentFs.passEntry (image : Image) (depth entry : Nat) (out : BlockList) : BlockList :=
  if need ≤ out.length then out
  else if depth = 0 then out ++ [fs.absolute entry]
  else fs.walkIndirect image need depth entry out

/-- The two walks below a pointer block, and the read side on another image. -/
theorem CoherentFs.walkIndirect_abreast (image other : Image) (depth bno : Nat) (walk : Walk)
    (out : BlockList) (follows : fs.Follows need walk out) :
    fs.Abreast need image other walk.1 (fs.walkIndirectBlocks image need depth bno walk)
      (fs.walkIndirect image need depth bno out) (fs.walkIndirect other need depth bno out) := by
  induction depth generalizing bno walk out with
  | zero => exact follows.abreast
  | succ depth inductionHypothesis =>
    obtain ⟨visits, got⟩ := walk
    obtain ⟨within, length, visited⟩ := id follows
    dsimp only at within length visited ⊢
    by_cases full : need ≤ got
    · have stop : need ≤ out.length := by omega
      simp only [walkIndirectBlocks, walkIndirect, if_pos full, if_pos stop]
      exact follows.abreast
    have goOn : ¬ need ≤ out.length := by omega
    by_cases hole : bno = 0
    · obtain ⟨filled, stays⟩ := fillHoles_length need (span (depth + 1)) out (by omega)
      simp only [walkIndirectBlocks, walkIndirect, if_neg full, if_neg goOn, if_pos hole]
      refine ⟨fun _ mem => mem, ⟨Nat.min_le_left _ _, ?_, fun b mem => visited b (stays b mem)⟩,
        fun _ => rfl⟩
      rw [filled, length]
    by_cases outside : image.len < (fs.partOff + bno + 1) * blockSize
    · -- The check stops at a pointer block past the image, the read side finds zeros.
      have zeros : image.readBlock (fs.partOff + bno) = fun _ => 0 := by
        funext i
        have missing : image.hasBlock (fs.partOff + bno) = false := by
          rw [Image.hasBlock, decide_eq_false_iff_not, ← Nat.succ_mul]
          exact Nat.not_le.mpr outside
        rw [Image.readBlock, if_neg (by simp [missing])]
      obtain ⟨passed, stays⟩ := fs.walkIndirect_zeros need image depth bno out (by omega) zeros
      simp only [walkIndirectBlocks, if_neg full, if_neg hole, if_pos outside]
      refine ⟨fun _ mem => List.mem_append_left _ mem,
        ⟨Nat.min_le_left _ _, by rw [passed, length], fun b mem => ?_⟩, fun same => ?_⟩
      · obtain ⟨visit, member, value⟩ := visited b (stays b mem)
        exact ⟨visit, List.mem_append_left _ member, value⟩
      · have block := same (bno, true) (List.mem_append_right _ (List.mem_singleton_self _))
        exact fs.walkIndirect_zeros_same need image other depth bno out zeros (block.trans zeros)
    · simp only [walkIndirectBlocks, walkIndirect, if_neg full, if_neg goOn, if_neg hole,
        if_neg outside]
      refine CoherentFs.Abreast.fewer ?_ fun visit mem =>
        (List.mem_append_left _ mem : visit ∈ visits ++ [(bno, true)])
      -- All three loops pass the same entries, for the pointer block itself is visited.
      refine forUpTo.related₃ (fun _ => fs.Abreast need image other (visits ++ [(bno, true)]))
        indirectCount ⟨fun _ mem => mem, ⟨within, length, fun b mem => ?_⟩, fun _ => rfl⟩ ?_
      · obtain ⟨visit, member, value⟩ := visited b mem
        exact ⟨visit, List.mem_append_left _ member, value⟩
      rintro i ⟨visits', got'⟩ out' otherOut' - abreast
      have here := abreast.kept (bno, true) (List.mem_append_right _ (List.mem_singleton_self _))
      obtain ⟨_, length', _⟩ := abreast.follows
      dsimp only at here length'
      have further : fs.Abreast need image other visits'
          (if got' < need then
            if depth = 0 then
              (if (image.readBlock (fs.partOff + bno)).get32 (i * 4) ≠ 0 then
                visits' ++ [((image.readBlock (fs.partOff + bno)).get32 (i * 4), false)]
                else visits', got' + 1)
            else fs.walkIndirectBlocks image need depth
              ((image.readBlock (fs.partOff + bno)).get32 (i * 4)) (visits', got')
          else (visits', got'))
          (fs.passEntry need image depth ((image.readBlock (fs.partOff + bno)).get32 (i * 4)) out')
          (fs.passEntry need other depth ((image.readBlock (fs.partOff + bno)).get32 (i * 4))
            out') := by
        by_cases goOn' : got' < need
        · have goOnOut : ¬ need ≤ out'.length := by omega
          simp only [passEntry, if_pos goOn', if_neg goOnOut]
          by_cases leaf : depth = 0
          · simp only [if_pos leaf]
            obtain ⟨kept, follows'⟩ := abreast.follows.leaf goOn'
              ((image.readBlock (fs.partOff + bno)).get32 (i * 4))
            exact ⟨kept, follows', fun _ => rfl⟩
          · simp only [if_neg leaf]
            exact inductionHypothesis _ _ _ abreast.follows
        · have stop : need ≤ out'.length := by omega
          simp only [passEntry, if_neg goOn', if_pos stop]
          exact abreast.follows.abreast
      refine CoherentFs.Abreast.trans _ abreast further fun all => ?_
      have block : fs.SameBlock image other bno := all (bno, true) (further.kept _ here)
      rw [block]
      rfl

/-- The direct blocks. -/
theorem CoherentFs.direct_follows (entries : List Nat) (walk : Walk) (out : BlockList)
    (follows : fs.Follows need walk out) :
    fs.Follows need
      (entries.foldl (fun (visits, got) b =>
        if need ≤ got then (visits, got)
        else (if b ≠ 0 then visits ++ [(b, false)] else visits, got + 1)) walk)
      (entries.foldl (fun blocks b =>
        if need ≤ blocks.length then blocks else blocks ++ [fs.absolute b]) out) := by
  induction entries generalizing walk out with
  | nil => exact follows
  | cons b rest inductionHypothesis =>
    obtain ⟨visits, got⟩ := walk
    obtain ⟨within, length, visited⟩ := id follows
    dsimp only at within length
    rw [List.foldl_cons, List.foldl_cons]
    refine inductionHypothesis _ _ ?_
    by_cases full : need ≤ got
    · have stop : need ≤ out.length := by omega
      simp only [if_pos full, if_pos stop]
      exact follows
    · have goOn : ¬ need ≤ out.length := by omega
      simp only [if_neg full, if_neg goOn]
      exact (follows.leaf (Nat.not_le.mp full) b).2

end Walks

/-! ## Whole files -/

section Files

variable (fs : CoherentFs) {image other : Image} (inode : Inode)

/-- The blocks that `file_blocks` lists are among those that `walk_inode_blocks`
visits, and if another image has the visited blocks then it gives the same list. -/
theorem CoherentFs.fileBlocks_visited (image other : Image) :
    (∀ b, some b ∈ fs.fileBlocks image inode →
      ∃ visit ∈ fs.walkInodeBlocks image inode, b = fs.partOff + visit.1) ∧
    ((∀ visit ∈ fs.walkInodeBlocks image inode, fs.SameBlock image other visit.1) →
      fs.fileBlocks other inode = fs.fileBlocks image inode) := by
  have direct := fs.direct_follows ((inode.size + blockSize - 1) / blockSize)
    (inode.addrs.take nDirect) ([], 0) [] ⟨Nat.zero_le _, rfl, nofun⟩
  have single := fs.walkIndirect_abreast _ image other 1 (inode.addrs.getD 10 0) _ _ direct
  have double := fs.walkIndirect_abreast _ image other 2 (inode.addrs.getD 11 0) _ _
    single.follows
  have triple := fs.walkIndirect_abreast _ image other 3 (inode.addrs.getD 12 0) _ _
    double.follows
  have all := CoherentFs.Abreast.trans (fs.walkIndirect other _ 3 (inode.addrs.getD 12 0))
    (CoherentFs.Abreast.trans (fs.walkIndirect other _ 2 (inode.addrs.getD 11 0)) single double
      fun _ => rfl) triple fun _ => rfl
  exact ⟨all.follows.visited, all.same⟩

/-- `read_file` looks only at the blocks that the check visits. -/
theorem CoherentFs.readFile_same
    (all : ∀ visit ∈ fs.walkInodeBlocks image inode, fs.SameBlock image other visit.1) :
    fs.readFile other inode = fs.readFile image inode := by
  obtain ⟨visited, same⟩ := fs.fileBlocks_visited inode image other
  unfold CoherentFs.readFile
  rw [same all]
  congr 1
  refine List.foldl_ext _ _ _ fun state b mem => ?_
  have entry : other.readEntry b = image.readEntry b := by
    cases b with
    | none => rfl
    | some b =>
      obtain ⟨visit, member, value⟩ := visited b mem
      subst value
      exact all visit member
  unfold Image.readStep
  rw [entry]

end Files

end C900
