import C900.Fs.BlockVisits
import C900.Fs.Pool

/-!
# The rebuilt free list

`rebuild_free_list` frees the unused blocks from the highest to the lowest. The
first one ends up at the bottom of the chain and keeps its old bytes, so the list
that results is open. It hands out the unused blocks in ascending order and then
runs out exactly when those bytes read as an exhausted link.
-/

namespace C900

/-! ## The starting point -/

section Start

variable {fs : CoherentFs} {image : Image} {rep : FsckReport}

/-- A visit leaves the bounds of the report alone. -/
theorem checkVisit_bounds (ino : Nat) (state : FsckReport × List (Nat × Nat)) (visit : Visit) :
    (checkVisit ino state visit).1.isize = state.1.isize ∧
      (checkVisit ino state visit).1.fsize = state.1.fsize := by
  obtain ⟨rep, owner⟩ := state
  dsimp only [checkVisit]
  split
  · exact ⟨rfl, rfl⟩
  · cases owner.lookup visit.1 with
    | none => exact ⟨rfl, rfl⟩
    | some first => exact ⟨rfl, rfl⟩

/-- A report of `check_blocks` carries the superblock's bounds, and they are
plausible. -/
theorem CoherentFs.checkBlocks_bounds (passes : fs.checkBlocks image = .ok rep) :
    rep.isize = (image.readBlock (fs.partOff + 1)).get16 sbIsize ∧
      rep.fsize = (image.readBlock (fs.partOff + 1)).get32 sbFsize ∧
      2 ≤ rep.isize ∧ rep.isize < rep.fsize := by
  unfold CoherentFs.checkBlocks at passes
  dsimp only at passes
  split at passes
  · cases passes
  case isFalse sane =>
    -- The scan changes the other fields only.
    let Bounds (state : FsckReport × List (Nat × Nat)) : Prop :=
      state.1.isize = (image.readBlock (fs.partOff + 1)).get16 sbIsize ∧
        state.1.fsize = (image.readBlock (fs.partOff + 1)).get32 sbFsize
    have visits : ∀ ino visits state, Bounds state →
        Bounds (List.foldl (checkVisit ino) state visits) := by
      intro ino visits state bounds
      refine List.foldlRecOn (motive := Bounds) _ _ bounds fun s kept visit _ => ?_
      obtain ⟨isize, fsize⟩ := checkVisit_bounds ino s visit
      exact ⟨isize.trans kept.1, fsize.trans kept.2⟩
    have scan : ∀ owners state, Bounds state →
        Bounds (List.foldl (fun state (ino, inode) =>
          (fs.walkInodeBlocks image inode).foldl (checkVisit ino) state) state owners) :=
      fun owners state bounds => List.foldlRecOn (motive := Bounds) _ _ bounds
        fun s kept owner _ => visits owner.1 _ s kept
    cases passes
    have low : 2 ≤ (image.readBlock (fs.partOff + 1)).get16 sbIsize := by omega
    have high : (image.readBlock (fs.partOff + 1)).get16 sbIsize <
        (image.readBlock (fs.partOff + 1)).get32 sbFsize := by omega
    obtain ⟨isize, fsize⟩ := scan (fs.blockOwners image _)
      (fs.startReport image ((image.readBlock (fs.partOff + 1)).get16 sbIsize)
        ((image.readBlock (fs.partOff + 1)).get32 sbFsize), []) ⟨rfl, rfl⟩
    exact ⟨isize, fsize, low.trans_eq isize.symm,
      (Eq.trans_lt isize high).trans_eq fsize.symm⟩

/-- A superblock with a plausible `isize` lies in the image: past its end every
field reads 0. -/
theorem Image.hasBlock_of_isize {bno : Nat} (data : 2 ≤ (image.readBlock bno).get16 sbIsize) :
    image.hasBlock bno = true := by
  by_contra outside
  have zeros : (image.readBlock bno).get16 sbIsize = 0 := by
    simp [Buffer.get16, Image.readBlock, outside]
  omega

/-- The emptied superblock has no free blocks. -/
theorem emptiedSb_view (sb : Buffer) (freeInodes now : Nat) :
    ∃ free, SbIs (emptiedSb sb freeInodes now) (sb.get16 sbIsize) (sb.get32 sbFsize) 0 free 0 := by
  have self : SbIs sb (sb.get16 sbIsize) (sb.get32 sbFsize) (sb.get16 sbNfree)
      (fun i => sb.get32 (sbFree + i * 4)) (sb.get32 sbTfree) :=
    ⟨rfl, rfl, rfl, fun _ _ => rfl, rfl⟩
  obtain ⟨free, cleared⟩ : ∃ free, SbIs
      (forUpTo nicFree (fun i sb => sb.set32 (sbFree + i * 4) 0) (sb.set16 sbNfree 0))
      (sb.get16 sbIsize) (sb.get32 sbFsize) 0 free (sb.get32 sbTfree) := by
    refine forUpTo.invariant (fun _ (s : Buffer) => ∃ free, SbIs s (sb.get16 sbIsize)
      (sb.get32 sbFsize) 0 free (sb.get32 sbTfree)) nicFree ?_ ?_
    · exact ⟨_, self.setNfree (by omega)⟩
    · rintro i s small ⟨free, view⟩
      exact ⟨_, view.setEntry small (by omega)⟩
  refine ⟨free, SbIs.touchSb ?_ now⟩
  refine (cleared.setTfree 0).congr fun i inside => ?_
  unfold sbNinode sbTfree sbTinode at inside
  rw [Buffer.set8_apply_of_ne (by unfold sbIlock; omega),
    Buffer.set8_apply_of_ne (by unfold sbFlock; omega),
    Buffer.set16_apply_of_ne (by unfold sbTinode; omega),
    Buffer.set16_apply_of_ne (by unfold sbNinode; omega)]

/-- A rebuild of a partition that passes the check empties the superblock and
frees the unused blocks from the highest down. -/
theorem CoherentFs.rebuildFreeList_run (passes : fs.checkBlocks image = .ok rep) (now : Nat)
    (clock : Nat → Nat) :
    ∃ emptied free, fs.SbOnly image emptied ∧ fs.Sees emptied rep.isize rep.fsize 0 free 0 ∧
      fs.rebuildFreeList now clock image =
        match fs.freeAll clock (fs.unusedBlocks image rep).reverse emptied with
        | .ok () after => .ok rep after
        | .error e after => .error e after := by
  obtain ⟨isize, fsize, data, _⟩ := CoherentFs.checkBlocks_bounds passes
  have inside : image.hasBlock (fs.partOff + 1) = true :=
    Image.hasBlock_of_isize (isize ▸ data)
  obtain ⟨free, view⟩ := emptiedSb_view (image.readBlock (fs.partOff + 1)) rep.freeInodes now
  obtain ⟨emptied, write, only, sees⟩ := CoherentFs.writeSb_sees inside view
  rw [← isize, ← fsize] at sees
  refine ⟨emptied, free, only, sees, ?_⟩
  unfold CoherentFs.rebuildFreeList
  simp only [FsM.bind_apply, FsM.get_apply, passes, CoherentFs.readSb_apply, write,
    List.filter_reverse, FsM.pure_apply]
  unfold CoherentFs.unusedBlocks
  cases fs.freeAll clock _ emptied with
  | ok _ _ => rfl
  | error _ _ => rfl

end Start

/-! ## Freeing block after block -/

section FreeAll

variable {fs : CoherentFs} {isize fsize c : Nat}

/-- The blocks that a sequence of frees may write: the superblock and the freed
ones. -/
def CoherentFs.Freed (fs : CoherentFs) (todo : List Nat) (bno : Nat) : Prop :=
  bno = fs.partOff + 1 ∨ ∃ b ∈ todo, bno = fs.partOff + b

/-- Continue an open list. Up to 64 blocks the cache is never full, and from then
on a freed block has to be in the image. -/
theorem CoherentFs.freeAll_holds (data : 2 ≤ isize) (clock : Nat → Nat) {todo : List Nat}
    {image : Image} {nfree tfree : Nat} {done : List Nat}
    (holds : fs.Holds image isize fsize (some c) nfree tfree done)
    (count : done.length ≤ nicFree → nfree = done.length) (distinct : (todo ++ done).Nodup)
    (inArea : ∀ b ∈ todo, isize ≤ b ∧ b < fsize)
    (room : ∀ b ∈ todo.drop (nicFree - done.length), image.hasBlock (fs.partOff + b) = true) :
    ∃ after n, fs.freeAll clock todo image = .ok () after ∧
      Image.AgreeExcept (fs.Freed todo) image after ∧
      fs.Holds after isize fsize (some c) n ((tfree + todo.length) % 2 ^ 32)
        (todo.reverse ++ done) ∧
      (done.length + todo.length ≤ nicFree → n = done.length + todo.length) := by
  induction todo generalizing image nfree tfree done with
  | nil =>
    obtain ⟨bound, free, sees, chain⟩ := holds
    have small : (tfree + 0) % 2 ^ 32 = tfree := by
      rw [← sees.view.tfree]
      exact Nat.mod_eq_of_lt (Buffer.get32_lt ..)
    refine ⟨image, nfree, rfl, Image.AgreeExcept.refl _ _, ?_, count⟩
    rw [List.length_nil, small]
    exact ⟨bound, free, sees, chain⟩
  | cons b rest inductionHypothesis =>
    have fresh : b ∉ done := by
      intro mem
      exact (List.nodup_cons.mp distinct).1 (List.mem_append_right _ mem)
    have roomHead : nfree = nicFree → image.hasBlock (fs.partOff + b) = true := by
      intro full
      have none : nicFree - done.length = 0 := by
        by_contra some
        have exactCount := count (by omega)
        omega
      rw [none] at room
      exact room b List.mem_cons_self
    have nonempty : nfree = 0 → EmptyLink (image.readBlock (fs.partOff + b)) := by
      intro zero
      have noEntries := count
      obtain ⟨_, _, _, chain⟩ := holds
      subst zero
      cases chain with
      | empty closed => cases closed
    obtain ⟨mid, call, only, holds'⟩ :=
      holds.freeBlock data (inArea b List.mem_cons_self) fresh roomHead nonempty (clock b)
    have count' : (b :: done).length ≤ nicFree → pushCount nfree = (b :: done).length := by
      intro small
      rw [List.length_cons] at small ⊢
      have before := count (by omega)
      rw [pushCount, if_neg (by omega), before]
    have distinct' : (rest ++ b :: done).Nodup :=
      (List.perm_middle.nodup_iff).mpr distinct
    have room' : ∀ d ∈ rest.drop (nicFree - (b :: done).length),
        mid.hasBlock (fs.partOff + d) = true := by
      intro d mem
      rw [only.hasBlock]
      apply room
      rw [List.length_cons] at mem
      by_cases small : done.length < nicFree
      · have step : nicFree - done.length = (nicFree - (done.length + 1)) + 1 := by omega
        rw [step, List.drop_succ_cons]
        exact mem
      · have zero : nicFree - (done.length + 1) = 0 := by omega
        have zero' : nicFree - done.length = 0 := by omega
        rw [zero, List.drop_zero] at mem
        rw [zero', List.drop_zero]
        exact List.mem_cons_of_mem _ mem
    obtain ⟨after, n, calls, changed, holds'', counted⟩ := inductionHypothesis holds' count'
      distinct' (fun d mem => inArea d (List.mem_cons_of_mem _ mem)) room'
    refine ⟨after, n, ?_, ?_, ?_, ?_⟩
    · rw [CoherentFs.freeAll, FsM.bind_apply, call]
      exact calls
    · refine Image.AgreeExcept.trans (only.mono ?_) (changed.mono ?_)
      · rintro bno (sb | freed)
        · exact Or.inl sb
        · exact Or.inr ⟨b, List.mem_cons_self, freed⟩
      · rintro bno (sb | ⟨d, mem, eq⟩)
        · exact Or.inl sb
        · exact Or.inr ⟨d, List.mem_cons_of_mem _ mem, eq⟩
    · have total : (tfree + (b :: rest).length) % 2 ^ 32 =
          ((tfree + 1) % 2 ^ 32 + rest.length) % 2 ^ 32 := by
        rw [List.length_cons]
        omega
      rw [total, List.reverse_cons, List.append_assoc]
      exact holds''
    · rw [List.length_cons] at counted ⊢
      intro small
      have value := counted (by omega)
      omega

/-- Free a sequence of blocks from an empty list: the first one is the bottom of
the open list that results. -/
theorem CoherentFs.freeAll_first (data : 2 ≤ isize) (clock : Nat → Nat) {todo : List Nat}
    {image : Image} {free : Nat → Nat} (sees : fs.Sees image isize fsize 0 free 0)
    (distinct : (c :: todo).Nodup) (inArea : ∀ b ∈ c :: todo, isize ≤ b ∧ b < fsize)
    (room : ∀ b ∈ (c :: todo).drop nicFree, image.hasBlock (fs.partOff + b) = true) :
    ∃ after n, fs.freeAll clock (c :: todo) image = .ok () after ∧
      Image.AgreeExcept (fs.Freed todo) image after ∧
      fs.Holds after isize fsize (some c) n ((todo.length + 1) % 2 ^ 32) (todo.reverse ++ [c]) ∧
      (todo.length + 1 ≤ nicFree → n = todo.length + 1) := by
  obtain ⟨mid, call, only, holds⟩ :=
    sees.freeBlock_first data (inArea c List.mem_cons_self) (clock c)
  obtain ⟨after, n, calls, changed, holds', counted⟩ :=
    CoherentFs.freeAll_holds data clock holds (fun _ => rfl)
      (List.perm_append_singleton c todo |>.nodup_iff.mpr distinct)
      (fun b mem => inArea b (List.mem_cons_of_mem _ mem))
      (fun b mem => by
        rw [only.hasBlock]
        exact room b mem)
  refine ⟨after, n, ?_, ?_, ?_, ?_⟩
  · rw [CoherentFs.freeAll, FsM.bind_apply, call]
    exact calls
  · exact Image.AgreeExcept.trans (Image.AgreeExcept.mono only fun _ sb => Or.inl sb) changed
  · have total : (todo.length + 1) % 2 ^ 32 = ((0 + 1) % 2 ^ 32 + todo.length) % 2 ^ 32 := by omega
    rw [total]
    exact holds'
  · intro small
    have value := counted (by rw [List.length_singleton]; omega)
    rw [List.length_singleton] at value
    omega

/-- Freeing a sequence after another one. -/
theorem CoherentFs.freeAll_append (clock : Nat → Nat) (first second : List Nat) {image mid : Image}
    (call : fs.freeAll clock first image = .ok () mid) :
    fs.freeAll clock (first ++ second) image = fs.freeAll clock second mid := by
  induction first generalizing image with
  | nil =>
    cases call
    rfl
  | cons b rest inductionHypothesis =>
    rw [CoherentFs.freeAll, FsM.bind_apply] at call
    rw [List.cons_append, CoherentFs.freeAll, FsM.bind_apply]
    cases freed : fs.freeBlock (clock b) b image with
    | ok _ next =>
      rw [freed] at call
      exact inductionHypothesis call
    | error e next =>
      rw [freed] at call
      cases call

end FreeAll

/-! ## Draining an open list -/

section Drain

variable {fs : CoherentFs} {isize fsize c : Nat}

/-- An open list of one block has that block in the last cache entry. -/
theorem CoherentFs.Holds.single {image : Image} {nfree tfree : Nat}
    (holds : fs.Holds image isize fsize (some c) nfree tfree [c]) :
    ∃ free, fs.Sees image isize fsize 1 free tfree ∧ free 0 = c ∧ c ≠ 0 ∧ isize ≤ c ∧ c < fsize := by
  obtain ⟨bound, free, sees, chain⟩ := holds
  cases chain with
  | entry top nonzero inArea below => exact absurd rfl below.open_ne_nil
  | link top nonzero inArea small count below => exact absurd rfl below.open_ne_nil
  | bottom top nonzero inArea isLast => exact ⟨free, sees, top, nonzero, inArea⟩

/-- An open list that drains ends at a block that reads as an exhausted link. -/
theorem CoherentFs.Holds.emptyLink_of_drains (data : 2 ≤ isize) {front : List Nat} {image : Image}
    {nfree tfree : Nat} (holds : fs.Holds image isize fsize (some c) nfree tfree (front ++ [c]))
    (distinct : c ∉ front) (drains : fs.Drains image (front ++ [c])) :
    EmptyLink (image.readBlock (fs.partOff + c)) := by
  induction front generalizing image nfree tfree with
  | nil =>
    obtain ⟨free, sees, rfl, nonzero, inArea⟩ := holds.single
    obtain ⟨after, call, exhausted⟩ := drains 0
    obtain ⟨last, fails⟩ := exhausted 0
    -- The call returned the block, so its count is one that `alloc_block` accepts.
    by_cases valid : 0 ≤ linkCount (image.readBlock (fs.partOff + free 0)) ∧
        linkCount (image.readBlock (fs.partOff + free 0)) ≤ nicFree
    · obtain ⟨n, count⟩ := Int.eq_ofNat_of_zero_le valid.1
      have small : n ≤ nicFree := by omega
      obtain ⟨refilled, ok, _, sees'⟩ :=
        CoherentFs.allocBlock_link sees nonzero inArea small count 0
      rw [call] at ok
      cases ok
      cases n with
      | zero => exact Or.inl count
      | succ n =>
        by_contra notEmpty
        have top : linkEntry (image.readBlock (fs.partOff + free 0)) n ≠ 0 :=
          fun zero => notEmpty (Or.inr ⟨n, small, count, zero⟩)
        exact CoherentFs.allocBlock_ne_outOfFreeBlocks sees' (by omega) top 0 last fails
    · rw [CoherentFs.allocBlock_badLink sees nonzero inArea (by omega) 0] at call
      cases call
  | cons b rest inductionHypothesis =>
    have ne : some c ≠ some b := by
      rintro eq
      cases eq
      exact distinct List.mem_cons_self
    obtain ⟨mid, n, ok, only, holds'⟩ := holds.allocBlock data ne 0
    obtain ⟨after, call, drains'⟩ := drains 0
    rw [ok] at call
    cases call
    obtain ⟨_, _, _, chain⟩ := id holds
    have low := (chain.inArea c (by simp)).1
    rw [← only.block (fs.partOff + c) (by omega)]
    exact inductionHypothesis holds' (fun mem => distinct (List.mem_cons_of_mem _ mem)) drains'

end Drain

/-! ## The rebuild -/

section Rebuild

variable {fs : CoherentFs} {image : Image} {rep : FsckReport}

/-- The unused blocks ascend. -/
theorem CoherentFs.unusedBlocks_ascending (fs : CoherentFs) (image : Image) (rep : FsckReport) :
    (fs.unusedBlocks image rep).Pairwise (· < ·) :=
  List.Pairwise.filter _ (List.pairwise_lt_range' ..)

theorem CoherentFs.unusedBlocks_inArea (b : Nat) (mem : b ∈ fs.unusedBlocks image rep) :
    rep.isize ≤ b ∧ b < rep.fsize := by
  have range := List.mem_range'_1.mp (List.mem_filter.mp mem).1
  omega

/-- When the 65th highest of an ascending list of blocks is in the image, so are
all below it. -/
theorem hasBlock_drop {list : List Nat} (ascending : list.Pairwise (· < ·)) (k : Nat)
    (first : ∀ b, list.reverse[k]? = some b → image.hasBlock (fs.partOff + b) = true) :
    ∀ b ∈ list.reverse.drop k, image.hasBlock (fs.partOff + b) = true := by
  have descending : (list.reverse.drop k).Pairwise (fun a b => b < a) :=
    (List.pairwise_reverse.mpr ascending).sublist (List.drop_sublist k _)
  have head : (list.reverse.drop k).head? = list.reverse[k]? := List.head?_drop
  intro b mem
  cases rest : list.reverse.drop k with
  | nil =>
    rw [rest] at mem
    cases mem
  | cons d rest' =>
    rw [rest] at mem descending head
    have highest := first d head.symm
    rcases List.mem_cons.mp mem with rfl | later
    · exact highest
    · have below := (List.pairwise_cons.mp descending).1 b later
      exact Image.hasBlock_mono (by omega) highest

/-- A sequence of frees from an empty list fails when the 65th block is outside
the image. -/
theorem CoherentFs.freeAll_outside {isize fsize c : Nat} (data : 2 ≤ isize) (clock : Nat → Nat)
    {todo : List Nat} {free : Nat → Nat} (sees : fs.Sees image isize fsize 0 free 0)
    (distinct : (c :: todo).Nodup) (inArea : ∀ b ∈ c :: todo, isize ≤ b ∧ b < fsize) {b : Nat}
    (index : (c :: todo)[nicFree]? = some b) (outside : image.hasBlock (fs.partOff + b) = false)
    (after : Image) : fs.freeAll clock (c :: todo) image ≠ .ok () after := by
  obtain ⟨bound, value⟩ := List.getElem?_eq_some_iff.mp index
  have split : c :: todo = (c :: todo).take nicFree ++ b :: (c :: todo).drop (nicFree + 1) := by
    rw [← value, List.getElem_cons_drop, List.take_append_drop]
  have front : (c :: todo).take nicFree = c :: todo.take 63 := rfl
  have length : (todo.take 63).length = 63 := by
    rw [List.length_cons, nicFree] at bound
    rw [List.length_take]
    omega
  have sub : (c :: todo.take 63).Sublist (c :: todo) := (List.take_sublist 63 todo).cons_cons c
  obtain ⟨mid, n, call, changed, holds, counted⟩ := CoherentFs.freeAll_first data clock sees
    (distinct.sublist sub) (fun d mem => inArea d (sub.subset mem))
    (fun d mem => by
      have none : (c :: todo.take 63).drop nicFree = [] := by
        apply List.drop_eq_nil_of_le
        rw [List.length_cons, length, nicFree]
      rw [none] at mem
      cases mem)
  obtain ⟨_, _, sees', _⟩ := holds
  rw [counted (by rw [length, nicFree])] at sees'
  have inAreaB := inArea b (List.mem_of_getElem? index)
  rw [length] at sees'
  have fails := CoherentFs.freeBlock_spillOutside sees' (by omega) inAreaB
    (by rw [changed.hasBlock]; exact outside) (clock b)
  rw [split, front, CoherentFs.freeAll_append clock _ _ call, CoherentFs.freeAll, FsM.bind_apply,
    fails]
  exact nofun

/-- With no unused block the rebuilt list is empty. -/
theorem CoherentFs.rebuildFreeList_nil (passes : fs.checkBlocks image = .ok rep)
    (none : fs.unusedBlocks image rep = []) (now : Nat) (clock : Nat → Nat) :
    ∃ after, fs.rebuildFreeList now clock image = .ok rep after ∧
      fs.Holds after rep.isize rep.fsize Option.none 0 0 [] := by
  obtain ⟨emptied, free, only, sees, run⟩ := CoherentFs.rebuildFreeList_run passes now clock
  rw [run, none]
  exact ⟨emptied, rfl, Nat.zero_le _, free, sees, .empty rfl⟩

/-- The first block that a full cache is spilled into, the 65th highest of the
list, lies in the image if there is one. -/
def CoherentFs.SpillFits (fs : CoherentFs) (image : Image) (blocks : List Nat) : Prop :=
  ∀ b, blocks.reverse[nicFree]? = some b → image.hasBlock (fs.partOff + b) = true

/-- With unused blocks, the highest of them being `c`, the rebuild leaves an open
list that ends at `c` and has not touched the bytes of `c`; or it fails, because
the first spill is outside the image. -/
theorem CoherentFs.rebuildFreeList_open (passes : fs.checkBlocks image = .ok rep)
    {front : List Nat} {c : Nat} (split : fs.unusedBlocks image rep = front ++ [c]) (now : Nat)
    (clock : Nat → Nat) :
    (fs.SpillFits image (fs.unusedBlocks image rep) ∧
      ∃ after n, fs.rebuildFreeList now clock image = .ok rep after ∧
      after.readBlock (fs.partOff + c) = image.readBlock (fs.partOff + c) ∧
      fs.Holds after rep.isize rep.fsize (some c) n (front.length + 1) (front ++ [c])) ∨
    (¬ fs.SpillFits image (fs.unusedBlocks image rep) ∧
      ∀ after, fs.rebuildFreeList now clock image ≠ .ok rep after) := by
  obtain ⟨isize, fsize, data, _⟩ := CoherentFs.checkBlocks_bounds passes
  obtain ⟨emptied, free, only, sees, run⟩ := CoherentFs.rebuildFreeList_run passes now clock
  have reversed : (fs.unusedBlocks image rep).reverse = c :: front.reverse := by
    rw [split, List.reverse_append]
    rfl
  have distinct : (c :: front.reverse).Nodup := by
    rw [← reversed, List.nodup_reverse]
    exact (fs.unusedBlocks_ascending image rep).imp fun less => Nat.ne_of_lt less
  have inArea : ∀ b ∈ c :: front.reverse, rep.isize ≤ b ∧ b < rep.fsize := by
    intro b mem
    rw [← reversed, List.mem_reverse] at mem
    exact CoherentFs.unusedBlocks_inArea b mem
  by_cases room : fs.SpillFits image (fs.unusedBlocks image rep)
  · left
    have room' : ∀ b ∈ (c :: front.reverse).drop nicFree,
        emptied.hasBlock (fs.partOff + b) = true := by
      rw [← reversed]
      refine hasBlock_drop (fs.unusedBlocks_ascending image rep) nicFree fun b index => ?_
      rw [only.hasBlock]
      exact room b index
    obtain ⟨after, n, call, changed, holds, _⟩ :=
      CoherentFs.freeAll_first data clock sees distinct inArea room'
    refine ⟨room, after, n, by rw [run, reversed, call], ?_, ?_⟩
    · have inAreaC := inArea c List.mem_cons_self
      rw [changed.block, only.block _ (by omega)]
      rintro (sb | ⟨b, mem, eq⟩)
      · omega
      · have same : c = b := by omega
        exact (List.nodup_cons.mp distinct).1 (same ▸ mem)
    · have few : front.length + 1 < 2 ^ 32 := by
        have bound := Buffer.get32_lt (image.readBlock (fs.partOff + 1)) sbFsize
        have sub := List.length_filter_le (fun b => !(fs.usedBlocks image rep).contains b)
          (List.range' rep.isize (rep.fsize - rep.isize))
        have length := congrArg List.length split
        rw [List.length_append, List.length_singleton] at length
        rw [List.length_range'] at sub
        unfold CoherentFs.unusedBlocks at length
        omega
      rw [List.reverse_reverse, List.length_reverse, Nat.mod_eq_of_lt few] at holds
      exact holds
  · right
    refine ⟨room, fun after rebuilt => ?_⟩
    obtain ⟨b, outside⟩ := not_forall.mp room
    obtain ⟨index, outside⟩ := Classical.not_imp.mp outside
    rw [reversed] at index
    have fails := CoherentFs.freeAll_outside data clock sees distinct inArea index
      (by rw [only.hasBlock]; exact Bool.eq_false_iff.mpr outside)
    rw [run, reversed] at rebuilt
    cases call : fs.freeAll clock (c :: front.reverse) emptied with
    | ok _ last => exact fails last call
    | error e last =>
      rw [call] at rebuilt
      cases rebuilt

end Rebuild

/-- After the rebuild the unused blocks are handed out exactly when the highest of them reads as an
exhausted link and the first spill fits. -/
theorem CoherentFs.rebuildFreeList_unused_iff (fs : CoherentFs) (image : Image) (rep : FsckReport)
    (now : Nat) (clock : Nat → Nat) (passes : fs.checkBlocks image = .ok rep) :
    (∃ after, fs.rebuildFreeList now clock image = .ok rep after ∧
      fs.Drains after (fs.unusedBlocks image rep) ∧
      (after.readBlock (fs.partOff + 1)).get32 sbTfree = (fs.unusedBlocks image rep).length) ↔
    (∀ c, (fs.unusedBlocks image rep).getLast? = some c →
      EmptyLink (image.readBlock (fs.partOff + c))) ∧
      fs.SpillFits image (fs.unusedBlocks image rep) := by
  obtain ⟨_, _, data, _⟩ := CoherentFs.checkBlocks_bounds passes
  have ascending := fs.unusedBlocks_ascending image rep
  rcases List.eq_nil_or_concat' (fs.unusedBlocks image rep) with none | ⟨front, c, split⟩
  · obtain ⟨after, rebuilt, holds⟩ := CoherentFs.rebuildFreeList_nil passes none now clock
    have fits : fs.SpillFits image [] := by
      intro b index
      cases index
    obtain ⟨_, _, sees, _⟩ := id holds
    rw [none]
    exact ⟨fun _ => ⟨nofun, fits⟩, fun _ => ⟨after, rebuilt, holds.drains data, sees.view.tfree⟩⟩
  · have opened := CoherentFs.rebuildFreeList_open passes split now clock
    rw [split] at opened
    have cFresh : c ∉ front := by
      intro mem
      rw [split] at ascending
      have less := (List.pairwise_append.mp ascending).2.2 c mem c (List.mem_singleton.mpr rfl)
      omega
    have onlyLast : ∀ d, (front ++ [c]).getLast? = some d ↔ d = c := by
      intro d
      rw [List.getLast?_concat, Option.some_inj, eq_comm]
    rcases opened with ⟨fits, after, n, rebuilt, kept, holds⟩ | ⟨fails, never⟩
    · rw [split]
      simp only [onlyLast, forall_eq]
      rw [← kept]
      constructor
      · rintro ⟨last, call, drains, _⟩
        rw [rebuilt] at call
        cases call
        exact ⟨holds.emptyLink_of_drains data cFresh drains, fits⟩
      · rintro ⟨empty, _⟩
        obtain ⟨bound, cache, sees, chain⟩ := holds
        have closed : fs.Holds after rep.isize rep.fsize Option.none n _ (front ++ [c]) :=
          ⟨bound, cache, sees, chain.close empty⟩
        refine ⟨after, rebuilt, closed.drains data, ?_⟩
        rw [sees.view.tfree, List.length_append, List.length_singleton]
    · constructor
      · rintro ⟨after, call, _⟩
        exact absurd call (never after)
      · rintro ⟨_, fits⟩
        exact absurd (split ▸ fits) fails

/-! ## The unreferenced blocks -/

/-- The blocks of the data area that no file or directory references, in ascending order. -/
def CoherentFs.unreferencedBlocks (fs : CoherentFs) (image : Image) (isize fsize : Nat) : List Nat :=
  (List.range' isize (fsize - isize)).filter fun b => b ∉ (fs.claims image isize).map Prod.snd

/-- The blocks that the rebuild takes for unused are those that nothing references. -/
theorem CoherentFs.unusedBlocks_eq (fs : CoherentFs) (image : Image) (rep : FsckReport) :
    fs.unusedBlocks image rep = fs.unreferencedBlocks image rep.isize rep.fsize := by
  have visited : ∀ b, (b ∈ (fs.blockOwners image rep.isize).flatMap fun owner =>
      (fs.walkInodeBlocks image owner.2).map Prod.fst) ↔
        b ∈ (fs.claims image rep.isize).map Prod.snd := by
    intro b
    unfold CoherentFs.claims
    rw [List.map_flatMap, List.mem_flatMap, List.mem_flatMap]
    refine exists_congr fun owner => and_congr_right fun member => ?_
    dsimp only
    rw [fs.walkInodeBlocks_references image _ (fs.blockOwners_addrs image member), List.map_map]
    simp
  unfold CoherentFs.unusedBlocks CoherentFs.unreferencedBlocks CoherentFs.usedBlocks
  refine List.filter_congr fun b inArea => ?_
  rw [List.mem_range'_1] at inArea
  have range : rep.isize ≤ b ∧ b < rep.fsize := by omega
  simp only [List.contains_eq_mem, List.mem_filter, visited b, range, and_self, decide_true, and_true,
    decide_not]

/-- After a rebuild of a partition that passes the check, allocation hands out
the unreferenced blocks, each once and in ascending order, then runs out, and the total
count is their number: exactly when the highest unreferenced block reads as an
exhausted link, and the 65th highest, the first one the cache is spilled into,
lies in the image. -/
theorem rebuildFreeList_drains_iff (fs : CoherentFs) (image : Image) (rep : FsckReport)
    (now : Nat) (clock : Nat → Nat) (passes : fs.checkBlocks image = .ok rep) :
    (∃ after, fs.rebuildFreeList now clock image = .ok rep after ∧
      fs.Drains after (fs.unreferencedBlocks image rep.isize rep.fsize) ∧
      (after.readBlock (fs.partOff + 1)).get32 sbTfree =
        (fs.unreferencedBlocks image rep.isize rep.fsize).length) ↔
    (∀ c, (fs.unreferencedBlocks image rep.isize rep.fsize).getLast? = some c →
      EmptyLink (image.readBlock (fs.partOff + c))) ∧
      fs.SpillFits image (fs.unreferencedBlocks image rep.isize rep.fsize) := by
  rw [← fs.unusedBlocks_eq image rep]
  exact fs.rebuildFreeList_unused_iff image rep now clock passes

/-- The report on a partition of three data blocks and no inodes. -/
def threeBlocksReport : FsckReport where
  isize := 2
  fsize := 5
  usedInodes := 0
  freeInodes := 0
  usedBlocks := 0
  freeBlocks := 3
  crossLinked := []
  outOfRange := []

/-- In `staleImage` the highest block is all zeros: the rebuilt list is sound. -/
theorem rebuildFreeList_drains_iff_stale :
    ∃ after, CoherentFs.rebuildFreeList ⟨0⟩ 0 (fun _ => 0) staleImage =
        .ok threeBlocksReport after ∧ CoherentFs.Drains ⟨0⟩ after [2, 3, 4] := by
  have passes : CoherentFs.checkBlocks ⟨0⟩ staleImage = .ok threeBlocksReport := rfl
  have unused : CoherentFs.unreferencedBlocks ⟨0⟩ staleImage 2 5 = [2, 3, 4] := rfl
  have ends : ∀ c, (CoherentFs.unreferencedBlocks ⟨0⟩ staleImage 2 5).getLast? = some c →
      EmptyLink (staleImage.readBlock (0 + c)) := by
    rintro c isLast
    rw [unused] at isLast
    cases isLast
    exact Or.inl (by decide)
  have fits : CoherentFs.SpillFits ⟨0⟩ staleImage
      (CoherentFs.unreferencedBlocks ⟨0⟩ staleImage 2 5) := by
    intro b index
    rw [unused] at index
    cases index
  obtain ⟨after, rebuilt, drains, _⟩ := (rebuildFreeList_drains_iff ⟨0⟩ staleImage
    threeBlocksReport 0 (fun _ => 0) passes).mpr ⟨ends, fits⟩
  exact ⟨after, rebuilt, drains⟩

/-- The same partition with the bytes of a link in its highest block. -/
def staleBottom : Image where
  len := 5 * 512
  byte := fun i =>
    if i = 512 then 2
    else if i = 516 then 5
    else if i = 2048 then 1
    else if i = 2052 then 3
    else 0

/-- `staleBottom` passes the check, and its rebuilt list does not drain to its
three unused blocks. -/
theorem staleBottom_rebuild_fails :
    CoherentFs.checkBlocks ⟨0⟩ staleBottom = .ok threeBlocksReport ∧
      CoherentFs.unreferencedBlocks ⟨0⟩ staleBottom 2 5 = [2, 3, 4] ∧
      ¬ ∃ after, CoherentFs.rebuildFreeList ⟨0⟩ 0 (fun _ => 0) staleBottom =
          .ok threeBlocksReport after ∧ CoherentFs.Drains ⟨0⟩ after [2, 3, 4] := by
  have passes : CoherentFs.checkBlocks ⟨0⟩ staleBottom = .ok threeBlocksReport := rfl
  have split : CoherentFs.unusedBlocks ⟨0⟩ staleBottom threeBlocksReport = [2, 3] ++ [4] := rfl
  refine ⟨passes, rfl, ?_⟩
  rintro ⟨after, rebuilt, drains⟩
  rcases CoherentFs.rebuildFreeList_open passes split 0 (fun _ => 0) with
    ⟨_, after', n, rebuilt', kept, holds⟩ | ⟨_, never⟩
  · rw [rebuilt] at rebuilt'
    cases rebuilt'
    have empty := holds.emptyLink_of_drains (by decide) (by decide) drains
    rw [kept] at empty
    have count : linkCount (staleBottom.readBlock (0 + 4)) = 1 := by decide
    have entry : linkEntry (staleBottom.readBlock (0 + 4)) 0 = 3 := by decide
    rcases empty with zero | ⟨m, _, countEq, zero⟩
    · rw [count] at zero
      cases zero
    · rw [count] at countEq
      have first : m = 0 := by omega
      rw [first, entry] at zero
      cases zero
  · exact never after rebuilt

end C900
