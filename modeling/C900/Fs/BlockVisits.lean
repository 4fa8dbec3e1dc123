import C900.Fs.BlockMap

/-!
# The visits of the check

`walk_inode_blocks` visits the blocks at the places of the block map that begin below the size,
each pointer block before those below it. The position of a visit is the number of logical
blocks passed before it; for a data block that is its logical index. The visits are the references
of the inode.
-/

namespace C900

open PointerTree

/-! ## Positions -/

/-- A visit with the logical position at which it is made. -/
abbrev Mark := Nat × Visit

/-- `_walk_indirect_blocks`, with the position of each visit. -/
def CoherentFs.markIndirectBlocks (fs : CoherentFs) (image : Image) (need : Nat) :
    Nat → Nat → List Mark × Nat → List Mark × Nat
  | 0, _, walk => walk
  | depth + 1, bno, (marks, got) =>
    if need ≤ got then (marks, got)
    else if bno = 0 then (marks, min need (got + span (depth + 1)))
    else
      let marks := marks ++ [(got, bno, true)]
      if image.len < (fs.partOff + bno + 1) * blockSize then
        (marks, min need (got + span (depth + 1)))
      else
        let blk := image.readBlock (fs.partOff + bno)
        forUpTo indirectCount (fun i (marks, got) =>
          if got < need then
            let entry := blk.get32 (i * 4)
            if depth = 0 then
              (if entry ≠ 0 then marks ++ [(got, entry, false)] else marks, got + 1)
            else fs.markIndirectBlocks image need depth entry (marks, got)
          else (marks, got)) (marks, got)

/-- `walk_inode_blocks`, with the position of each visit. -/
def CoherentFs.markInodeBlocks (fs : CoherentFs) (image : Image) (inode : Inode) : List Mark :=
  let need := (inode.size + blockSize - 1) / blockSize
  let direct := (inode.addrs.take nDirect).foldl (fun (marks, got) b =>
    if need ≤ got then (marks, got)
    else (if b ≠ 0 then marks ++ [(got, b, false)] else marks, got + 1))
    (([], 0) : List Mark × Nat)
  let addr := fun j => inode.addrs.getD j 0
  let single := fs.markIndirectBlocks image need 1 (addr 10) direct
  let double := fs.markIndirectBlocks image need 2 (addr 11) single
  (fs.markIndirectBlocks image need 3 (addr 12) double).1

/-- A walk without the positions. -/
def unmarked (walk : List Mark × Nat) : Walk := (walk.1.map Prod.snd, walk.2)

section Unmarked

variable (fs : CoherentFs) (image : Image) (need : Nat)

theorem CoherentFs.walkIndirectBlocks_unmarked (depth bno : Nat) (walk : List Mark × Nat) :
    fs.walkIndirectBlocks image need depth bno (unmarked walk) =
      unmarked (fs.markIndirectBlocks image need depth bno walk) := by
  induction depth generalizing bno walk with
  | zero => rfl
  | succ depth inductionHypothesis =>
    obtain ⟨marks, got⟩ := walk
    unfold unmarked walkIndirectBlocks markIndirectBlocks
    dsimp only
    by_cases full : need ≤ got
    · simp only [if_pos full]
    by_cases hole : bno = 0
    · simp only [if_neg full, if_pos hole]
    by_cases outside : image.len < (fs.partOff + bno + 1) * blockSize
    · simp [full, hole, outside]
    simp only [if_neg full, if_neg hole, if_neg outside]
    refine forUpTo.related (fun _ (walk : Walk) (marked : List Mark × Nat) =>
      walk = unmarked marked) indirectCount (by simp [unmarked]) ?_
    rintro i _ ⟨marks', got'⟩ - rfl
    by_cases goOn : got' < need
    · by_cases leaf : depth = 0
      · simp only [unmarked, if_pos goOn, if_pos leaf]
        split_ifs <;> simp
      · simp only [unmarked, if_pos goOn, if_neg leaf]
        exact inductionHypothesis _ (marks', got')
    · simp only [unmarked, if_neg goOn]
      exact if_neg goOn

theorem CoherentFs.direct_unmarked (entries : List Nat) (walk : List Mark × Nat) :
    entries.foldl (fun (visits, got) b =>
      if need ≤ got then (visits, got)
      else (if b ≠ 0 then visits ++ [(b, false)] else visits, got + 1)) (unmarked walk) =
    unmarked (entries.foldl (fun (marks, got) b =>
      if need ≤ got then (marks, got)
      else (if b ≠ 0 then marks ++ [(got, b, false)] else marks, got + 1)) walk) := by
  induction entries generalizing walk with
  | nil => rfl
  | cons b rest inductionHypothesis =>
    obtain ⟨marks, got⟩ := walk
    rw [List.foldl_cons, List.foldl_cons, ← inductionHypothesis]
    congr 1
    unfold unmarked
    dsimp only
    split_ifs <;> simp

/-- The positions are only added to the visits. -/
theorem CoherentFs.walkInodeBlocks_unmarked (inode : Inode) :
    fs.walkInodeBlocks image inode = (fs.markInodeBlocks image inode).map Prod.snd := by
  have none : (([], 0) : Walk) = unmarked ([], 0) := rfl
  unfold walkInodeBlocks markInodeBlocks
  dsimp only
  rw [none, direct_unmarked, walkIndirectBlocks_unmarked, walkIndirectBlocks_unmarked,
    walkIndirectBlocks_unmarked]
  rfl

end Unmarked

/-- The visit of the block at the end of a path from a root of height `d` whose first data
block has position `got`. -/
def CoherentFs.markAt (fs : CoherentFs) (image : Image) (d bno got : Nat) (path : List Nat) :
    Option Mark :=
  let b := follow (fs.entry image) bno path
  if b = 0 then none else some (got + start indirectCount d path, b, decide (path.length < d))

section Walk

variable (fs : CoherentFs) (image : Image) (need : Nat)

/-- The visits below a pointer are those of the node and those below its entries. -/
theorem CoherentFs.marks_succ {d bno t : Nat} (nonzero : bno ≠ 0) (some : t ≠ 0) (got : Nat) :
    (preorder indirectCount (d + 1) t).filterMap (fs.markAt image (d + 1) bno got) =
      (got, bno, true) :: (List.range indirectCount).flatMap fun i =>
        (preorder indirectCount d (t - i * span d)).filterMap
          (fs.markAt image d (fs.entry image bno i) (got + i * span d)) := by
  have here : fs.markAt image (d + 1) bno got [] = Option.some (got, bno, true) := by
    rw [markAt, follow_nil, if_neg nonzero]
    rfl
  rw [preorder_succ some, List.filterMap_cons_some here, List.filterMap_flatMap]
  congr 1
  refine List.flatMap_congr fun i _ => ?_
  rw [List.filterMap_map]
  refine List.filterMap_congr fun path _ => ?_
  rw [Function.comp_apply, markAt, markAt, follow_cons nonzero, List.length_cons, start_cons,
    Nat.add_assoc]
  simp only [Nat.add_lt_add_iff_right]
  rfl

/-- Nothing is visited below a hole. -/
theorem CoherentFs.marks_zero (d t got : Nat) :
    (preorder indirectCount d t).filterMap (fs.markAt image d 0 got) = [] := by
  rw [List.filterMap_eq_nil_iff]
  intro path _
  rw [markAt, follow_zero, if_pos rfl]

/-- A pointer block past the image reads as zeros. -/
theorem CoherentFs.entry_outside {bno : Nat}
    (outside : image.len < (fs.partOff + bno + 1) * blockSize) (i : Nat) :
    fs.entry image bno i = 0 := by
  have missing : image.hasBlock (fs.partOff + bno) = false := by
    rw [Image.hasBlock, decide_eq_false_iff_not, ← Nat.succ_mul]
    exact Nat.not_le.mpr outside
  have zeros : image.readBlock (fs.partOff + bno) = fun _ => 0 := by
    funext k
    rw [Image.readBlock, if_neg (by simp [missing])]
  rw [entry, zeros]
  rfl

/-- The walk below a pointer to a node of height `d` visits the blocks below it, in order, up
to the size. -/
def CoherentFs.MarksBelow (d : Nat) : Prop :=
  ∀ bno (marks : List Mark) got, got ≤ need →
    fs.markIndirectBlocks image need d bno (marks, got) =
      (marks ++ (preorder indirectCount d (need - got)).filterMap (fs.markAt image d bno got),
        min need (got + span d))

variable {fs image need}

/-- The round of the walk for one entry of a pointer block. -/
theorem CoherentFs.markEntry_eq {d : Nat} (deeper : d ≠ 0 → fs.MarksBelow image need d)
    (entry : Nat) (marks : List Mark) (place : Nat) :
    (if min need place < need then
      if d = 0 then
        (if entry ≠ 0 then marks ++ [(min need place, entry, false)] else marks,
          min need place + 1)
      else fs.markIndirectBlocks image need d entry (marks, min need place)
    else (marks, min need place)) =
      (marks ++ (preorder indirectCount d (need - place)).filterMap
        (fs.markAt image d entry place), min need (place + span d)) := by
  by_cases full : place < need
  · have here : min need place = place := by omega
    rw [here, if_pos full]
    by_cases leaf : d = 0
    · subst leaf
      have one : span 0 = 1 := rfl
      rw [if_pos rfl, preorder_leaf (by omega), one, Nat.min_eq_right full, List.filterMap_cons,
        List.filterMap_nil, markAt, follow_nil, start_nil, Nat.add_zero]
      by_cases hole : entry = 0
      · simp [hole]
      · simp [hole]
    · rw [if_neg leaf, deeper leaf entry marks place (by omega)]
  · have none : need - place = 0 := by omega
    have stays : min need place = need := by omega
    have still : min need (place + span d) = need := by omega
    rw [stays, if_neg (Nat.lt_irrefl need), none, preorder_zero, still, List.filterMap_nil,
      List.append_nil]

/-- A node of pointers to nodes of height `d`. -/
theorem CoherentFs.markNode_eq {d : Nat} (deeper : d ≠ 0 → fs.MarksBelow image need d) :
    fs.MarksBelow image need (d + 1) := by
  intro bno marks got within
  by_cases full : need ≤ got
  · have none : need - got = 0 := by omega
    simp only [markIndirectBlocks, if_pos full, none, preorder_zero, List.filterMap_nil,
      List.append_nil]
    congr 1
    omega
  by_cases hole : bno = 0
  · subst hole
    rw [marks_zero, List.append_nil]
    simp only [markIndirectBlocks, if_neg full, if_true]
  rw [fs.marks_succ image hole (by omega)]
  by_cases outside : image.len < (fs.partOff + bno + 1) * blockSize
  · simp only [markIndirectBlocks, if_neg full, if_neg hole, if_pos outside,
      fs.entry_outside image outside, fs.marks_zero image]
    simp
  · simp only [markIndirectBlocks, if_neg full, if_neg hole, if_neg outside]
    have rounds : got + span (d + 1) = got + indirectCount * span d := by
      rw [span, span, Nat.pow_succ, Nat.mul_comm]
    rw [rounds]
    refine Eq.trans ?_ (congrArg (·, _) (List.append_cons marks (got, bno, true) _).symm)
    refine forUpTo.invariant (fun i (walk : List Mark × Nat) => walk =
      (marks ++ [(got, bno, true)] ++ (List.range i).flatMap fun i =>
        (preorder indirectCount d (need - got - i * span d)).filterMap
          (fs.markAt image d (fs.entry image bno i) (got + i * span d)),
        min need (got + i * span d))) indirectCount ?_ ?_
    · simp [within]
    · rintro i _ - rfl
      have left : need - (got + i * span d) = need - got - i * span d := by omega
      have next : got + i * span d + span d = got + (i + 1) * span d := by
        rw [Nat.succ_mul, Nat.add_assoc]
      dsimp only
      rw [markEntry_eq deeper, left, next, List.range_succ, List.flatMap_append,
        List.flatMap_singleton, ← List.append_assoc]
      rfl

theorem CoherentFs.markIndirectBlocks_eq (d : Nat) : fs.MarksBelow image need (d + 1) := by
  induction d with
  | zero => exact markNode_eq fun leaf => absurd rfl leaf
  | succ d inductionHypothesis => exact markNode_eq fun _ => inductionHypothesis

/-! ## The whole inode -/

/-- The mark of the block at a place. -/
def CoherentFs.mark (fs : CoherentFs) (image : Image) (inode : Inode) (p : BlockPlace) :
    Option Mark :=
  let b := fs.pointer image inode p
  if b = 0 then none else some (p.first, b, decide (0 < p.height))

theorem CoherentFs.mark_eq (inode : Inode) (root : Nat) (path : List Nat) :
    fs.mark image inode ⟨root, path⟩ =
      fs.markAt image (rootHeight root) (inode.addrs.getD root 0) (rootStart root) path := by
  simp only [mark, markAt, pointer, BlockPlace.first, BlockPlace.height, Nat.sub_pos_iff_lt]

/-- The visits below the roots up to a number. -/
def CoherentFs.rootMarks (fs : CoherentFs) (image : Image) (inode : Inode) (need roots : Nat) :
    List Mark :=
  (List.range roots).flatMap fun root =>
    (preorder indirectCount (rootHeight root) (need - rootStart root)).filterMap
      (fs.markAt image (rootHeight root) (inode.addrs.getD root 0) (rootStart root))

theorem CoherentFs.rootMarks_succ (inode : Inode) (roots : Nat) :
    fs.rootMarks image inode need (roots + 1) = fs.rootMarks image inode need roots ++
      (preorder indirectCount (rootHeight roots) (need - rootStart roots)).filterMap
        (fs.markAt image (rootHeight roots) (inode.addrs.getD roots 0) (rootStart roots)) := by
  rw [rootMarks, List.range_succ, List.flatMap_append, List.flatMap_singleton]
  rfl

theorem CoherentFs.rootMarks_all (inode : Inode) :
    fs.rootMarks image inode need rootCount =
      (placesBelow need).filterMap (fs.mark image inode) := by
  rw [placesBelow, List.filterMap_flatMap]
  refine List.flatMap_congr fun root _ => ?_
  rw [List.filterMap_map]
  exact List.filterMap_congr fun path _ => (mark_eq inode root path).symm

/-- The direct blocks. -/
theorem CoherentFs.direct_marks (inode : Inode) (roots : Nat) (direct : roots ≤ nDirect) :
    ((List.range roots).map fun root => inode.addrs.getD root 0).foldl (fun (marks, got) b =>
      if need ≤ got then (marks, got)
      else (if b ≠ 0 then marks ++ [(got, b, false)] else marks, got + 1))
      (([], 0) : List Mark × Nat) =
    (fs.rootMarks image inode need roots, min need roots) := by
  induction roots with
  | zero => simp [rootMarks]
  | succ roots inductionHypothesis =>
    have height : rootHeight roots = 0 := Nat.sub_eq_zero_of_le direct
    rw [List.range_succ, List.map_append, List.foldl_append, inductionHypothesis (by omega),
      List.map_singleton, List.foldl_cons, List.foldl_nil, rootMarks_succ, height,
      rootStart_direct (by omega)]
    dsimp only
    by_cases full : need ≤ roots
    · have none : need - roots = 0 := by omega
      have stays : min need roots = need := by omega
      have still : min need (roots + 1) = need := by omega
      rw [none, preorder_zero, stays, still, if_pos (Nat.le_refl need), List.filterMap_nil,
        List.append_nil]
    · have here : min need roots = roots := by omega
      have next : min need (roots + 1) = roots + 1 := by omega
      rw [here, next, if_neg full, preorder_leaf (by omega), List.filterMap_cons,
        List.filterMap_nil, markAt, follow_nil, start_nil, Nat.add_zero]
      generalize inode.addrs.getD roots 0 = b
      by_cases hole : b = 0
      · simp only [hole, ne_eq, not_true_eq_false, if_true, if_false, List.append_nil]
      · simp only [hole, ne_eq, not_false_eq_true, if_true, if_false]
        rfl

/-- The tree at a root. -/
theorem CoherentFs.tree_marks (inode : Inode) {root d : Nat} (height : rootHeight root = d + 1) :
    fs.markIndirectBlocks image need (d + 1) (inode.addrs.getD root 0)
      (fs.rootMarks image inode need root, min need (rootStart root)) =
    (fs.rootMarks image inode need (root + 1), min need (rootStart (root + 1))) := by
  rw [markIndirectBlocks_eq d _ _ _ (Nat.min_le_left _ _), rootMarks_succ, rootStart, height]
  by_cases full : need ≤ rootStart root
  · have stays : min need (rootStart root) = need := by omega
    have still : min need (rootStart root + span (d + 1)) = need := by omega
    have none : need - rootStart root = 0 := by omega
    have ended : min need (need + span (d + 1)) = need := by omega
    rw [stays, still, none, Nat.sub_self, preorder_zero, ended]
    rfl
  · have here : min need (rootStart root) = rootStart root := by omega
    rw [here]

end Walk

/-- `walk_inode_blocks` visits the blocks at the places that begin below the size. -/
theorem CoherentFs.markInodeBlocks_eq (fs : CoherentFs) (image : Image) (inode : Inode)
    (addrs : inode.addrs.length = rootCount) :
    fs.markInodeBlocks image inode =
      (placesBelow ((inode.size + blockSize - 1) / blockSize)).filterMap (fs.mark image inode) := by
  rw [← rootMarks_all]
  unfold markInodeBlocks
  generalize (inode.size + blockSize - 1) / blockSize = need
  have direct := @direct_marks fs image need inode nDirect (Nat.le_refl _)
  have single := @tree_marks fs image need inode 10 0 rfl
  have double := @tree_marks fs image need inode 11 1 rfl
  have triple := @tree_marks fs image need inode 12 2 rfl
  dsimp only
  rw [inode.addrs_take addrs, direct]
  exact congrArg Prod.fst ((congrArg _ ((congrArg _ single).trans double)).trans triple)

/-- Of the visits those of data blocks are in the order of their positions, which are their
logical indices. -/
theorem CoherentFs.markInodeBlocks_data (fs : CoherentFs) (image : Image) (inode : Inode)
    (addrs : inode.addrs.length = rootCount) :
    (fs.markInodeBlocks image inode).filter (fun mark => !mark.2.2) =
      (List.range (min ((inode.size + blockSize - 1) / blockSize) maxBlocks)).filterMap fun idx =>
        let b := fs.pointer image inode (dataPlace idx)
        if b = 0 then none else some (idx, b, false) := by
  have marks : ∀ places : List BlockPlace,
      (places.filterMap (fs.mark image inode)).filter (fun mark => !mark.2.2) =
        (places.filter fun p => p.height = 0).filterMap (fs.mark image inode) := by
    intro places
    rw [List.filter_filterMap, List.filterMap_filter]
    refine List.filterMap_congr fun p _ => ?_
    unfold mark
    dsimp only
    by_cases hole : fs.pointer image inode p = 0
    · simp [hole]
    · by_cases data : p.height = 0
      · simp [hole, data]
      · simp [hole, data, Nat.pos_of_ne_zero data]
  rw [fs.markInodeBlocks_eq image inode addrs, marks, placesBelow_leaves, List.filterMap_map]
  refine List.filterMap_congr fun idx member => ?_
  have small : idx < maxBlocks := by
    have := List.mem_range.mp member
    omega
  obtain ⟨-, leaf, first⟩ := dataPlace_spec small
  rw [Function.comp_apply, mark, leaf, first]
  rfl

/-! ## References -/

/-- The blocks that an inode references, with one entry for each reference, in the order of
their places. -/
def CoherentFs.references (fs : CoherentFs) (image : Image) (inode : Inode) : List Nat :=
  ((placesBelow ((inode.size + blockSize - 1) / blockSize)).map (fs.pointer image inode)).filter
    (· ≠ 0)

/-- A reference of an inode to a block. -/
abbrev Claim := Nat × Nat

/-- The references of all files and directories. -/
def CoherentFs.claims (fs : CoherentFs) (image : Image) (isize : Nat) : List Claim :=
  (fs.blockOwners image isize).flatMap fun (ino, inode) =>
    (fs.references image inode).map (Prod.mk ino)

section References

variable (fs : CoherentFs) (image : Image)

theorem CoherentFs.blockOwners_addrs {isize : Nat} {owner : Nat × Inode}
    (member : owner ∈ fs.blockOwners image isize) : owner.2.addrs.length = rootCount := by
  obtain ⟨i, _, found⟩ := List.mem_filterMap.mp member
  cases stat : fs.stat image (i + 1) with
  | none =>
    rw [stat] at found
    cases found
  | some inode =>
    rw [stat] at found
    dsimp only at found
    split_ifs at found
    obtain rfl := Option.some.inj found
    exact CoherentFs.stat_addrs stat

/-- The walk visits the references. -/
theorem CoherentFs.walkInodeBlocks_references (inode : Inode)
    (addrs : inode.addrs.length = rootCount) :
    (fs.walkInodeBlocks image inode).map Prod.fst = fs.references image inode := by
  rw [walkInodeBlocks_unmarked, markInodeBlocks_eq fs image inode addrs, List.map_map,
    List.map_filterMap, references, List.filter_map, ← List.filterMap_eq_map,
    List.filterMap_filter]
  refine List.filterMap_congr fun p _ => ?_
  unfold mark
  by_cases hole : fs.pointer image inode p = 0
  · simp [hole]
  · simp [hole]

end References

end C900
