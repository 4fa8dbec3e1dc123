import C900.Fs.File
import C900.Logic.PointerTree

/-!
# The block map of an inode

An inode reaches its blocks through thirteen roots: ten data blocks and three trees of pointer
blocks, one, two and three levels high. A place is a root and a path below it; the places are
numbered by the logical index of the first data block below them. `file_blocks` lists
the pointers at the data places below the size.
-/

namespace C900

open PointerTree

/-! ## Places -/

/-- The number of addresses in an inode. -/
def rootCount : Nat := 13

/-- The height of the tree at a root; a data block has none. -/
def rootHeight (root : Nat) : Nat := root + 1 - nDirect

/-- The logical index of the first data block below a root. -/
def rootStart : Nat → Nat
  | 0 => 0
  | root + 1 => rootStart root + span (rootHeight root)

/-- The number of data blocks of the largest file. -/
def maxBlocks : Nat := rootStart rootCount

/-- A place in the block map. -/
structure BlockPlace where
  root : Nat
  path : List Nat
deriving DecidableEq

namespace BlockPlace

/-- The slots exist. -/
def Valid (p : BlockPlace) : Prop := p.root < rootCount ∧ IsPath indirectCount (rootHeight p.root) p.path

/-- The logical index of the first data block below the place. -/
def first (p : BlockPlace) : Nat :=
  rootStart p.root + start indirectCount (rootHeight p.root) p.path

/-- The levels of pointers below the place. -/
def height (p : BlockPlace) : Nat := rootHeight p.root - p.path.length

/-- The place at a slot of the pointer block. -/
def slot (p : BlockPlace) (i : Nat) : BlockPlace := ⟨p.root, p.path ++ [i]⟩

end BlockPlace

/-- The places that begin below logical index `t`. -/
def placesBelow (t : Nat) : List BlockPlace :=
  (List.range rootCount).flatMap fun root =>
    (preorder indirectCount (rootHeight root) (t - rootStart root)).map (BlockPlace.mk root)

/-- An entry of a pointer block. -/
def CoherentFs.entry (fs : CoherentFs) (image : Image) (bno slot : Nat) : Nat :=
  (image.readBlock (fs.partOff + bno)).get32 (slot * 4)

/-- The block at a place, 0 for a hole. -/
def CoherentFs.pointer (fs : CoherentFs) (image : Image) (inode : Inode) (p : BlockPlace) : Nat :=
  follow (fs.entry image) (inode.addrs.getD p.root 0) p.path

section Places

theorem indirectCount_pos : 0 < indirectCount := by decide

theorem rootStart_direct {root : Nat} (direct : root ≤ nDirect) : rootStart root = root := by
  induction root with
  | zero => rfl
  | succ root inductionHypothesis =>
    have height : rootHeight root = 0 := Nat.sub_eq_zero_of_le direct
    rw [rootStart, inductionHypothesis (Nat.le_of_succ_le direct), height]
    rfl

theorem rootStart_mono {low high : Nat} (le : low ≤ high) : rootStart low ≤ rootStart high := by
  induction le with
  | refl => exact Nat.le_refl _
  | step _ inductionHypothesis => exact inductionHypothesis.trans (Nat.le_add_right _ _)

theorem mem_placesBelow {t : Nat} {p : BlockPlace} : p ∈ placesBelow t ↔ p.Valid ∧ p.first < t := by
  obtain ⟨root, path⟩ := p
  have inside : (⟨root, path⟩ : BlockPlace) ∈ placesBelow t ↔ root < rootCount ∧
      path ∈ preorder indirectCount (rootHeight root) (t - rootStart root) := by
    simp only [placesBelow, List.mem_flatMap, List.mem_range, List.mem_map, BlockPlace.mk.injEq]
    constructor
    · rintro ⟨_, small, _, member, rfl, rfl⟩
      exact ⟨small, member⟩
    · exact fun ⟨small, member⟩ => ⟨root, small, path, member, rfl, rfl⟩
  rw [inside, mem_preorder]
  unfold BlockPlace.Valid BlockPlace.first
  dsimp only
  constructor
  · exact fun ⟨small, isPath, before⟩ => ⟨⟨small, isPath⟩, by omega⟩
  · exact fun ⟨⟨small, isPath⟩, before⟩ => ⟨small, isPath, by omega⟩

theorem placesBelow_nodup (t : Nat) : (placesBelow t).Nodup := by
  rw [placesBelow, List.nodup_flatMap]
  constructor
  · intro root _
    exact (preorder_nodup _ _).map fun _ _ same => congrArg BlockPlace.path same
  · refine List.nodup_range.imp fun {root other} apart p inRoot inOther => ?_
    obtain ⟨_, _, rfl⟩ := List.mem_map.mp inRoot
    obtain ⟨_, _, same⟩ := List.mem_map.mp inOther
    exact apart (congrArg BlockPlace.root same).symm

end Places

/-! ## Data places -/

/-- The place of the data block at a logical index. -/
def dataPlace (idx : Nat) : BlockPlace :=
  if idx < rootStart 10 then ⟨idx, []⟩
  else if idx < rootStart 11 then ⟨10, digits indirectCount 1 (idx - rootStart 10)⟩
  else if idx < rootStart 12 then ⟨11, digits indirectCount 2 (idx - rootStart 11)⟩
  else ⟨12, digits indirectCount 3 (idx - rootStart 12)⟩

/-- The data places below a root. -/
theorem dataPlace_root {root r : Nat} (exists' : root < rootCount) (small : r < span (rootHeight root)) :
    dataPlace (rootStart root + r) = ⟨root, digits indirectCount (rootHeight root) r⟩ := by
  have ten : rootStart 10 = 10 := rfl
  have eleven : rootStart 11 = 138 := rfl
  have twelve : rootStart 12 = 16522 := rfl
  unfold dataPlace
  by_cases direct : root < nDirect
  · have height : rootHeight root = 0 := Nat.sub_eq_zero_of_le direct
    have none : r = 0 := by
      rw [height] at small
      exact Nat.lt_one_iff.mp small
    have low : rootStart root + r < rootStart 10 := by
      rw [rootStart_direct (Nat.le_of_lt direct), none]
      exact direct
    rw [if_pos low, rootStart_direct (Nat.le_of_lt direct), none, height]
    rfl
  · have tree : root = 10 ∨ root = 11 ∨ root = 12 := by
      unfold rootCount at exists'
      unfold nDirect at direct
      omega
    rcases tree with rfl | rfl | rfl
    · have bound : r < 128 := small
      rw [if_neg (by omega), if_pos (by omega), Nat.add_sub_cancel_left]
      rfl
    · have bound : r < 16384 := small
      rw [if_neg (by omega), if_neg (by omega), if_pos (by omega), Nat.add_sub_cancel_left]
      rfl
    · rw [if_neg (by omega), if_neg (by omega), if_neg (by omega), Nat.add_sub_cancel_left]
      rfl

/-- Every index of a file is below one root. -/
theorem exists_root {idx : Nat} (small : idx < maxBlocks) :
    ∃ root r, root < rootCount ∧ r < span (rootHeight root) ∧ idx = rootStart root + r := by
  have find : ∀ roots, idx < rootStart roots →
      ∃ root r, root < roots ∧ r < span (rootHeight root) ∧ idx = rootStart root + r := by
    intro roots
    induction roots with
    | zero => exact fun below => absurd below (Nat.not_lt_zero idx)
    | succ roots inductionHypothesis =>
      intro below
      by_cases earlier : idx < rootStart roots
      · obtain ⟨root, r, inside, bound, value⟩ := inductionHypothesis earlier
        exact ⟨root, r, by omega, bound, value⟩
      · rw [rootStart] at below
        exact ⟨roots, idx - rootStart roots, by omega, by omega, by omega⟩
  exact find rootCount small

/-- The place of an index has that index. -/
theorem dataPlace_spec {idx : Nat} (small : idx < maxBlocks) :
    (dataPlace idx).Valid ∧ (dataPlace idx).height = 0 ∧ (dataPlace idx).first = idx := by
  obtain ⟨root, r, inside, bound, rfl⟩ := exists_root small
  rw [dataPlace_root inside bound]
  refine ⟨⟨inside, digits_isPath bound⟩, ?_, ?_⟩
  · rw [BlockPlace.height, digits_length, Nat.sub_self]
  · rw [BlockPlace.first, start_digits bound]

/-- A place without pointers below it is that of its index. -/
theorem dataPlace_first {p : BlockPlace} (valid : p.Valid) (leaf : p.height = 0) :
    dataPlace p.first = p := by
  obtain ⟨root, path⟩ := p
  obtain ⟨inside, isPath⟩ := valid
  unfold BlockPlace.height at leaf
  dsimp only at inside isPath leaf
  have whole : path.length = rootHeight root := by
    have short := isPath.1
    omega
  have bound := start_lt indirectCount_pos isPath
  rw [BlockPlace.first, dataPlace_root inside bound, digits_start_whole indirectCount_pos isPath whole]

/-- The first data block below a place is reached through the slots 0. -/
theorem dataPlace_below {p : BlockPlace} (valid : p.Valid) :
    dataPlace p.first = ⟨p.root, p.path ++ List.replicate p.height 0⟩ := by
  rw [BlockPlace.first, dataPlace_root valid.1 (start_lt indirectCount_pos valid.2),
    digits_start indirectCount_pos valid.2]
  rfl

/-- A place with a block below the largest file begins below it. -/
theorem BlockPlace.first_lt {p : BlockPlace} (valid : p.Valid) : p.first < maxBlocks := by
  have bound := start_lt indirectCount_pos valid.2
  have next : rootStart p.root + span (rootHeight p.root) ≤ maxBlocks :=
    rootStart_mono (Nat.succ_le_of_lt valid.1)
  unfold first
  unfold span at next
  omega

/-- The data places among those that begin below `t` are in the order of their indices. -/
theorem placesBelow_leaves (t : Nat) :
    (placesBelow t).filter (fun p => p.height = 0) =
      (List.range (min t maxBlocks)).map dataPlace := by
  have below : ∀ roots, roots ≤ rootCount →
      ((List.range roots).flatMap fun root =>
        ((preorder indirectCount (rootHeight root) (t - rootStart root)).map
          (BlockPlace.mk root)).filter fun p => p.height = 0) =
      (List.range (min t (rootStart roots))).map dataPlace := by
    intro roots inside
    induction roots with
    | zero => simp [rootStart]
    | succ roots inductionHypothesis =>
      have shape : ((preorder indirectCount (rootHeight roots) (t - rootStart roots)).map
          (BlockPlace.mk roots)).filter (fun p => p.height = 0) =
          ((preorder indirectCount (rootHeight roots) (t - rootStart roots)).filter fun path =>
            path.length = rootHeight roots).map (BlockPlace.mk roots) := by
        rw [List.filter_map]
        congr 1
        refine List.filter_congr fun path member => ?_
        have short := (mem_preorder.mp member).1.1
        have whole : rootHeight roots - path.length = 0 ↔ path.length = rootHeight roots := by omega
        simp only [Function.comp_apply, BlockPlace.height, whole]
      have split : min t (rootStart (roots + 1)) = min t (rootStart roots) +
          min (span (rootHeight roots)) (t - rootStart roots) := by
        rw [rootStart]
        omega
      rw [List.range_succ, List.flatMap_append, List.flatMap_singleton,
        inductionHypothesis (Nat.le_of_succ_le inside), shape, preorder_leaves, split,
        List.range_add, List.map_append, List.map_map, List.map_map]
      congr 1
      refine List.map_congr_left fun r member => ?_
      have bound := List.mem_range.mp member
      have whole : min t (rootStart roots) = rootStart roots := by
        unfold indirectCount at bound
        omega
      rw [Function.comp_apply, Function.comp_apply, whole, dataPlace_root inside]
      exact Nat.lt_of_lt_of_le bound (Nat.min_le_left _ _)
  rw [placesBelow, List.filter_flatMap]
  exact below rootCount (Nat.le_refl _)

/-! ## The list of the read side -/

/-- An inode of the table has thirteen addresses. -/
theorem CoherentFs.stat_addrs {fs : CoherentFs} {image : Image} {ino : Nat} {inode : Inode}
    (found : fs.stat image ino = some inode) : inode.addrs.length = rootCount := by
  unfold CoherentFs.stat at found
  by_cases real : ino < 1
  · rw [if_pos real] at found
    cases found
  · rw [if_neg real] at found
    dsimp only at found
    split at found
    · cases found
    · cases found
      dsimp only
      rw [List.length_map, List.length_range, rootCount]

/-- The ten direct addresses. -/
theorem Inode.addrs_take (inode : Inode) (addrs : inode.addrs.length = rootCount) :
    inode.addrs.take nDirect = (List.range nDirect).map fun root => inode.addrs.getD root 0 := by
  have count : nDirect ≤ rootCount := by decide
  refine List.ext_getElem (by simp [addrs, count]) fun i inTake inRange => ?_
  rw [List.length_take] at inTake
  have inside : i < inode.addrs.length := by omega
  simp [inside]

section Blocks

variable (fs : CoherentFs) (image : Image) (need : Nat)

/-- The list of the read side for the leaves below a pointer to a node of height `d`. -/
def CoherentFs.LeavesBelow (d : Nat) : Prop :=
  ∀ bno (out : BlockList), out.length ≤ need →
    fs.walkIndirect image need d bno out =
      out ++ (List.range (min (span d) (need - out.length))).map fun r =>
        fs.absolute (follow (fs.entry image) bno (digits indirectCount d r))

variable {fs image need}

/-- Holes are appended up to the size. -/
theorem fillHoles_eq (n : Nat) (out : BlockList) (within : out.length ≤ need) :
    forUpTo n (fun _ (out : BlockList) => if need ≤ out.length then out else out ++ [none]) out =
      out ++ (List.range (min n (need - out.length))).map fun _ => none := by
  refine forUpTo.invariant (fun i (s : BlockList) =>
    s = out ++ (List.range (min i (need - out.length))).map fun _ => none) n (by simp) ?_
  rintro i _ - rfl
  by_cases full : need ≤ out.length + i
  · have stop : min i (need - out.length) = need - out.length := by omega
    have still : min (i + 1) (need - out.length) = need - out.length := by omega
    rw [stop, still, if_pos]
    rw [List.length_append, List.length_map, List.length_range]
    omega
  · have here : min i (need - out.length) = i := by omega
    have next : min (i + 1) (need - out.length) = i + 1 := by omega
    rw [here, next, if_neg, List.range_succ, List.map_append, List.map_singleton,
      List.append_assoc]
    rw [List.length_append, List.length_map, List.length_range]
    omega

/-- The round of the read side for one entry of a pointer block. -/
theorem CoherentFs.listEntry_eq {d : Nat} (deeper : d ≠ 0 → fs.LeavesBelow image need d)
    (entry : Nat) (out : BlockList) (within : out.length ≤ need) :
    (if need ≤ out.length then out
      else if d = 0 then out ++ [fs.absolute entry]
      else fs.walkIndirect image need d entry out) =
      out ++ (List.range (min (span d) (need - out.length))).map fun r =>
        fs.absolute (follow (fs.entry image) entry (digits indirectCount d r)) := by
  by_cases full : need ≤ out.length
  · have none : need - out.length = 0 := by omega
    rw [if_pos full, none, Nat.min_zero]
    exact (List.append_nil out).symm
  · rw [if_neg full]
    by_cases leaf : d = 0
    · subst leaf
      have one : min (span 0) (need - out.length) = 1 := by
        have single : span 0 = 1 := rfl
        omega
      rw [if_pos rfl, one]
      rfl
    · rw [if_neg leaf, deeper leaf entry out within]

/-- A node of pointers to nodes of height `d`. -/
theorem CoherentFs.listNode_eq {d : Nat} (deeper : d ≠ 0 → fs.LeavesBelow image need d) :
    fs.LeavesBelow image need (d + 1) := by
  intro bno out within
  rw [walkIndirect]
  by_cases full : need ≤ out.length
  · have none : need - out.length = 0 := by omega
    rw [if_pos full, none, Nat.min_zero]
    exact (List.append_nil out).symm
  rw [if_neg full]
  by_cases hole : bno = 0
  · subst hole
    rw [if_pos rfl, fillHoles_eq _ _ within]
    simp only [follow_zero]
    rfl
  · have rounds : span (d + 1) = indirectCount * span d := by
      rw [span, span, Nat.pow_succ, Nat.mul_comm]
    rw [if_neg hole, rounds]
    refine forUpTo.invariant (fun i (s : BlockList) => s =
      out ++ (List.range (min (i * span d) (need - out.length))).map fun r =>
        fs.absolute (follow (fs.entry image) bno (digits indirectCount (d + 1) r)))
      indirectCount (by simp) ?_
    rintro i _ - rfl
    have length : (out ++ (List.range (min (i * span d) (need - out.length))).map fun r =>
        fs.absolute (follow (fs.entry image) bno (digits indirectCount (d + 1) r))).length =
        min (out.length + i * span d) need := by
      rw [List.length_append, List.length_map, List.length_range]
      omega
    have entry := fs.listEntry_eq deeper (fs.entry image bno i) _
      (Nat.le_trans (Nat.le_of_eq length) (Nat.min_le_right _ _))
    refine Eq.trans entry ?_
    rw [length, List.append_assoc]
    congr 1
    have next : (i + 1) * span d = i * span d + span d := Nat.succ_mul i _
    have split : min ((i + 1) * span d) (need - out.length) =
        min (i * span d) (need - out.length) +
          min (span d) (need - min (out.length + i * span d) need) := by omega
    rw [split, List.range_add, List.map_append, List.map_map]
    congr 1
    refine List.map_congr_left fun r member => ?_
    have bound := List.mem_range.mp member
    have whole : min (i * span d) (need - out.length) = i * span d := by omega
    have row := digits_row i (show r < indirectCount ^ d by unfold span at bound; omega)
    rw [Function.comp_apply, whole]
    unfold span
    rw [row, follow_cons hole]

theorem CoherentFs.walkIndirect_eq (d : Nat) : fs.LeavesBelow image need (d + 1) := by
  induction d with
  | zero => exact listNode_eq fun leaf => absurd rfl leaf
  | succ d inductionHypothesis => exact listNode_eq fun _ => inductionHypothesis

/-- The list of the data blocks with an index below `t`. -/
def CoherentFs.blocksBelow (fs : CoherentFs) (image : Image) (inode : Inode) (t : Nat) :
    BlockList :=
  (List.range t).map fun idx => fs.absolute (fs.pointer image inode (dataPlace idx))

theorem CoherentFs.blocksBelow_length (inode : Inode) (t : Nat) :
    (fs.blocksBelow image inode t).length = t := by
  rw [blocksBelow, List.length_map, List.length_range]

/-- The direct blocks. -/
theorem CoherentFs.direct_blocks (inode : Inode) (roots : Nat) (direct : roots ≤ nDirect) :
    ((List.range roots).map fun root => inode.addrs.getD root 0).foldl (fun blocks b =>
      if need ≤ blocks.length then blocks else blocks ++ [fs.absolute b]) [] =
    fs.blocksBelow image inode (min need roots) := by
  induction roots with
  | zero => simp [blocksBelow]
  | succ roots inductionHypothesis =>
    rw [List.range_succ, List.map_append, List.foldl_append, inductionHypothesis (by omega),
      List.map_singleton, List.foldl_cons, List.foldl_nil, blocksBelow_length]
    by_cases full : need ≤ roots
    · have stays : min need roots = need := by omega
      have still : min need (roots + 1) = need := by omega
      rw [stays, still, if_pos (Nat.le_refl need)]
    · have here : min need roots = roots := by omega
      have next : min need (roots + 1) = roots + 1 := by omega
      have place : dataPlace roots = ⟨roots, []⟩ := if_pos direct
      rw [here, next, if_neg full, blocksBelow, blocksBelow, List.range_succ, List.map_append,
        List.map_singleton, place]
      rfl

/-- The tree at a root. -/
theorem CoherentFs.tree_blocks (inode : Inode) {root d : Nat} (exists' : root < rootCount)
    (height : rootHeight root = d + 1) :
    fs.walkIndirect image need (d + 1) (inode.addrs.getD root 0)
      (fs.blocksBelow image inode (min need (rootStart root))) =
    fs.blocksBelow image inode (min need (rootStart (root + 1))) := by
  have length := @blocksBelow_length fs image inode (min need (rootStart root))
  rw [walkIndirect_eq d _ _ (by rw [length]; exact Nat.min_le_left _ _), length, rootStart, height]
  by_cases full : need ≤ rootStart root
  · have stays : min need (rootStart root) = need := by omega
    have still : min need (rootStart root + span (d + 1)) = need := by omega
    rw [stays, still, Nat.sub_self, Nat.min_zero]
    exact List.append_nil _
  · have here : min need (rootStart root) = rootStart root := by omega
    have split : min need (rootStart root + span (d + 1)) =
        rootStart root + min (span (d + 1)) (need - rootStart root) := by omega
    rw [here, split, blocksBelow, blocksBelow, List.range_add, List.map_append, List.map_map]
    congr 1
    refine List.map_congr_left fun r member => ?_
    have bound := List.mem_range.mp member
    have small : r < span (rootHeight root) := by
      rw [height]
      omega
    rw [Function.comp_apply, dataPlace_root exists' small, pointer, height]

end Blocks

/-- `file_blocks` lists the blocks at the data places below the size. -/
theorem CoherentFs.fileBlocks_eq (fs : CoherentFs) (image : Image) (inode : Inode)
    (addrs : inode.addrs.length = rootCount) :
    fs.fileBlocks image inode =
      fs.blocksBelow image inode (min ((inode.size + blockSize - 1) / blockSize) maxBlocks) := by
  unfold fileBlocks
  generalize (inode.size + blockSize - 1) / blockSize = need
  have direct := @direct_blocks fs image need inode nDirect (Nat.le_refl _)
  have single := @tree_blocks fs image need inode 10 0 (by decide) rfl
  have double := @tree_blocks fs image need inode 11 1 (by decide) rfl
  have triple := @tree_blocks fs image need inode 12 2 (by decide) rfl
  dsimp only
  rw [inode.addrs_take addrs, direct]
  exact (congrArg _ ((congrArg _ single).trans double)).trans triple

end C900
