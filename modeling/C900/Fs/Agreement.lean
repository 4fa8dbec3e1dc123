import C900.Fs.BlockVisits
import C900.Fs.Writer

/-!
# Three ways to a block

The read side lists the blocks of a file, the writers classify an index and follow a chain of
entries, and the check walks the whole tree. All three find the same block at an index, and the
check visits no pointer block that is not on the way to an index below the size.
-/

namespace C900

open PointerTree

/-- The pointer that `_ensure_data_block` reaches by `_classify_index`: the address of a direct
block, or the end of the chain of entries below the root of a tree. -/
def CoherentFs.chainPointer (fs : CoherentFs) (image : Image) (inode : Inode) (idx : Nat) :
    Except FsError Nat :=
  (classifyIndex indirectCount idx).map fun (depth, slot, coords) =>
    if depth = 0 then inode.addrs.getD (slot.getD 0) 0
    else follow (fs.entry image) (inode.addrs.getD (nDirect + depth - 1) 0) coords

/-- The pointer blocks that the chain goes through. -/
def CoherentFs.chainBlocks (fs : CoherentFs) (image : Image) (inode : Inode) (idx : Nat) :
    List Nat :=
  match classifyIndex indirectCount idx with
  | .ok (depth, _, coords) => (List.range coords.length).map fun k =>
    follow (fs.entry image) (inode.addrs.getD (nDirect + depth - 1) 0) (coords.take k)
  | .error _ => []

/-! ## The classification -/

/-- The path of an index through the tree of a depth. -/
theorem classifyIndex_tree {d r : Nat} (tree : d < 3) (small : r < span (d + 1)) :
    classifyIndex indirectCount (rootStart (nDirect + d) + r) =
      .ok (d + 1, none, digits indirectCount (d + 1) r) := by
  have depth : d = 0 ∨ d = 1 ∨ d = 2 := by omega
  unfold classifyIndex nDirect indirectCount
  rcases depth with rfl | rfl | rfl
  · have bound : r < 128 := small
    have first : rootStart (10 + 0) = 10 := rfl
    have rest : 10 + r - 10 = r := Nat.add_sub_cancel_left 10 r
    simp only [first, rest, if_pos bound]
    rw [if_neg (by omega)]
    simp [digits]
  · have bound : r < 16384 := small
    have first : rootStart (10 + 1) = 138 := rfl
    have rest : 138 + r - 10 - 128 = r := by omega
    simp only [first, rest]
    rw [if_neg (by omega), if_neg (by omega), if_pos (by omega)]
    simp [digits]
  · have bound : r < 2097152 := small
    have first : rootStart (10 + 2) = 16522 := rfl
    have rest : 16522 + r - 10 - 128 - 128 * 128 = r := by omega
    simp only [first, rest]
    rw [if_neg (by omega), if_neg (by omega), if_neg (by omega), if_pos (by omega)]
    simp [digits]

/-- The classification of an index is the place of its block. -/
theorem classifyIndex_eq {idx : Nat} (small : idx < maxBlocks) :
    ∃ depth slot, classifyIndex indirectCount idx = .ok (depth, slot, (dataPlace idx).path) ∧
      (dataPlace idx).path.length = depth ∧
      (dataPlace idx).root = if depth = 0 then slot.getD 0 else nDirect + depth - 1 := by
  obtain ⟨root, r, exists', bound, rfl⟩ := exists_root small
  rw [dataPlace_root exists' bound]
  by_cases direct : root < nDirect
  · have height : rootHeight root = 0 := Nat.sub_eq_zero_of_le direct
    have first : r = 0 := by
      rw [height] at bound
      exact Nat.lt_one_iff.mp bound
    subst first
    rw [height, rootStart_direct (Nat.le_of_lt direct), Nat.add_zero]
    exact ⟨0, some root, if_pos direct, rfl, rfl⟩
  · obtain ⟨d, rfl⟩ : ∃ d, root = nDirect + d := ⟨root - nDirect, by omega⟩
    have height : rootHeight (nDirect + d) = d + 1 := by
      unfold rootHeight
      omega
    have tree : d < 3 := by
      unfold nDirect rootCount at exists'
      omega
    rw [height] at bound ⊢
    refine ⟨d + 1, none, classifyIndex_tree tree bound, digits_length _ _, ?_⟩
    rw [if_neg (Nat.succ_ne_zero d)]
    rfl

/-- An index beyond the largest file. -/
theorem classifyIndex_large {idx : Nat} (large : maxBlocks ≤ idx) :
    classifyIndex indirectCount idx = .error .fileTooLarge := by
  have most : maxBlocks = 2113674 := rfl
  unfold classifyIndex nDirect indirectCount
  dsimp only
  rw [if_neg (by omega), if_neg (by omega), if_neg (by omega), if_neg (by omega)]

section Chain

variable {fs : CoherentFs} {image : Image} {inode : Inode} {idx : Nat}

/-- The chain leads to the block at the place of the index. -/
theorem CoherentFs.chainPointer_eq (small : idx < maxBlocks) :
    fs.chainPointer image inode idx = .ok (fs.pointer image inode (dataPlace idx)) := by
  obtain ⟨depth, slot, classified, length, root⟩ := classifyIndex_eq small
  unfold chainPointer
  rw [classified, pointer, root]
  by_cases direct : depth = 0
  · have none : (dataPlace idx).path = [] := List.eq_nil_of_length_eq_zero (length.trans direct)
    rw [none]
    simp [Except.map, direct]
  · simp [Except.map, direct]

/-- A pointer block above the data block of an index is on its chain. -/
theorem CoherentFs.mem_chainBlocks (small : idx < maxBlocks) {path : List Nat}
    (above : path <+: (dataPlace idx).path) (shorter : path.length < (dataPlace idx).path.length) :
    fs.pointer image inode ⟨(dataPlace idx).root, path⟩ ∈ fs.chainBlocks image inode idx := by
  obtain ⟨depth, slot, classified, length, root⟩ := classifyIndex_eq small
  unfold chainBlocks
  rw [classified]
  refine List.mem_map.mpr ⟨path.length, List.mem_range.mpr shorter, ?_⟩
  have taken := List.prefix_iff_eq_take.mp above
  rw [pointer, root, if_neg (by omega), ← taken]

end Chain

/-! ## Following the chain -/

section Follow

variable (fs : CoherentFs) {s t : Session} {e : FsError}

theorem readBlock_session (bno : Nat) (s : Session) :
    onImage (readBlock bno) s = .ok (s.image.readBlock bno) s := rfl

theorem writeBlock_session {bno : Nat} (inside : s.image.hasBlock bno = true) (block : Buffer) :
    onImage (writeBlock bno block) s = .ok () { s with image := s.image.setBlock bno block } := by
  unfold onImage
  rw [writeBlock_inside inside]

theorem addrAt_session (slot : Nat) (s : Session) :
    addrAt slot s = .ok (s.inode.addrs.getD slot 0) s := rfl

/-- A block at the end of the chain is found. -/
theorem CoherentFs.ensureIndirectChild_found {coords : List Nat} {b : Nat} {s : Session}
    (found : follow (fs.entry s.image) b coords ≠ 0) :
    fs.ensureIndirectChild coords.length b coords s =
      .ok (follow (fs.entry s.image) b coords) s := by
  induction coords generalizing b with
  | nil => rfl
  | cons slot rest inductionHypothesis =>
    have nonzero : b ≠ 0 := by
      rintro rfl
      exact found (follow_zero _)
    rw [follow_cons nonzero] at found ⊢
    have present : fs.entry s.image b slot ≠ 0 := by
      intro hole
      rw [hole, follow_zero] at found
      exact found rfl
    rw [List.length_cons, ensureIndirectChild, EStateM.bind_ok (readBlock_session _ s)]
    dsimp only [List.headD_cons, List.tail_cons]
    change (if rest.length = 0 then (if fs.entry s.image b slot = 0 then _ else _)
      else if fs.entry s.image b slot = 0 then _ else _ : WriteM Nat) s = _
    by_cases leaf : rest.length = 0
    · rw [if_pos leaf, if_neg present, List.eq_nil_of_length_eq_zero leaf]
      rfl
    · rw [if_neg leaf, if_neg present]
      exact inductionHypothesis found

/-- At a hole a block is asked for. -/
theorem CoherentFs.ensureIndirectChild_hole {coords : List Nat} {b : Nat} (nonzero : b ≠ 0)
    (hole : follow (fs.entry s.image) b coords = 0) (fails : fs.takeBlock s = .error e t) :
    fs.ensureIndirectChild coords.length b coords s = .error e t := by
  induction coords generalizing b with
  | nil => exact absurd hole nonzero
  | cons slot rest inductionHypothesis =>
    rw [follow_cons nonzero] at hole
    rw [List.length_cons, ensureIndirectChild, EStateM.bind_ok (readBlock_session _ s)]
    dsimp only [List.headD_cons, List.tail_cons]
    change (if rest.length = 0 then (if fs.entry s.image b slot = 0 then _ else _)
      else if fs.entry s.image b slot = 0 then _ else _ : WriteM Nat) s = _
    by_cases absent : fs.entry s.image b slot = 0
    · by_cases leaf : rest.length = 0
      · rw [if_pos leaf, if_pos absent]
        exact EStateM.bind_error fails _
      · rw [if_neg leaf, if_pos absent]
        exact EStateM.bind_error fails _
    · have inner : rest.length ≠ 0 := by
        intro leaf
        rw [List.eq_nil_of_length_eq_zero leaf] at hole
        exact absent hole
      rw [if_neg inner, if_neg absent]
      exact inductionHypothesis absent hole

/-- Where the classification fails, so does the call. -/
theorem CoherentFs.ensureDataBlock_large {idx : Nat} (large : maxBlocks ≤ idx) (s : Session) :
    fs.ensureDataBlock idx s = .error .fileTooLarge s := by
  unfold ensureDataBlock
  rw [classifyIndex_large large]
  rfl

/-- `_ensure_data_block` at an index with a block returns it and changes nothing. -/
theorem CoherentFs.ensureDataBlock_found {idx : Nat} {s : Session} (small : idx < maxBlocks)
    (found : fs.pointer s.image s.inode.toInode (dataPlace idx) ≠ 0) :
    fs.ensureDataBlock idx s = .ok (fs.pointer s.image s.inode.toInode (dataPlace idx)) s := by
  obtain ⟨depth, slot, classified, length, root⟩ := classifyIndex_eq small
  unfold pointer at found ⊢
  unfold ensureDataBlock
  rw [root] at found ⊢
  rw [classified]
  change (if depth = 0 then _ else _ : WriteM Nat) s = _
  by_cases direct : depth = 0
  · have none : (dataPlace idx).path = [] := List.eq_nil_of_length_eq_zero (length.trans direct)
    rw [if_pos direct, none, follow_nil] at found ⊢
    rw [if_pos direct, EStateM.bind_ok (addrAt_session _ s), if_neg found]
    rfl
  · rw [if_neg direct] at found ⊢
    have present : s.inode.addrs.getD (nDirect + depth - 1) 0 ≠ 0 := by
      intro hole
      rw [hole, follow_zero] at found
      exact found rfl
    have rooted : fs.ensureRoot (nDirect + depth - 1) s = .ok () s := by
      unfold ensureRoot
      rw [EStateM.bind_ok (addrAt_session _ s), if_neg present]
      rfl
    rw [if_neg direct, EStateM.bind_ok rooted, EStateM.bind_ok (addrAt_session _ s), ← length]
    rw [← length] at found
    exact fs.ensureIndirectChild_found found

/-- `_ensure_data_block` at a hole asks for a block. -/
theorem CoherentFs.ensureDataBlock_hole {idx : Nat} (small : idx < maxBlocks)
    (hole : fs.pointer s.image s.inode.toInode (dataPlace idx) = 0)
    (fails : fs.takeBlock s = .error e t) : fs.ensureDataBlock idx s = .error e t := by
  obtain ⟨depth, slot, classified, length, root⟩ := classifyIndex_eq small
  unfold pointer at hole
  unfold ensureDataBlock
  rw [root] at hole
  rw [classified]
  change (if depth = 0 then _ else _ : WriteM Nat) s = _
  by_cases direct : depth = 0
  · have none : (dataPlace idx).path = [] := List.eq_nil_of_length_eq_zero (length.trans direct)
    rw [if_pos direct, none, follow_nil] at hole
    rw [if_pos direct, EStateM.bind_ok (addrAt_session _ s), if_pos hole]
    exact EStateM.bind_error fails _
  · rw [if_neg direct] at hole
    rw [if_neg direct]
    by_cases absent : s.inode.addrs.getD (nDirect + depth - 1) 0 = 0
    · have unrooted : fs.ensureRoot (nDirect + depth - 1) s = .error e t := by
        unfold ensureRoot
        rw [EStateM.bind_ok (addrAt_session _ s), if_pos absent]
        exact EStateM.bind_error fails _
      exact EStateM.bind_error unrooted _
    · have rooted : fs.ensureRoot (nDirect + depth - 1) s = .ok () s := by
        unfold ensureRoot
        rw [EStateM.bind_ok (addrAt_session _ s), if_neg absent]
        rfl
      rw [EStateM.bind_ok rooted, EStateM.bind_ok (addrAt_session _ s), ← length]
      rw [← length] at hole absent
      exact fs.ensureIndirectChild_hole absent hole fails

end Follow

/-! ## Agreement -/

/-- The three traversals have the block `b` at an index, or a hole if `b` is 0. -/
structure CoherentFs.AgreesAt (fs : CoherentFs) (image : Image) (inode : Inode) (idx b : Nat) :
    Prop where
  listed : (fs.fileBlocks image inode)[idx]? = some (fs.absolute b)
  reached : fs.chainPointer image inode idx = .ok b
  /-- `_ensure_data_block` returns the block, and asks for one at a hole. -/
  ensured : ∀ s : Session, s.image = image → s.inode.toInode = inode →
    (b ≠ 0 → fs.ensureDataBlock idx s = .ok b s) ∧
    (b = 0 → ∀ e t, fs.takeBlock s = .error e t → fs.ensureDataBlock idx s = .error e t)
  visited : (fs.markInodeBlocks image inode).filter (fun mark => mark.1 = idx ∧ !mark.2.2) =
    if b = 0 then [] else [(idx, b, false)]

/-- None of the three has anything at an index. -/
structure CoherentFs.NothingAt (fs : CoherentFs) (image : Image) (inode : Inode) (idx : Nat) :
    Prop where
  unlisted : (fs.fileBlocks image inode)[idx]? = none
  unreached : fs.chainPointer image inode idx = .error .fileTooLarge
  refused : ∀ s, fs.ensureDataBlock idx s = .error .fileTooLarge s
  unvisited : (fs.markInodeBlocks image inode).filter (fun mark => mark.1 = idx ∧ !mark.2.2) = []

section Agreement

variable (fs : CoherentFs) (image : Image) (inode : Inode)

theorem range_filterMap_only {γ : Type} {idx : Nat} {f : Nat → Option γ}
    (only : ∀ i, i ≠ idx → f i = none) (n : Nat) :
    (List.range n).filterMap f = if idx < n then (f idx).toList else [] := by
  induction n with
  | zero => simp
  | succ n inductionHypothesis =>
    rw [List.range_succ, List.filterMap_append, inductionHypothesis]
    by_cases here : n = idx
    · subst here
      rw [if_neg (Nat.lt_irrefl n), if_pos (Nat.lt_succ_self n), List.nil_append]
      cases found : f n with
      | none => rw [List.filterMap_cons_none found]; rfl
      | some value => rw [List.filterMap_cons_some found]; rfl
    · have next : idx < n + 1 ↔ idx < n := by omega
      rw [List.filterMap_cons_none (only n here), List.filterMap_nil, List.append_nil]
      simp only [next]

/-- The visits of data blocks at one position. -/
theorem CoherentFs.markInodeBlocks_at (addrs : inode.addrs.length = rootCount) (idx : Nat) :
    (fs.markInodeBlocks image inode).filter (fun mark => mark.1 = idx ∧ !mark.2.2) =
      if idx < min ((inode.size + blockSize - 1) / blockSize) maxBlocks then
        if fs.pointer image inode (dataPlace idx) = 0 then []
        else [(idx, fs.pointer image inode (dataPlace idx), false)]
      else [] := by
  have split : (fun mark : Mark => decide (mark.1 = idx ∧ (!mark.2.2) = true)) =
      fun mark => decide (mark.1 = idx) && !mark.2.2 := by
    funext mark
    simp
  rw [split, ← List.filter_filter, fs.markInodeBlocks_data image inode addrs,
    List.filter_filterMap, @range_filterMap_only _ idx]
  · congr 1
    by_cases hole : fs.pointer image inode (dataPlace idx) = 0
    · simp [hole]
    · simp [hole]
  · intro i other
    by_cases hole : fs.pointer image inode (dataPlace i) = 0
    · simp [hole]
    · simp [hole, other]

/-- A pointer block that the check visits is on the chain of an index below the size. -/
theorem CoherentFs.markInodeBlocks_indirect (addrs : inode.addrs.length = rootCount) {mark : Mark}
    (member : mark ∈ fs.markInodeBlocks image inode) (indirect : mark.2.2 = true) :
    ∃ idx < (inode.size + blockSize - 1) / blockSize,
      mark.2.1 ∈ fs.chainBlocks image inode idx := by
  rw [fs.markInodeBlocks_eq image inode addrs] at member
  obtain ⟨p, place, found⟩ := List.mem_filterMap.mp member
  obtain ⟨valid, below⟩ := mem_placesBelow.mp place
  unfold CoherentFs.mark at found
  dsimp only at found
  split_ifs at found
  obtain rfl := Option.some.inj found
  have inner : 0 < p.height := of_decide_eq_true indirect
  refine ⟨p.first, below, ?_⟩
  -- The chain of the first index below the pointer block goes through it.
  have onChain := @mem_chainBlocks fs image inode _ (BlockPlace.first_lt valid) p.path
  rw [dataPlace_below valid] at onChain
  refine onChain (List.prefix_append _ _) ?_
  rw [List.length_append, List.length_replicate]
  exact Nat.lt_add_of_pos_right inner

end Agreement

/-- The list of the read side, the chain of the writers and the walk of the check have the same
block at every index below the size, or all a hole; from `maxBlocks` on none of them has
anything. A pointer block that the check visits is on the chain of an index below the size. -/
theorem traversals_agree (fs : CoherentFs) (image : Image) (inode : Inode)
    (addrs : inode.addrs.length = rootCount) :
    (∀ idx < (inode.size + blockSize - 1) / blockSize,
      if idx < maxBlocks then ∃ b, fs.AgreesAt image inode idx b
      else fs.NothingAt image inode idx) ∧
    fs.walkInodeBlocks image inode = (fs.markInodeBlocks image inode).map Prod.snd ∧
    ∀ mark ∈ fs.markInodeBlocks image inode, mark.2.2 = true →
      ∃ idx < (inode.size + blockSize - 1) / blockSize,
        mark.2.1 ∈ fs.chainBlocks image inode idx := by
  refine ⟨fun idx below => ?_, fs.walkInodeBlocks_unmarked image inode, fun mark member indirect =>
    fs.markInodeBlocks_indirect image inode addrs member indirect⟩
  have visits := fs.markInodeBlocks_at image inode addrs idx
  by_cases small : idx < maxBlocks
  · have inside : idx < min ((inode.size + blockSize - 1) / blockSize) maxBlocks := by omega
    rw [if_pos small]
    rw [if_pos inside] at visits
    refine ⟨fs.pointer image inode (dataPlace idx), ?_, fs.chainPointer_eq small, ?_, visits⟩
    · rw [fs.fileBlocks_eq image inode addrs, CoherentFs.blocksBelow, List.getElem?_map,
        List.getElem?_range inside]
      rfl
    · rintro s rfl rfl
      exact ⟨fun found => fs.ensureDataBlock_found small found,
        fun hole e t fails => fs.ensureDataBlock_hole small hole fails⟩
  · have outside : ¬ idx < min ((inode.size + blockSize - 1) / blockSize) maxBlocks := by omega
    rw [if_neg small]
    rw [if_neg outside] at visits
    have large := Nat.not_lt.mp small
    refine ⟨?_, ?_, fs.ensureDataBlock_large large, visits⟩
    · rw [fs.fileBlocks_eq image inode addrs, List.getElem?_eq_none]
      rw [CoherentFs.blocksBelow_length]
      exact Nat.not_lt.mp outside
    · rw [CoherentFs.chainPointer, classifyIndex_large large]
      rfl

/-- A file of eleven blocks with its first block and its pointer block: the pointer block 5
points to block 6. -/
def sparseInode : Inode where
  mode := sIfreg
  size := 11 * 512
  addrs := [4, 0, 0, 0, 0, 0, 0, 0, 0, 0, 5, 0, 0]

def sparseImage : Image where
  len := 7 * 512
  byte := fun i => if i = 5 * 512 + 2 then 6 else 0

theorem traversals_agree_sparse : sparseInode.addrs.length = rootCount ∧
    CoherentFs.AgreesAt ⟨0⟩ sparseImage sparseInode 10 6 := by
  have addrs : sparseInode.addrs.length = rootCount := rfl
  have agree := (traversals_agree ⟨0⟩ sparseImage sparseInode addrs).1 10 (by decide)
  rw [if_pos (by decide)] at agree
  obtain ⟨b, agrees⟩ := agree
  have six : CoherentFs.chainPointer ⟨0⟩ sparseImage sparseInode 10 = .ok 6 := by decide
  have same : b = 6 := by
    have reached := agrees.reached
    rw [six] at reached
    exact (Except.ok.inj reached).symm
  exact ⟨addrs, same ▸ agrees⟩

end C900
