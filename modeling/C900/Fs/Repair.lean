import C900.Fs.Rebuild

/-!
# What a rebuild leaves alone

`rebuild_free_list` writes the superblock and blocks that it believes unused. If
the check reports no block out of range, these are no blocks of the inode table
and no blocks that the read side looks at, so every inode keeps its contents,
whether the rebuild succeeds or raises.
-/

namespace C900

/-! ## Programs that write few blocks -/

section Touches

variable {α β : Type} {changed : Nat → Prop}

/-- The image that a run leaves behind, also one that raises. -/
def imageAfter : EStateM.Result FsError Image α → Image
  | .ok _ image => image
  | .error _ image => image

/-- Whatever its outcome, a run changes no block outside `changed`. -/
def FsM.Touches (changed : Nat → Prop) (x : FsM α) : Prop :=
  ∀ image, Image.AgreeExcept changed image (imageAfter (x image))

theorem FsM.Touches.pure (a : α) : FsM.Touches changed (Pure.pure a : FsM α) :=
  fun image => Image.AgreeExcept.refl _ image

theorem FsM.Touches.throw (e : FsError) : FsM.Touches changed (throw e : FsM α) :=
  fun image => Image.AgreeExcept.refl _ image

theorem FsM.Touches.bind {x : FsM α} {f : α → FsM β} (first : FsM.Touches changed x)
    (rest : ∀ a, FsM.Touches changed (f a)) : FsM.Touches changed (x >>= f) := by
  intro image
  have one := first image
  rw [FsM.bind_apply]
  cases call : x image with
  | ok a mid =>
    rw [call] at one
    exact one.trans (rest a mid)
  | error e mid =>
    rw [call] at one
    exact one

theorem FsM.Touches.ite {c : Prop} [Decidable c] {x y : FsM α} (yes : FsM.Touches changed x)
    (no : FsM.Touches changed y) : FsM.Touches changed (if c then x else y) := by
  split
  · exact yes
  · exact no

theorem FsM.Touches.mono {larger : Nat → Prop} {x : FsM α} (touches : FsM.Touches changed x)
    (sub : ∀ bno, changed bno → larger bno) : FsM.Touches larger x :=
  fun image => (touches image).mono sub

theorem FsM.Touches.readBlock (bno : Nat) : FsM.Touches changed (C900.readBlock bno) :=
  fun image => Image.AgreeExcept.refl _ image

theorem FsM.Touches.writeBlock {bno : Nat} (data : Buffer) (may : changed bno) :
    FsM.Touches changed (C900.writeBlock bno data) := by
  intro image
  cases inside : image.hasBlock bno with
  | true =>
    rw [writeBlock_inside inside]
    exact (image.setBlock_agreeExcept bno data).mono fun _ eq => eq ▸ may
  | false =>
    rw [writeBlock_outside inside]
    exact Image.AgreeExcept.refl _ image

end Touches

/-! ## The rebuild -/

section Rebuild

variable (fs : CoherentFs)

/-- `free_block` writes the superblock and the freed block at most. -/
theorem CoherentFs.freeBlock_touches (now b : Nat) :
    FsM.Touches (fs.Freed [b]) (fs.freeBlock now b) := by
  have sb : fs.Freed [b] (fs.partOff + 1) := Or.inl rfl
  have block : fs.Freed [b] (fs.partOff + b) := Or.inr ⟨b, List.mem_singleton_self b, rfl⟩
  have write : ∀ data, FsM.Touches (fs.Freed [b]) (fs.writeSb data) :=
    fun data => .writeBlock data sb
  unfold CoherentFs.freeBlock
  refine .ite (.throw _) (.bind (.readBlock _) fun data => ?_)
  refine .ite (.throw _) (.ite (.throw _) (.ite ?_ (write _)))
  exact .bind (.writeBlock _ block) fun _ => write _

theorem CoherentFs.freeAll_touches (clock : Nat → Nat) (todo : List Nat) :
    FsM.Touches (fs.Freed todo) (fs.freeAll clock todo) := by
  induction todo with
  | nil => exact .pure ()
  | cons b rest inductionHypothesis =>
    refine .bind ((fs.freeBlock_touches (clock b) b).mono ?_) fun _ =>
      inductionHypothesis.mono ?_
    · rintro bno (sb | ⟨c, mem, eq⟩)
      · exact Or.inl sb
      · exact Or.inr ⟨c, List.mem_cons.mpr (Or.inl (List.mem_singleton.mp mem)), eq⟩
    · rintro bno (sb | ⟨c, mem, eq⟩)
      · exact Or.inl sb
      · exact Or.inr ⟨c, List.mem_cons_of_mem b mem, eq⟩

/-- A rebuild of a partition that passes the check writes the superblock and the
unused blocks at most. -/
theorem CoherentFs.rebuildFreeList_touches {image : Image} {rep : FsckReport}
    (passes : fs.checkBlocks image = .ok rep) (now : Nat) (clock : Nat → Nat) :
    Image.AgreeExcept (fs.Freed (fs.unusedBlocks image rep)) image
      (imageAfter (fs.rebuildFreeList now clock image)) := by
  obtain ⟨emptied, free, only, sees, run⟩ := CoherentFs.rebuildFreeList_run passes now clock
  have touched := fs.freeAll_touches clock (fs.unusedBlocks image rep).reverse emptied
  have first : Image.AgreeExcept (fs.Freed (fs.unusedBlocks image rep)) image emptied :=
    Image.AgreeExcept.mono only fun _ sb => Or.inl sb
  have frees : Image.AgreeExcept (fs.Freed (fs.unusedBlocks image rep)) emptied
      (imageAfter (fs.freeAll clock (fs.unusedBlocks image rep).reverse emptied)) := by
    refine touched.mono ?_
    rintro bno (sb | ⟨b, mem, eq⟩)
    · exact Or.inl sb
    · exact Or.inr ⟨b, List.mem_reverse.mp mem, eq⟩
  rw [run]
  cases call : fs.freeAll clock (fs.unusedBlocks image rep).reverse emptied with
  | ok _ after =>
    rw [call] at frees
    exact first.trans frees
  | error e after =>
    rw [call] at frees
    exact first.trans frees

end Rebuild

/-! ## The report of blocks out of range -/

section Range

variable {fs : CoherentFs} {image : Image} {rep : FsckReport}

theorem appendTo_ne_nil (dict : List (Nat × List Nat)) (key : Nat) (initial : List Nat)
    (value : Nat) : appendTo dict key initial value ≠ [] := by
  unfold appendTo
  split
  case isTrue found =>
    intro empty
    rw [List.map_eq_nil_iff.mp empty] at found
    cases found
  case isFalse => exact List.append_ne_nil_of_right_ne_nil _ (List.cons_ne_nil _ _)

/-- A visit that leaves the report of blocks out of range empty found it so, and
is of a block in range. -/
theorem checkVisit_inRange {ino : Nat} {state : FsckReport × List (Nat × Nat)} {visit : Visit}
    (clean : (checkVisit ino state visit).1.outOfRange = []) :
    state.1.outOfRange = [] ∧ state.1.isize ≤ visit.1 ∧ visit.1 < state.1.fsize := by
  obtain ⟨report, owner⟩ := state
  dsimp only [checkVisit] at clean ⊢
  split at clean
  case isTrue outside => exact absurd clean (appendTo_ne_nil _ _ _ _)
  case isFalse inside =>
    have range : report.isize ≤ visit.1 ∧ visit.1 < report.fsize := by omega
    cases found : owner.lookup visit.1 with
    | some first =>
      rw [found] at clean
      exact ⟨clean, range⟩
    | none =>
      rw [found] at clean
      exact ⟨clean, range⟩

/-- The visits to one inode. -/
theorem checkVisits_inRange {ino : Nat} (visits : List Visit)
    {state : FsckReport × List (Nat × Nat)}
    (clean : (visits.foldl (checkVisit ino) state).1.outOfRange = []) :
    state.1.outOfRange = [] ∧
      (visits.foldl (checkVisit ino) state).1.isize = state.1.isize ∧
      (visits.foldl (checkVisit ino) state).1.fsize = state.1.fsize ∧
      ∀ visit ∈ visits, state.1.isize ≤ visit.1 ∧ visit.1 < state.1.fsize := by
  induction visits generalizing state with
  | nil => exact ⟨clean, rfl, rfl, nofun⟩
  | cons visit rest inductionHypothesis =>
    rw [List.foldl_cons] at clean ⊢
    obtain ⟨before, isize, fsize, inside⟩ := inductionHypothesis clean
    obtain ⟨start, first⟩ := checkVisit_inRange before
    obtain ⟨sameIsize, sameFsize⟩ := checkVisit_bounds ino state visit
    rw [sameIsize, sameFsize] at inside
    refine ⟨start, isize.trans sameIsize, fsize.trans sameFsize, fun v mem => ?_⟩
    rcases List.mem_cons.mp mem with rfl | later
    · exact first
    · exact inside v later

/-- The visits to the inodes of a list. -/
theorem checkOwners_inRange (owners : List (Nat × Inode)) {state : FsckReport × List (Nat × Nat)}
    (clean : (owners.foldl (fun state (ino, inode) =>
      (fs.walkInodeBlocks image inode).foldl (checkVisit ino) state) state).1.outOfRange = []) :
    state.1.outOfRange = [] ∧ ∀ owner ∈ owners, ∀ visit ∈ fs.walkInodeBlocks image owner.2,
      state.1.isize ≤ visit.1 ∧ visit.1 < state.1.fsize := by
  induction owners generalizing state with
  | nil => exact ⟨clean, nofun⟩
  | cons owner rest inductionHypothesis =>
    rw [List.foldl_cons] at clean
    obtain ⟨before, inside⟩ := inductionHypothesis clean
    obtain ⟨start, isize, fsize, first⟩ := checkVisits_inRange _ before
    rw [isize, fsize] at inside
    refine ⟨start, fun o mem => ?_⟩
    rcases List.mem_cons.mp mem with rfl | later
    · exact first
    · exact inside o later

/-- If the check reports no block out of range then every visited block is in
range. -/
theorem CoherentFs.checkBlocks_inRange (passes : fs.checkBlocks image = .ok rep)
    (clean : rep.outOfRange = []) : ∀ owner ∈ fs.blockOwners image rep.isize,
      ∀ visit ∈ fs.walkInodeBlocks image owner.2, rep.isize ≤ visit.1 ∧ visit.1 < rep.fsize := by
  obtain ⟨isize, fsize, _, _⟩ := CoherentFs.checkBlocks_bounds passes
  unfold CoherentFs.checkBlocks at passes
  dsimp only at passes
  split at passes
  · cases passes
  · rw [← Except.ok.inj passes] at clean
    rw [isize, fsize]
    exact (checkOwners_inRange _ clean).2

end Range

/-! ## What every file keeps -/

section Frame

variable (fs : CoherentFs) (image : Image)

/-- No file or directory of the inode table references block `b` within its size:
the check's walk does not visit it and the read side does not list it. -/
def CoherentFs.Unreferenced (isize b : Nat) : Prop :=
  ∀ owner ∈ fs.blockOwners image isize,
    (∀ visit ∈ fs.walkInodeBlocks image owner.2, visit.1 ≠ b) ∧
      some (fs.partOff + b) ∉ fs.fileBlocks image owner.2

/-- The superblock and the data blocks that nothing references. -/
def CoherentFs.Spare (rep : FsckReport) (bno : Nat) : Prop :=
  bno = fs.partOff + 1 ∨ ∃ b, rep.isize ≤ b ∧ b < rep.fsize ∧
    fs.Unreferenced image rep.isize b ∧ bno = fs.partOff + b

variable {fs image} {rep : FsckReport}

/-- The files and directories of the inode table own blocks. -/
theorem CoherentFs.mem_blockOwners {isize ino : Nat} {inode : Inode} (positive : 1 ≤ ino)
    (inTable : ino ≤ (isize - 2) * inodesPerBlock) (found : fs.stat image ino = some inode)
    (owns : inode.isFile || inode.isDir) : (ino, inode) ∈ fs.blockOwners image isize := by
  unfold CoherentFs.blockOwners
  refine List.mem_filterMap.mpr ⟨ino - 1, List.mem_range.mpr (by omega), ?_⟩
  have same : ino - 1 + 1 = ino := by omega
  have kind : (!inode.isFile && !inode.isDir) = false := by
    rw [← Bool.not_or, owns, Bool.not_true]
  simp only [same, found, kind, Bool.false_eq_true, if_false]

/-- In range, an unused block is one that nothing references. -/
theorem CoherentFs.unreferenced_of_unused (inRange : ∀ owner ∈ fs.blockOwners image rep.isize,
      ∀ visit ∈ fs.walkInodeBlocks image owner.2, rep.isize ≤ visit.1 ∧ visit.1 < rep.fsize)
    {b : Nat} (unused : b ∈ fs.unusedBlocks image rep) :
    fs.Unreferenced image rep.isize b := by
  have notUsed := (List.mem_filter.mp unused).2
  have noVisit : ∀ owner ∈ fs.blockOwners image rep.isize,
      ∀ visit ∈ fs.walkInodeBlocks image owner.2, visit.1 ≠ b := by
    rintro owner mem visit member rfl
    have used : visit.1 ∈ fs.usedBlocks image rep := by
      refine List.mem_filter.mpr ⟨List.mem_flatMap.mpr ⟨owner, mem, ?_⟩, ?_⟩
      · exact List.mem_map.mpr ⟨visit, member, rfl⟩
      · exact decide_eq_true (inRange owner mem visit member)
    simp [used] at notUsed
  intro owner mem
  refine ⟨noVisit owner mem, fun listed => ?_⟩
  obtain ⟨visit, member, value⟩ := (fs.fileBlocks_visited owner.2 image image).1 _ listed
  exact noVisit owner mem visit member (by omega)

/-- A change outside the referenced blocks leaves every inode of the table and its
contents. -/
theorem CoherentFs.readFile_kept {after : Image}
    (agree : Image.AgreeExcept (fs.Spare image rep) image after)
    (data : 2 ≤ rep.isize) (inRange : ∀ owner ∈ fs.blockOwners image rep.isize,
      ∀ visit ∈ fs.walkInodeBlocks image owner.2, rep.isize ≤ visit.1 ∧ visit.1 < rep.fsize)
    {ino : Nat} {inode : Inode} (positive : 1 ≤ ino)
    (inTable : ino ≤ (rep.isize - 2) * inodesPerBlock) (found : fs.stat image ino = some inode)
    (owns : inode.isFile || inode.isDir) : fs.readFile after inode = fs.readFile image inode := by
  have owner := CoherentFs.mem_blockOwners positive inTable found owns
  refine fs.readFile_same inode fun visit member => agree.block _ ?_
  have range := inRange _ owner visit member
  rintro (sb | ⟨b, low, high, free, eq⟩)
  · omega
  · exact (free _ owner).1 visit member (by omega)

end Frame

/-- If the check reports no block out of range, a rebuild, also one that raises,
writes only the superblock and unreferenced data blocks; so it keeps the inode
table, and the contents of every file and directory. -/
theorem rebuildFreeList_frame (fs : CoherentFs) (image : Image) (rep : FsckReport) (now : Nat)
    (clock : Nat → Nat) (passes : fs.checkBlocks image = .ok rep) (clean : rep.outOfRange = []) :
    let after := imageAfter (fs.rebuildFreeList now clock image)
    Image.AgreeExcept (fs.Spare image rep) image after ∧
      (∀ bno, fs.partOff + 2 ≤ bno → bno < fs.partOff + rep.isize →
        after.readBlock bno = image.readBlock bno) ∧
      ∀ ino, 1 ≤ ino → ino ≤ (rep.isize - 2) * inodesPerBlock →
        fs.stat after ino = fs.stat image ino ∧
        ∀ inode, fs.stat image ino = some inode → inode.isFile || inode.isDir →
          fs.readFile after inode = fs.readFile image inode := by
  obtain ⟨_, _, data, _⟩ := CoherentFs.checkBlocks_bounds passes
  have inRange := CoherentFs.checkBlocks_inRange passes clean
  have agree : Image.AgreeExcept (fs.Spare image rep) image
      (imageAfter (fs.rebuildFreeList now clock image)) := by
    refine (fs.rebuildFreeList_touches passes now clock).mono ?_
    rintro bno (sb | ⟨b, mem, eq⟩)
    · exact Or.inl sb
    · have area := CoherentFs.unusedBlocks_inArea b mem
      exact Or.inr ⟨b, area.1, area.2, CoherentFs.unreferenced_of_unused inRange mem, eq⟩
  have table : ∀ bno, fs.partOff + 2 ≤ bno → bno < fs.partOff + rep.isize →
      (imageAfter (fs.rebuildFreeList now clock image)).readBlock bno = image.readBlock bno := by
    intro bno low high
    refine agree.block bno ?_
    rintro (sb | ⟨b, above, _, _, eq⟩)
    · omega
    · omega
  refine ⟨agree, table, fun ino positive inTable => ⟨?_, fun inode found owns => ?_⟩⟩
  · have block : (ino - 1) / inodesPerBlock < rep.isize - 2 := by
      rw [Nat.div_lt_iff_lt_mul (by decide)]
      omega
    have place : fs.partOff + 2 + (ino - 1) / inodesPerBlock < fs.partOff + rep.isize := by
      rw [Nat.add_assoc]
      exact Nat.add_lt_add_left (by omega) _
    unfold CoherentFs.stat
    dsimp only
    rw [table _ (Nat.le_add_right _ _) place]
  · exact CoherentFs.readFile_kept agree data inRange positive inTable found owns

/-- A partition of three data blocks: inode 1 is a file of 5 bytes in block 4. -/
def oneFileImage : Image where
  len := 6 * 512
  byte := fun i =>
    if i = 512 then 3
    else if i = 516 then 6
    else if i = 1025 then 0x80
    else if i = 1034 then 5
    else if i = 1037 then 4
    else if i = 2050 then 7
    else 0

/-- A rebuild of `oneFileImage` keeps its file. -/
theorem rebuildFreeList_frame_oneFile :
    ∃ inode, CoherentFs.stat ⟨0⟩ oneFileImage 1 = some inode ∧
      CoherentFs.readFile ⟨0⟩ (imageAfter
        (CoherentFs.rebuildFreeList ⟨0⟩ 0 (fun _ => 0) oneFileImage)) inode = [0, 0, 7, 0, 0] := by
  obtain ⟨rep, passes, clean, isize⟩ : ∃ rep, CoherentFs.checkBlocks ⟨0⟩ oneFileImage = .ok rep ∧
      rep.outOfRange = [] ∧ rep.isize = 3 := ⟨_, rfl, rfl, rfl⟩
  obtain ⟨inode, found, owns, contents⟩ : ∃ inode, CoherentFs.stat ⟨0⟩ oneFileImage 1 =
      some inode ∧ (inode.isFile || inode.isDir) = true ∧
      CoherentFs.readFile ⟨0⟩ oneFileImage inode = [0, 0, 7, 0, 0] := ⟨_, rfl, rfl, by decide⟩
  have keeps := rebuildFreeList_frame ⟨0⟩ oneFileImage rep 0 (fun _ => 0) passes clean
  have kept := (keeps.2.2 1 (by decide) (by rw [isize]; decide)).2 inode found owns
  exact ⟨inode, found, kept.trans contents⟩

end C900
