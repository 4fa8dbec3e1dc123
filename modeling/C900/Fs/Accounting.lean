import C900.Fs.Repair
import Mathlib.Data.Finset.Dedup
import Mathlib.Data.Finset.Insert

/-!
# The books of the consistency check

`check_blocks` keeps a first owner for each block and two dictionaries. A reference is a block
at a place of the block map of a file or directory that begins below its size. After the whole
walk the dictionaries say which blocks have two references or more and which references are out
of range, with one entry for each reference.
-/

namespace C900

/-! ## References -/

/-- The inodes that reference a block, one entry for each reference. -/
def claimants (claims : List Claim) (b : Nat) : List Nat :=
  (claims.filter fun claim => claim.2 = b).map Prod.fst

/-- The references of an inode that are out of range. -/
def strays (isize fsize : Nat) (claims : List Claim) (ino : Nat) : List Nat :=
  (claims.filter fun claim => claim.1 = ino ∧ (claim.2 < isize ∨ fsize ≤ claim.2)).map Prod.snd

/-- The distinct blocks in range that are referenced. -/
def claimedBlocks (isize fsize : Nat) (claims : List Claim) : Finset Nat :=
  ((claims.map Prod.snd).filter fun b => isize ≤ b ∧ b < fsize).toFinset

section References

variable (fs : CoherentFs) (image : Image)

/-- A pointer block past the end of the image has no references below it. -/
theorem CoherentFs.pointer_slot_outside (inode : Inode) (p : BlockPlace)
    (outside : image.len < (fs.partOff + fs.pointer image inode p + 1) * blockSize) (i : Nat) :
    fs.pointer image inode (p.slot i) = 0 := by
  unfold pointer at outside ⊢
  rw [BlockPlace.slot, PointerTree.follow_append]
  by_cases hole : PointerTree.follow (fs.entry image) (inode.addrs.getD p.root 0) p.path = 0
  · rw [hole, PointerTree.follow_zero]
  · rw [PointerTree.follow_cons hole, PointerTree.follow_nil, fs.entry_outside image outside]

end References

/-! ## Dictionaries -/

theorem lookup_map_value (dict : List (Nat × List Nat)) (key : Nat) (value : Nat) (k : Nat) :
    (dict.map fun (k, values) => if k == key then (k, values ++ [value]) else (k, values)).lookup k =
      if k = key then (dict.lookup key).map (· ++ [value]) else dict.lookup k := by
  induction dict with
  | nil => simp
  | cons head rest inductionHypothesis =>
    obtain ⟨own, values⟩ := head
    rw [List.map_cons]
    by_cases here : own = key
    · subst here
      by_cases asked : k = own
      · subst asked
        simp
      · simp only [beq_self_eq_true, if_true, List.lookup_cons, beq_eq_false_iff_ne.mpr asked,
          inductionHypothesis, if_neg asked]
    · have other : (own == key) = false := beq_eq_false_iff_ne.mpr here
      simp only [other, Bool.false_eq_true, if_false, List.lookup_cons, inductionHypothesis,
        beq_eq_false_iff_ne.mpr (Ne.symm here)]
      by_cases asked : k = own
      · subst asked
        simp only [beq_self_eq_true, if_neg here]
      · simp only [beq_eq_false_iff_ne.mpr asked]

/-- A dictionary after a value is appended under a key. -/
theorem lookup_appendTo (dict : List (Nat × List Nat)) (key : Nat) (initial : List Nat)
    (value k : Nat) :
    (appendTo dict key initial value).lookup k =
      if k = key then some ((dict.lookup key).getD initial ++ [value]) else dict.lookup k := by
  unfold appendTo
  cases found : dict.lookup key with
  | none =>
    have absent : dict.any (·.1 == key) = false := by
      rw [List.any_eq_false]
      intro pair member
      have differs := List.lookup_eq_none_iff.mp found pair member
      rw [beq_iff_eq]
      exact fun same => absurd (beq_iff_eq.mpr same.symm) (Bool.eq_false_iff.mp (by simpa using differs))
    rw [absent, if_neg Bool.false_ne_true, List.lookup_append]
    by_cases asked : k = key
    · subst asked
      rw [found, if_pos rfl]
      simp
    · have absent : List.lookup k [(key, initial ++ [value])] = none := by
        rw [List.lookup_cons, beq_eq_false_iff_ne.mpr asked]
        rfl
      rw [if_neg asked, absent, Option.or_none]
  | some values =>
    have present : dict.any (·.1 == key) = true := by
      obtain ⟨front, back, split, -⟩ := List.lookup_eq_some_iff.mp found
      rw [split]
      simp
    rw [present, if_pos rfl, lookup_map_value, found]
    rfl

theorem appendTo_keys_nodup {dict : List (Nat × List Nat)} (distinct : (dict.map Prod.fst).Nodup)
    (key : Nat) (initial : List Nat) (value : Nat) :
    ((appendTo dict key initial value).map Prod.fst).Nodup := by
  unfold appendTo
  split
  case isTrue =>
    have same : ((dict.map fun (k, values) =>
        if k == key then (k, values ++ [value]) else (k, values)).map Prod.fst) =
        dict.map Prod.fst := by
      rw [List.map_map]
      apply List.map_congr_left
      rintro ⟨k, values⟩ -
      rw [Function.comp_apply]
      dsimp only
      split <;> rfl
    rw [same]
    exact distinct
  case isFalse absent =>
    rw [List.map_append, List.map_singleton]
    refine List.Nodup.append distinct (List.nodup_singleton key) ?_
    intro k member new
    rw [List.mem_singleton.mp new] at member
    obtain ⟨pair, inDict, same⟩ := List.mem_map.mp member
    exact absent (List.any_eq_true.mpr ⟨pair, inDict, beq_iff_eq.mpr same⟩)

/-! ## The books -/

/-- The report and the owners after some references. -/
structure Books (isize fsize : Nat) (claims : List Claim) (state : FsckReport × List (Nat × Nat)) :
    Prop where
  bounds : state.1.isize = isize ∧ state.1.fsize = fsize
  /-- The first claimant of a block in range owns it. -/
  owner : ∀ b, state.2.lookup b =
    if isize ≤ b ∧ b < fsize then (claimants claims b).head? else none
  used : state.1.usedBlocks = (claimedBlocks isize fsize claims).card
  crossLinked : ∀ b, state.1.crossLinked.lookup b =
    if isize ≤ b ∧ b < fsize ∧ 2 ≤ (claimants claims b).length then some (claimants claims b)
    else none
  outOfRange : ∀ ino, state.1.outOfRange.lookup ino =
    if strays isize fsize claims ino = [] then none else some (strays isize fsize claims ino)
  keys : (state.1.crossLinked.map Prod.fst).Nodup ∧ (state.1.outOfRange.map Prod.fst).Nodup

section Steps

variable {isize fsize : Nat} {claims : List Claim} {state : FsckReport × List (Nat × Nat)}

theorem claimants_append (claims : List Claim) (ino rel b : Nat) :
    claimants (claims ++ [(ino, rel)]) b =
      if b = rel then claimants claims b ++ [ino] else claimants claims b := by
  unfold claimants
  rw [List.filter_append, List.map_append]
  by_cases same : b = rel
  · subst same
    simp
  · simp [same, Ne.symm same]

theorem strays_append (claims : List Claim) (ino rel i : Nat) :
    strays isize fsize (claims ++ [(ino, rel)]) i =
      if i = ino ∧ (rel < isize ∨ fsize ≤ rel) then strays isize fsize claims i ++ [rel]
      else strays isize fsize claims i := by
  unfold strays
  rw [List.filter_append, List.map_append, List.filter_singleton]
  by_cases stray : i = ino ∧ (rel < isize ∨ fsize ≤ rel)
  · have kept : decide (ino = i ∧ (rel < isize ∨ fsize ≤ rel)) = true :=
      decide_eq_true ⟨stray.1.symm, stray.2⟩
    rw [if_pos stray, kept]
    rfl
  · have dropped : decide (ino = i ∧ (rel < isize ∨ fsize ≤ rel)) = false :=
      decide_eq_false fun both => stray ⟨both.1.symm, both.2⟩
    rw [if_neg stray, dropped]
    exact List.append_nil _

theorem strays_inArea {rel : Nat} (inArea : isize ≤ rel ∧ rel < fsize) (ino i : Nat) :
    strays isize fsize (claims ++ [(ino, rel)]) i = strays isize fsize claims i := by
  have inside : ¬ (i = ino ∧ (rel < isize ∨ fsize ≤ rel)) := by omega
  rw [strays_append, if_neg inside]

theorem claimedBlocks_append (claims : List Claim) (ino rel : Nat) :
    claimedBlocks isize fsize (claims ++ [(ino, rel)]) =
      if isize ≤ rel ∧ rel < fsize then insert rel (claimedBlocks isize fsize claims)
      else claimedBlocks isize fsize claims := by
  unfold claimedBlocks
  rw [List.map_append, List.filter_append, List.map_singleton, List.filter_singleton]
  by_cases inArea : isize ≤ rel ∧ rel < fsize
  · rw [if_pos inArea, decide_eq_true inArea]
    ext b
    simp
  · rw [if_neg inArea, decide_eq_false inArea]
    simp

theorem mem_claimedBlocks {b : Nat} :
    b ∈ claimedBlocks isize fsize claims ↔ (isize ≤ b ∧ b < fsize) ∧ claimants claims b ≠ [] := by
  unfold claimedBlocks claimants
  rw [List.mem_toFinset, List.mem_filter, decide_eq_true_eq, List.mem_map, ne_eq,
    List.map_eq_nil_iff, List.filter_eq_nil_iff]
  simp only [decide_eq_true_eq, not_forall, not_not, exists_prop]
  exact And.comm

/-- A reference out of range. -/
theorem Books.outside (books : Books isize fsize claims state) (ino : Nat) {rel : Nat}
    (outside : rel < isize ∨ fsize ≤ rel) :
    Books isize fsize (claims ++ [(ino, rel)])
      ({ state.1 with outOfRange := appendTo state.1.outOfRange ino [] rel }, state.2) := by
  have others : ∀ b, isize ≤ b ∧ b < fsize →
      claimants (claims ++ [(ino, rel)]) b = claimants claims b := fun b inArea => by
    rw [claimants_append, if_neg (by omega)]
  refine ⟨books.bounds, fun b => ?_, ?_, fun b => ?_, fun i => ?_, books.keys.1,
    appendTo_keys_nodup books.keys.2 _ _ _⟩
  · rw [books.owner]
    by_cases inArea : isize ≤ b ∧ b < fsize
    · rw [if_pos inArea, if_pos inArea, others b inArea]
    · rw [if_neg inArea, if_neg inArea]
  · rw [claimedBlocks_append, if_neg (by omega)]
    exact books.used
  · dsimp only
    rw [books.crossLinked]
    by_cases inArea : isize ≤ b ∧ b < fsize
    · rw [others b inArea]
    · rw [if_neg fun all => inArea ⟨all.1, all.2.1⟩, if_neg fun all => inArea ⟨all.1, all.2.1⟩]
  · dsimp only
    rw [lookup_appendTo, books.outOfRange, books.outOfRange]
    by_cases same : i = ino
    · subst same
      have more : strays isize fsize (claims ++ [(i, rel)]) i =
          strays isize fsize claims i ++ [rel] := by
        rw [strays_append, if_pos ⟨rfl, outside⟩]
      rw [if_pos rfl, more, if_neg (List.append_ne_nil_of_right_ne_nil _ (List.cons_ne_nil _ _))]
      by_cases none : strays isize fsize claims i = []
      · rw [if_pos none, none]
        rfl
      · rw [if_neg none]
        rfl
    · have others : strays isize fsize (claims ++ [(ino, rel)]) i = strays isize fsize claims i := by
        rw [strays_append, if_neg fun both => same both.1]
      rw [if_neg same, others]

/-- The first reference to a block in range. -/
theorem Books.first (books : Books isize fsize claims state) (ino : Nat) {rel : Nat}
    (inArea : isize ≤ rel ∧ rel < fsize) (free : state.2.lookup rel = none) :
    Books isize fsize (claims ++ [(ino, rel)])
      ({ state.1 with usedBlocks := state.1.usedBlocks + 1 }, state.2 ++ [(rel, ino)]) := by
  have unclaimed : claimants claims rel = [] := by
    have owned := books.owner rel
    rw [free, if_pos inArea] at owned
    exact List.head?_eq_none_iff.mp owned.symm
  refine ⟨books.bounds, fun b => ?_, ?_, fun b => ?_, fun i => ?_, books.keys⟩
  · dsimp only
    rw [List.lookup_append, books.owner, claimants_append]
    by_cases same : b = rel
    · subst same
      rw [if_pos inArea, if_pos inArea, if_pos rfl, unclaimed]
      simp
    · have absent : List.lookup b [(rel, ino)] = none := by
        rw [List.lookup_cons, beq_eq_false_iff_ne.mpr same]
        rfl
      rw [if_neg same, absent, Option.or_none]
  · rw [claimedBlocks_append, if_pos inArea, Finset.card_insert_of_notMem]
    · exact congrArg (· + 1) books.used
    · rw [mem_claimedBlocks]
      exact fun both => both.2 unclaimed
  · dsimp only
    rw [books.crossLinked, claimants_append]
    by_cases same : b = rel
    · subst same
      rw [if_pos rfl, unclaimed]
      simp
    · rw [if_neg same]
  · dsimp only
    rw [books.outOfRange, strays_inArea inArea]

/-- A further reference to a block in range. -/
theorem Books.further (books : Books isize fsize claims state) (ino : Nat) {rel owner : Nat}
    (inArea : isize ≤ rel ∧ rel < fsize) (owned : state.2.lookup rel = some owner) :
    Books isize fsize (claims ++ [(ino, rel)])
      ({ state.1 with crossLinked := appendTo state.1.crossLinked rel [owner] ino }, state.2) := by
  obtain ⟨rest, claimed⟩ : ∃ rest, claimants claims rel = owner :: rest := by
    have first := books.owner rel
    rw [owned, if_pos inArea] at first
    exact List.head?_eq_some_iff.mp first.symm
  refine ⟨books.bounds, fun b => ?_, ?_, fun b => ?_, fun i => ?_,
    appendTo_keys_nodup books.keys.1 _ _ _, books.keys.2⟩
  · rw [books.owner, claimants_append]
    by_cases same : b = rel
    · subst same
      rw [if_pos rfl, claimed]
      rfl
    · rw [if_neg same]
  · have member : rel ∈ claimedBlocks isize fsize claims :=
      mem_claimedBlocks.mpr ⟨inArea, by simp [claimed]⟩
    rw [claimedBlocks_append, if_pos inArea, Finset.insert_eq_of_mem member]
    exact books.used
  · dsimp only
    rw [lookup_appendTo, books.crossLinked, books.crossLinked, claimants_append]
    by_cases same : b = rel
    · subst same
      have both : isize ≤ b ∧ b < fsize ∧ 2 ≤ (claimants claims b ++ [ino]).length := by
        rw [claimed, List.length_append, List.length_cons, List.length_singleton]
        omega
      rw [if_pos rfl, if_pos rfl, if_pos both]
      by_cases second : isize ≤ b ∧ b < fsize ∧ 2 ≤ (claimants claims b).length
      · rw [if_pos second]
        rfl
      · have alone : rest = [] := by
          rw [claimed, List.length_cons] at second
          exact List.eq_nil_of_length_eq_zero (by omega)
        rw [if_neg second, claimed, alone]
        rfl
    · rw [if_neg same, if_neg same]
  · dsimp only
    rw [books.outOfRange, strays_inArea inArea]

/-- One reference is booked. -/
theorem Books.step (books : Books isize fsize claims state) (ino rel : Nat) (indirect : Bool) :
    Books isize fsize (claims ++ [(ino, rel)]) (checkVisit ino state (rel, indirect)) := by
  obtain ⟨rep, owner⟩ := state
  obtain ⟨rfl, rfl⟩ := books.bounds
  unfold checkVisit
  dsimp only
  by_cases inArea : rep.isize ≤ rel ∧ rel < rep.fsize
  · rw [if_neg (by omega)]
    cases found : owner.lookup rel with
    | none => exact books.first ino inArea found
    | some first => exact books.further ino inArea found
  · have outside : rel < rep.isize ∨ rep.fsize ≤ rel := by omega
    rw [if_pos outside]
    exact books.outside ino outside

/-- The visits to one inode. -/
theorem Books.visits (books : Books isize fsize claims state) (ino : Nat) (visits : List Visit) :
    Books isize fsize (claims ++ (visits.map Prod.fst).map (Prod.mk ino))
      (visits.foldl (checkVisit ino) state) := by
  induction visits generalizing claims state with
  | nil =>
    rw [List.map_nil, List.map_nil, List.append_nil]
    exact books
  | cons visit rest inductionHypothesis =>
    have later := inductionHypothesis (books.step ino visit.1 visit.2)
    rw [List.append_assoc] at later
    exact later

/-- The walk over the inodes of a list. -/
theorem Books.owners (fs : CoherentFs) (image : Image) (books : Books isize fsize claims state)
    (owners : List (Nat × Inode)) (addrs : ∀ owner ∈ owners, owner.2.addrs.length = rootCount) :
    Books isize fsize
      (claims ++ owners.flatMap fun (ino, inode) =>
        (fs.references image inode).map (Prod.mk ino))
      (owners.foldl (fun state (ino, inode) =>
        (fs.walkInodeBlocks image inode).foldl (checkVisit ino) state) state) := by
  induction owners generalizing claims state with
  | nil =>
    rw [List.flatMap_nil, List.append_nil]
    exact books
  | cons owner rest inductionHypothesis =>
    obtain ⟨ino, inode⟩ := owner
    have own := books.visits ino (fs.walkInodeBlocks image inode)
    rw [fs.walkInodeBlocks_references image inode (addrs _ List.mem_cons_self)] at own
    have later := inductionHypothesis own fun o member => addrs o (List.mem_cons_of_mem _ member)
    rw [List.append_assoc] at later
    exact later

end Steps

/-- `check_blocks` of a partition with a plausible superblock. A block is reported as
cross-linked when it is in range and has two references or more, with the inode of each
reference; the references out of range are reported under their inodes; the used blocks are the
distinct blocks in range, and the free ones are the rest of the area. Below a pointer block past
the end of the image there are no references. -/
theorem checkBlocks_accounts (fs : CoherentFs) (image : Image) (isize fsize : Nat)
    (superblock : (image.readBlock (fs.partOff + 1)).get16 sbIsize = isize ∧
      (image.readBlock (fs.partOff + 1)).get32 sbFsize = fsize)
    (bounds : 2 ≤ isize ∧ isize < fsize) :
    ∃ rep, fs.checkBlocks image = .ok rep ∧
      (∀ b, rep.crossLinked.lookup b =
        if isize ≤ b ∧ b < fsize ∧ 2 ≤ (claimants (fs.claims image isize) b).length then
          some (claimants (fs.claims image isize) b)
        else none) ∧
      (∀ ino, rep.outOfRange.lookup ino =
        if strays isize fsize (fs.claims image isize) ino = [] then none
        else some (strays isize fsize (fs.claims image isize) ino)) ∧
      (rep.crossLinked.map Prod.fst).Nodup ∧ (rep.outOfRange.map Prod.fst).Nodup ∧
      rep.usedBlocks = (claimedBlocks isize fsize (fs.claims image isize)).card ∧
      rep.usedBlocks + rep.freeBlocks = (fsize : Int) - isize ∧
      ∀ inode p, image.len < (fs.partOff + fs.pointer image inode p + 1) * blockSize →
        ∀ i, fs.pointer image inode (p.slot i) = 0 := by
  obtain ⟨isizeEq, fsizeEq⟩ := superblock
  have empty : Books isize fsize [] (fs.startReport image isize fsize, []) := by
    refine ⟨⟨rfl, rfl⟩, fun b => ?_, rfl, fun b => ?_, fun i => rfl, List.nodup_nil, List.nodup_nil⟩
    · split <;> rfl
    · exact (if_neg fun all => Nat.not_succ_le_zero 1 all.2.2).symm
  have books := empty.owners fs image (fs.blockOwners image isize) fun owner member =>
    fs.blockOwners_addrs image member
  rw [List.nil_append] at books
  subst isizeEq fsizeEq
  have checked : fs.checkBlocks image = _ := if_neg (by omega)
  refine ⟨_, checked, books.crossLinked, books.outOfRange, books.keys.1, books.keys.2,
    books.used, ?_, fun inode p outside i => fs.pointer_slot_outside image inode p outside i⟩
  dsimp only
  omega

/-- A partition of three data blocks: inode 1 is a file of two blocks, and both are block 4. -/
def selfLinkedImage : Image where
  len := 6 * 512
  byte := fun i =>
    if i = 512 then 3
    else if i = 516 then 6
    else if i = 1025 then 0x80
    else if i = 1035 then 4
    else if i = 1037 then 4
    else if i = 1040 then 4
    else 0

theorem checkBlocks_accounts_selfLinked : (2 ≤ 3 ∧ 3 < 6) ∧
    ∃ rep, CoherentFs.checkBlocks ⟨0⟩ selfLinkedImage = .ok rep ∧
      rep.crossLinked.lookup 4 = some [1, 1] ∧ rep.usedBlocks = 1 := by
  have bounds : 2 ≤ 3 ∧ 3 < 6 := by decide
  obtain ⟨rep, checked, cross, -, -, -, used, -⟩ :=
    checkBlocks_accounts ⟨0⟩ selfLinkedImage 3 6 (by decide) bounds
  have twice : claimants (CoherentFs.claims ⟨0⟩ selfLinkedImage 3) 4 = [1, 1] := by
    decide
  have once : (claimedBlocks 3 6 (CoherentFs.claims ⟨0⟩ selfLinkedImage 3)).card = 1 := by
    decide
  refine ⟨bounds, rep, checked, ?_, used.trans once⟩
  rw [cross, twice]
  rfl

end C900
