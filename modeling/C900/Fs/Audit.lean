import C900.Fs.Accounting
import C900.Fs.FileTable

/-!
# The check of a consistent partition

On a consistent partition `check_blocks` reports nothing. If the partition is tidy too, the blocks
that it counts as free are those of the free list. What the check does not see are the pointers
behind the sizes of the inodes.
-/

namespace C900

section Audit

variable {fs : CoherentFs} {isize fsize ino b : Nat} {last : Option Nat} {image : Image}
  {inode : Inode} {list : List Nat}

/-- The inodes that the check looks at are the files and directories. -/
theorem CoherentFs.mem_blockOwners_iff :
    (ino, inode) ∈ fs.blockOwners image isize ↔ fs.Owner isize image ino inode := by
  constructor
  · intro member
    obtain ⟨i, small, found⟩ := List.mem_filterMap.mp member
    cases stat : fs.stat image (i + 1) with
    | none =>
      rw [stat] at found
      cases found
    | some node =>
      rw [stat] at found
      dsimp only at found
      split at found
      · cases found
      · next kind =>
        obtain ⟨rfl, rfl⟩ := Prod.mk.inj (Option.some.inj found)
        refine ⟨Nat.succ_pos i, Nat.succ_le_of_lt (List.mem_range.mp small), stat, ?_⟩
        simpa [Bool.and_eq_true, ← Bool.not_or, or_iff_not_imp_left] using kind
  · intro owner
    refine CoherentFs.mem_blockOwners owner.real owner.last owner.stat ?_
    simpa using owner.kind

/-- A filter keeps the order of the keys. -/
theorem filterMap_map_sublist {α β γ : Type*} {f : α → Option β} {key : β → γ} {g : α → γ}
    (keyed : ∀ a b, f a = some b → key b = g a) (l : List α) :
    ((l.filterMap f).map key).Sublist (l.map g) := by
  induction l with
  | nil => exact List.Sublist.slnil
  | cons a rest inductionHypothesis =>
    rw [List.filterMap_cons, List.map_cons]
    cases found : f a with
    | none => exact inductionHypothesis.cons _
    | some b =>
      dsimp only
      rw [List.map_cons, keyed a b found]
      exact inductionHypothesis.cons_cons _

/-- The inodes of the table come in order. -/
theorem CoherentFs.blockOwners_nodup (fs : CoherentFs) (image : Image) (isize : Nat) :
    ((fs.blockOwners image isize).map Prod.fst).Nodup := by
  unfold CoherentFs.blockOwners
  refine (filterMap_map_sublist (g := (· + 1)) (fun i owner found => ?_) _).nodup ?_
  · split at found
    · cases found
    · split at found
      · cases found
      · cases found
        rfl
  · exact List.nodup_range.map fun _ _ same => Nat.succ.inj same

/-! ## References -/

/-- A reference is a nonzero pointer of a valid place within the size. -/
theorem CoherentFs.mem_references :
    b ∈ fs.references image inode ↔ b ≠ 0 ∧ ∃ p : BlockPlace, p.Valid ∧
      p.first < blocksOf inode.size ∧ fs.pointer image inode p = b := by
  unfold CoherentFs.references
  rw [List.mem_filter, List.mem_map]
  constructor
  · rintro ⟨⟨p, member, here⟩, found⟩
    obtain ⟨valid, below⟩ := mem_placesBelow.mp member
    exact ⟨of_decide_eq_true found, p, valid, below, here⟩
  · rintro ⟨found, p, valid, below, here⟩
    exact ⟨⟨p, mem_placesBelow.mpr ⟨valid, below⟩, here⟩, decide_eq_true found⟩

/-- A block map of its own references each block once. -/
theorem CoherentFs.OwnMap.references_nodup {area : Nat → Prop} (map : fs.OwnMap area image inode) :
    (fs.references image inode).Nodup := by
  unfold CoherentFs.references
  rw [List.filter_map]
  refine ((placesBelow_nodup _).filter _).map_on fun p inP q inQ same => ?_
  obtain ⟨member, found⟩ := List.mem_filter.mp inP
  exact map.distinct (mem_placesBelow.mp member).1
    (mem_placesBelow.mp (List.mem_filter.mp inQ).1).1 (of_decide_eq_true found) same

/-- A claim is a reference of a file or directory. -/
theorem CoherentFs.mem_claims {claim : Claim} :
    claim ∈ fs.claims image isize ↔ ∃ inode, fs.Owner isize image claim.1 inode ∧
      claim.2 ∈ fs.references image inode := by
  unfold CoherentFs.claims
  rw [List.mem_flatMap]
  constructor
  · rintro ⟨⟨ino, inode⟩, owner, member⟩
    obtain ⟨b, referenced, rfl⟩ := List.mem_map.mp member
    exact ⟨inode, CoherentFs.mem_blockOwners_iff.mp owner, referenced⟩
  · rintro ⟨inode, owner, referenced⟩
    exact ⟨(claim.1, inode), CoherentFs.mem_blockOwners_iff.mpr owner,
      List.mem_map.mpr ⟨claim.2, referenced, rfl⟩⟩

/-- A reference of a file or directory is one of its blocks. -/
theorem CoherentFs.Owner.references (owner : fs.Owner isize image ino inode)
    (referenced : b ∈ fs.references image inode) : fs.Belongs isize image ino b := by
  obtain ⟨found, p, valid, -, here⟩ := CoherentFs.mem_references.mp referenced
  exact ⟨inode, owner, found, p, valid, here⟩

/-- No block of a consistent partition is referenced twice. -/
theorem CoherentFs.Consistent.claims_nodup (consistent : fs.Consistent isize fsize last image list) :
    ((fs.claims image isize).map Prod.snd).Nodup := by
  have claimed : (fs.claims image isize).map Prod.snd =
      (fs.blockOwners image isize).flatMap fun owner => fs.references image owner.2 := by
    simp [CoherentFs.claims, List.map_flatMap, Function.comp_def]
  rw [claimed]
  refine List.nodup_flatMap.mpr ⟨fun owner member => ?_, ?_⟩
  · exact (consistent.map (CoherentFs.mem_blockOwners_iff.mp member)).references_nodup
  · refine List.Pairwise.imp_of_mem ?_ (List.pairwise_map.mp (fs.blockOwners_nodup image isize))
    intro owner other member member' ne b referenced referenced'
    exact ne (consistent.distinct
      ((CoherentFs.mem_blockOwners_iff.mp member).references referenced)
      ((CoherentFs.mem_blockOwners_iff.mp member').references referenced'))

/-- The references of a consistent partition are in the data area. -/
theorem CoherentFs.Consistent.claim_inArea (consistent : fs.Consistent isize fsize last image list)
    {claim : Claim} (member : claim ∈ fs.claims image isize) : DataArea isize fsize claim.2 := by
  obtain ⟨inode, owner, referenced⟩ := CoherentFs.mem_claims.mp member
  obtain ⟨found, p, valid, -, here⟩ := CoherentFs.mem_references.mp referenced
  exact (consistent.map owner).inArea ⟨found, p, valid, here⟩

/-- No block has two claimants. -/
theorem CoherentFs.Consistent.claimants_lt (consistent : fs.Consistent isize fsize last image list)
    (b : Nat) : (claimants (fs.claims image isize) b).length < 2 := by
  have once := List.nodup_iff_count_le_one.mp consistent.claims_nodup b
  rw [List.count, List.countP_map, List.countP_eq_length_filter] at once
  unfold claimants
  rw [List.length_map]
  refine Nat.lt_succ_of_le (Nat.le_trans (Nat.le_of_eq ?_) once)
  congr 2

/-- No inode of a consistent partition references a block out of range. -/
theorem CoherentFs.Consistent.strays_nil (consistent : fs.Consistent isize fsize last image list)
    (ino : Nat) : strays isize fsize (fs.claims image isize) ino = [] := by
  unfold strays
  rw [List.map_eq_nil_iff, List.filter_eq_nil_iff]
  intro claim member outside
  obtain ⟨low, high⟩ := consistent.claim_inArea member
  have apart := (of_decide_eq_true outside).2
  omega

/-- A dictionary without keys. -/
theorem eq_nil_of_lookup {dict : List (Nat × List Nat)} (none : ∀ key, dict.lookup key = none) :
    dict = [] := by
  cases dict with
  | nil => rfl
  | cons head rest =>
    have found := none head.1
    rw [List.lookup_cons, beq_self_eq_true] at found
    cases found

/-- The blocks of a tidy partition that are referenced are those that are not free. -/
theorem CoherentFs.Tidy.claimedBlocks (tidy : fs.Tidy isize fsize image list)
    (consistent : fs.Consistent isize fsize last image list) :
    claimedBlocks isize fsize (fs.claims image isize) = Finset.Ico isize fsize \ list.toFinset := by
  ext b
  rw [C900.claimedBlocks, List.mem_toFinset, List.mem_filter, List.mem_map, Finset.mem_sdiff,
    Finset.mem_Ico, List.mem_toFinset]
  constructor
  · rintro ⟨⟨claim, member, rfl⟩, range⟩
    obtain ⟨inode, owner, referenced⟩ := CoherentFs.mem_claims.mp member
    exact ⟨of_decide_eq_true range, consistent.apart (owner.references referenced)⟩
  · rintro ⟨range, used⟩
    obtain ⟨ino, inode, owner, nonzero, p, valid, here⟩ := (tidy.whole range).resolve_left used
    refine ⟨⟨(ino, b), CoherentFs.mem_claims.mpr ⟨inode, owner, CoherentFs.mem_references.mpr
      ⟨nonzero, p, valid, ?_, here⟩⟩, rfl⟩, decide_eq_true range⟩
    by_contra beyond
    exact nonzero (here.symm.trans ((tidy.neat owner).trimmed valid (Nat.not_lt.mp beyond)))

/-- `check_blocks` on a consistent partition reports no cross-linked and no out-of-range block, and
on a tidy one it counts the blocks of the free list. -/
theorem CoherentFs.Consistent.checkBlocks (consistent : fs.Consistent isize fsize last image list)
    (some : isize < fsize) :
    ∃ rep, fs.checkBlocks image = .ok rep ∧ rep.crossLinked = [] ∧ rep.outOfRange = [] ∧
      (fs.Tidy isize fsize image list → rep.freeBlocks = list.length) := by
  obtain ⟨nfree, tfree, -, free, sees, -⟩ := consistent.stock.holds
  obtain ⟨rep, checked, cross, range, -, -, used, total, -⟩ :=
    checkBlocks_accounts fs image isize fsize ⟨sees.view.isize, sees.view.fsize⟩ ⟨consistent.stock.data, some⟩
  refine ⟨rep, checked, eq_nil_of_lookup fun b => ?_, eq_nil_of_lookup fun ino => ?_, fun tidy => ?_⟩
  · rw [cross, if_neg fun both => absurd both.2.2 (Nat.not_le.mpr (consistent.claimants_lt b))]
  · rw [range, if_pos (consistent.strays_nil ino)]
  · have inside : list.toFinset ⊆ Finset.Ico isize fsize := by
      intro b member
      exact Finset.mem_Ico.mpr (consistent.stock.inArea b (List.mem_toFinset.mp member))
    have count := Finset.card_le_card inside
    rw [tidy.claimedBlocks consistent, Finset.card_sdiff_of_subset inside, Nat.card_Ico,
      List.toFinset_card_of_nodup consistent.stock.nodup] at used
    rw [Nat.card_Ico, List.toFinset_card_of_nodup consistent.stock.nodup] at count
    omega

/-! ## What the check does not see -/

/-- The blocks that pointers behind the sizes of the inodes name, which `check_blocks` does not
look at, are in the data area, not free, and named by nothing else. -/
def CoherentFs.StaleApart (fs : CoherentFs) (isize fsize : Nat) (image : Image) (list : List Nat) :
    Prop :=
  ∀ {ino inode} {p : BlockPlace}, fs.Owner isize image ino inode → p.Valid →
    blocksOf inode.size ≤ p.first → fs.pointer image inode p ≠ 0 →
      DataArea isize fsize (fs.pointer image inode p) ∧ fs.pointer image inode p ∉ list ∧
        ∀ {other inode'} {q : BlockPlace}, fs.Owner isize image other inode' → q.Valid →
          fs.pointer image inode' q = fs.pointer image inode p → other = ino ∧ q = p

/-- Where the check reports nothing, no block is referenced twice or out of range. -/
theorem CoherentFs.claims_of_clean (stock : fs.Stock isize fsize last image list) {rep : FsckReport}
    (passes : fs.checkBlocks image = .ok rep) (cross : rep.crossLinked = [])
    (range : rep.outOfRange = []) (some : isize < fsize) :
    (∀ claim ∈ fs.claims image isize, DataArea isize fsize claim.2) ∧
      ((fs.claims image isize).map Prod.snd).Nodup := by
  obtain ⟨nfree, tfree, -, free, sees, -⟩ := stock.holds
  obtain ⟨rep', passes', links, outside, -⟩ :=
    checkBlocks_accounts fs image isize fsize ⟨sees.view.isize, sees.view.fsize⟩ ⟨stock.data, some⟩
  obtain rfl := Except.ok.inj (passes.symm.trans passes')
  have inArea : ∀ claim ∈ fs.claims image isize, DataArea isize fsize claim.2 := by
    intro claim member
    have none := outside claim.1
    rw [range, List.lookup_nil] at none
    split at none
    · next nothing =>
      by_contra stray
      have here : claim.2 ∈ strays isize fsize (fs.claims image isize) claim.1 :=
        List.mem_map.mpr ⟨claim, List.mem_filter.mpr ⟨member, decide_eq_true ⟨rfl, by
          unfold DataArea at stray
          omega⟩⟩, rfl⟩
      rw [nothing] at here
      cases here
    · cases none
  refine ⟨inArea, List.nodup_iff_count_le_one.mpr fun b => ?_⟩
  by_contra twice
  have claimed : b ∈ (fs.claims image isize).map Prod.snd := List.count_pos_iff.mp (by omega)
  obtain ⟨claim, member, rfl⟩ := List.mem_map.mp claimed
  obtain ⟨low, high⟩ := inArea claim member
  have two : 2 ≤ (claimants (fs.claims image isize) claim.2).length := by
    rw [List.count, List.countP_map, List.countP_eq_length_filter] at twice
    unfold claimants
    rw [List.length_map]
    exact Nat.lt_of_not_le twice
  have reported := links claim.2
  rw [cross, List.lookup_nil, if_pos ⟨low, high, two⟩] at reported
  cases reported

/-- Two places below the sizes that name one block are one place of one inode. -/
theorem CoherentFs.place_of_claims (once : ((fs.claims image isize).map Prod.snd).Nodup)
    {other : Nat} {inode' : Inode} {p q : BlockPlace} (owner : fs.Owner isize image ino inode)
    (owner' : fs.Owner isize image other inode') (valid : p.Valid) (valid' : q.Valid)
    (below : p.first < blocksOf inode.size) (below' : q.first < blocksOf inode'.size)
    (found : fs.pointer image inode p ≠ 0)
    (same : fs.pointer image inode' q = fs.pointer image inode p) : other = ino ∧ q = p := by
  have here : fs.pointer image inode p ∈ fs.references image inode :=
    CoherentFs.mem_references.mpr ⟨found, p, valid, below, rfl⟩
  have there : fs.pointer image inode p ∈ fs.references image inode' :=
    CoherentFs.mem_references.mpr ⟨found, q, valid', below', same⟩
  have claim : (ino, fs.pointer image inode p) ∈ fs.claims image isize :=
    CoherentFs.mem_claims.mpr ⟨inode, owner, here⟩
  have claim' : (other, fs.pointer image inode p) ∈ fs.claims image isize :=
    CoherentFs.mem_claims.mpr ⟨inode', owner', there⟩
  obtain rfl : other = ino :=
    congrArg Prod.fst (List.inj_on_of_nodup_map once claim' claim rfl)
  obtain rfl : inode = inode' := Option.some.inj (owner.stat.symm.trans owner'.stat)
  refine ⟨rfl, ?_⟩
  have claimed : (fs.claims image isize).map Prod.snd =
      (fs.blockOwners image isize).flatMap fun owner => fs.references image owner.2 := by
    simp [CoherentFs.claims, List.map_flatMap, Function.comp_def]
  rw [claimed] at once
  have single := (List.nodup_flatMap.mp once).1 _ (CoherentFs.mem_blockOwners_iff.mpr owner)
  unfold CoherentFs.references at single
  rw [List.filter_map] at single
  have placed : ∀ {r : BlockPlace}, r.Valid → r.first < blocksOf inode.size →
      fs.pointer image inode r ≠ 0 →
      r ∈ (placesBelow ((inode.size + blockSize - 1) / blockSize)).filter
        ((fun b => decide (b ≠ 0)) ∘ fs.pointer image inode) := fun valid below found =>
    List.mem_filter.mpr ⟨mem_placesBelow.mpr ⟨valid, below⟩, decide_eq_true found⟩
  exact List.inj_on_of_nodup_map single (placed valid' below' (same ▸ found))
    (placed valid below found) same

/-- The blocks that the walk over an inode visits are those that it references. -/
theorem CoherentFs.Owner.visits (owner : fs.Owner isize image ino inode) :
    (∃ visit ∈ fs.walkInodeBlocks image inode, visit.1 = b) ↔ b ∈ fs.references image inode := by
  rw [← fs.walkInodeBlocks_references image inode (CoherentFs.stat_addrs owner.stat)]
  exact List.mem_map.symm

/-- Consistency is what `check_blocks` and a look at the free list tell, and that the pointers
behind the sizes are apart. -/
theorem CoherentFs.consistent_iff_clean (narrow : fsize ≤ 2 ^ 24)
    (table : ∀ b < isize, image.hasBlock (fs.partOff + b) = true) (some : isize < fsize) :
    fs.Consistent isize fsize last image list ↔
      fs.Clean isize fsize last image list ∧ fs.StaleApart isize fsize image list := by
  constructor
  · intro consistent
    obtain ⟨rep, passes, cross, range, -⟩ := consistent.checkBlocks some
    refine ⟨⟨consistent.stock, ⟨rep, passes, cross, range⟩, fun owner member visit visits => ?_⟩, ?_⟩
    · have owns := CoherentFs.mem_blockOwners_iff.mp member
      exact consistent.apart (owns.references (owns.visits.mp ⟨visit, visits, rfl⟩))
    · intro ino inode p owner valid _ found
      have maps : fs.Maps image inode (fs.pointer image inode p) := .of_pointer valid found
      refine ⟨(consistent.map owner).inArea maps, consistent.apart ⟨inode, owner, maps⟩, ?_⟩
      intro other inode' q owner' valid' same
      have maps' : fs.Maps image inode' (fs.pointer image inode p) :=
        ⟨found, q, valid', same⟩
      obtain rfl := consistent.distinct ⟨inode', owner', maps'⟩ ⟨inode, owner, maps⟩
      obtain rfl : inode = inode' := Option.some.inj (owner.stat.symm.trans owner'.stat)
      exact ⟨rfl, (consistent.map owner).distinct valid' valid (same ▸ found) same⟩
  · rintro ⟨⟨stock, ⟨rep, passes, cross, range⟩, apart⟩, stale⟩
    obtain ⟨inArea, once⟩ := CoherentFs.claims_of_clean stock passes cross range some
    have referenced : ∀ {ino inode} {p : BlockPlace}, fs.Owner isize image ino inode → p.Valid →
        p.first < blocksOf inode.size → fs.pointer image inode p ≠ 0 →
        DataArea isize fsize (fs.pointer image inode p) ∧ fs.pointer image inode p ∉ list := by
      intro ino inode p owner valid below found
      have here := CoherentFs.mem_references.mpr ⟨found, p, valid, below, rfl⟩
      obtain ⟨visit, visits, same⟩ := owner.visits.mpr here
      refine ⟨inArea (ino, _) (CoherentFs.mem_claims.mpr ⟨inode, owner, here⟩), ?_⟩
      rw [← same]
      exact apart _ (CoherentFs.mem_blockOwners_iff.mpr owner) visit visits
    have unique : ∀ {ino inode other inode'} {p q : BlockPlace}, fs.Owner isize image ino inode →
        fs.Owner isize image other inode' → p.Valid → q.Valid → fs.pointer image inode p ≠ 0 →
        fs.pointer image inode' q = fs.pointer image inode p → other = ino ∧ q = p := by
      intro ino inode other inode' p q owner owner' valid valid' found same
      by_cases below : p.first < blocksOf inode.size
      · by_cases below' : q.first < blocksOf inode'.size
        · exact CoherentFs.place_of_claims once owner owner' valid valid' below below' found same
        · obtain ⟨-, -, alone⟩ := stale owner' valid' (Nat.not_lt.mp below') (same ▸ found)
          obtain ⟨same', place⟩ := alone owner valid same.symm
          exact ⟨same'.symm, place.symm⟩
      · exact (stale owner valid (Nat.not_lt.mp below) found).2.2 owner' valid' same
    refine ⟨stock, narrow, table, fun {ino inode} owner =>
      ⟨CoherentFs.stat_addrs owner.stat, ?_, ?_⟩, ?_, ?_⟩
    · intro p valid found
      by_cases below : p.first < blocksOf inode.size
      · exact (referenced owner valid below found).1
      · exact (stale owner valid (Nat.not_lt.mp below) found).1
    · intro p q valid valid' found same
      exact (unique owner owner valid valid' found same.symm).2.symm
    · rintro ino x ⟨inode, owner, found, p, valid, rfl⟩
      by_cases below : p.first < blocksOf inode.size
      · exact (referenced owner valid below found).2
      · exact (stale owner valid (Nat.not_lt.mp below) found).2.1
    · rintro ino other x ⟨inode, owner, found, p, valid, rfl⟩ ⟨inode', owner', -, q, valid', same⟩
      exact (unique owner owner' valid valid' found same).1.symm

end Audit

end C900
