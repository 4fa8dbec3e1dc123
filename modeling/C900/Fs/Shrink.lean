import C900.Fs.Pool
import C900.Fs.Prune

/-!
# The block map after a shrink

`_shrink_to_n_blocks` takes the ten direct blocks and the three trees in turn. A pointer stays
when it, or a pointer below it, leads only to data blocks below the new end and is not the root
of a tree; every other block of the map is freed, once.
-/

namespace C900

open PointerTree

/-- The shrink to `n` blocks keeps the pointer at a place. -/
def CoherentFs.Stays (fs : CoherentFs) (image : Image) (inode : Inode) (n : Nat) (p : BlockPlace) :
    Prop :=
  ∃ rest, let q : BlockPlace := ⟨p.root, p.path ++ rest⟩
    q.Valid ∧ (q.path = [] → q.height = 0) ∧ q.first + span q.height ≤ n ∧
      fs.pointer image inode q ≠ 0

/-- A block map without a block twice, all of them in a set. -/
structure CoherentFs.OwnMap (fs : CoherentFs) (area : Nat → Prop) (image : Image) (inode : Inode) :
    Prop where
  addrs : inode.addrs.length = rootCount
  area : ∀ {p : BlockPlace}, p.Valid → fs.pointer image inode p ≠ 0 →
    area (fs.pointer image inode p)
  distinct : ∀ {p q : BlockPlace}, p.Valid → q.Valid → fs.pointer image inode p ≠ 0 →
    fs.pointer image inode p = fs.pointer image inode q → p = q

/-- A block below a root that the shrink to `n` blocks may write: a pointer block, or a data block
that it frees. -/
def CoherentFs.AtRoot (fs : CoherentFs) (image : Image) (inode : Inode) (n root x : Nat) : Prop :=
  ∃ path, let p : BlockPlace := ⟨root, path⟩
    p.Valid ∧ fs.pointer image inode p = x ∧ x ≠ 0 ∧ (p.height ≠ 0 ∨ ¬ fs.Stays image inode n p)

/-- The state of `_shrink_to_n_blocks` when the roots before `r` are done. -/
structure CoherentFs.Trimmed (fs : CoherentFs) (Inv : List Nat → Image → Prop) (freed : List Nat)
    (s : Session) (n r : Nat) (dropped : List Nat) (t : Session) : Prop where
  done : fs.Gave Inv freed (fun x => ∃ root < r, fs.AtRoot s.image s.inode.toInode n root x) s
    dropped { t with inode := s.inode }
  addrs : t.inode = { s.inode with addrs := t.inode.addrs }
  length : t.inode.addrs.length = rootCount
  mem : ∀ x, x ∈ dropped ↔ ∃ p : BlockPlace, p.Valid ∧ p.root < r ∧
    fs.pointer s.image s.inode.toInode p = x ∧ x ≠ 0 ∧ ¬ fs.Stays s.image s.inode.toInode n p
  gone : ∀ p : BlockPlace, p.Valid → p.root < r → ¬ fs.Stays s.image s.inode.toInode n p →
    fs.pointer t.image t.inode.toInode p = 0
  kept : ∀ p : BlockPlace, p.Valid → (p.root < r → fs.Stays s.image s.inode.toInode n p) →
    fs.pointer t.image t.inode.toInode p = fs.pointer s.image s.inode.toInode p

section Roots

variable {fs : CoherentFs} {area : Nat → Prop} {Inv : List Nat → Image → Prop}
  {freed dropped : List Nat} {s t : Session} {image : Image} {inode : Inode} {n r root : Nat}
  {p : BlockPlace}

theorem CoherentFs.Stays.ne_zero (stays : fs.Stays image inode n p) :
    fs.pointer image inode p ≠ 0 := by
  obtain ⟨rest, -, -, -, found⟩ := stays
  exact follow_ne_zero_of_append found

/-- What stays below a slot keeps the pointer block. -/
theorem CoherentFs.Stays.above {i : Nat} (stays : fs.Stays image inode n (p.slot i)) :
    fs.Stays image inode n p := by
  obtain ⟨rest, valid, proper, before, found⟩ := stays
  unfold BlockPlace.slot at valid proper before found
  rw [List.append_assoc] at valid proper before found
  exact ⟨[i] ++ rest, valid, proper, before, found⟩

/-- A data block stays when it is below the new end. -/
theorem CoherentFs.stays_leaf (valid : p.Valid) (leaf : p.height = 0) :
    fs.Stays image inode n p ↔ p.first < n ∧ fs.pointer image inode p ≠ 0 := by
  obtain ⟨root, path⟩ := p
  constructor
  · rintro ⟨rest, valid', -, before, found⟩
    have none : rest = [] := by
      have total := valid'.2.1
      dsimp only [BlockPlace.height] at leaf total
      rw [List.length_append] at total
      exact List.eq_nil_of_length_eq_zero (by omega)
    subst none
    rw [List.append_nil] at before found
    dsimp only at before
    rw [leaf] at before
    exact ⟨before, found⟩
  · rintro ⟨before, found⟩
    refine ⟨[], ?_⟩
    rw [List.append_nil]
    dsimp only
    rw [leaf]
    exact ⟨valid, fun _ => rfl, before, found⟩

/-- Below the root of a tree the shrink is a pruning of the tree. -/
theorem CoherentFs.stays_tree {d : Nat} (inside : root < rootCount)
    (height : rootHeight root = d + 1) (path : List Nat) :
    fs.Stays image inode n ⟨root, path⟩ ↔
      fs.Lasts image (d + 1) (inode.addrs.getD root 0)
        (min (n - rootStart root) (indirectCount ^ (d + 1))) path := by
  have within : ∀ rest, IsPath indirectCount (d + 1) rest →
      (PointerTree.Within indirectCount (d + 1) (min (n - rootStart root) (indirectCount ^ (d + 1))) rest ↔
        rootStart root + start indirectCount (d + 1) rest +
          indirectCount ^ (d + 1 - rest.length) ≤ n) := by
    intro rest isPath
    have total := start_add_le isPath
    have some : 0 < indirectCount ^ (d + 1 - rest.length) := Nat.pow_pos indirectCount_pos
    unfold PointerTree.Within
    omega
  constructor
  · rintro ⟨rest, valid, proper, before, found⟩
    dsimp only [BlockPlace.Valid, BlockPlace.height, BlockPlace.first, span] at valid proper before
    rw [height] at valid proper before
    refine ⟨rest, fun none => ?_, valid.2, (within _ valid.2).mpr before, found⟩
    rw [none] at proper
    exact absurd (proper rfl) (Nat.succ_ne_zero d)
  · rintro ⟨rest, proper, isPath, before, found⟩
    refine ⟨rest, ?_⟩
    dsimp only [BlockPlace.Valid, BlockPlace.height, BlockPlace.first, span]
    rw [height]
    exact ⟨⟨inside, isPath⟩, fun none => absurd none proper, (within _ isPath).mp before, found⟩

/-- The sessions of a record may carry another inode. -/
theorem CoherentFs.Gave.withInode {changed : Nat → Prop}
    (done : fs.Gave Inv freed changed s dropped t) (inode : OpenInode) :
    fs.Gave Inv freed changed { s with inode := inode } dropped { t with inode := inode } :=
  ⟨done.nodup, done.inv, rfl, done.calls, done.frame⟩

theorem BlockPlace.direct (valid : p.Valid) (direct : p.root < nDirect) :
    p.height = 0 ∧ p.first = p.root := by
  obtain ⟨root, path⟩ := p
  have height : rootHeight root = 0 := Nat.sub_eq_zero_of_le direct
  have isPath := valid.2
  dsimp only [BlockPlace.height, BlockPlace.first] at direct isPath ⊢
  rw [height] at isPath ⊢
  have none : path = [] := List.eq_nil_of_length_eq_zero (Nat.le_zero.mp isPath.1)
  rw [none, rootStart_direct (Nat.le_of_lt direct)]
  exact ⟨rfl, rfl⟩

/-- The direct blocks below the new end are passed. -/
theorem CoherentFs.Trimmed.start (inv : Inv freed s.image)
    (length : s.inode.addrs.length = rootCount) :
    fs.Trimmed Inv freed s n (min n nDirect) [] s := by
  have passed : ∀ p : BlockPlace, p.Valid → p.root < min n nDirect →
      ¬ fs.Stays s.image s.inode.toInode n p → fs.pointer s.image s.inode.toInode p = 0 := by
    intro p valid early dies
    obtain ⟨leaf, first⟩ := BlockPlace.direct valid (by omega)
    by_contra found
    exact dies ((CoherentFs.stays_leaf valid leaf).mpr ⟨by omega, found⟩)
  refine ⟨.start inv, rfl, length, fun x => ?_, passed, fun _ _ _ => rfl⟩
  refine iff_of_false List.not_mem_nil ?_
  rintro ⟨p, valid, early, rfl, found, dies⟩
  exact found (passed p valid early dies)

/-- A block that the map still has is where it was. -/
theorem CoherentFs.Trimmed.settled (trimmed : fs.Trimmed Inv freed s n r dropped t)
    (valid : p.Valid) (found : fs.pointer t.image t.inode.toInode p ≠ 0) :
    fs.pointer t.image t.inode.toInode p = fs.pointer s.image s.inode.toInode p := by
  refine trimmed.kept p valid fun early => ?_
  by_contra dies
  exact found (trimmed.gone p valid early dies)

/-- The blocks below a root do not change with those below another one. -/
theorem CoherentFs.Trimmed.apart (notSb : ∀ {x}, area x → x ≠ 1)
    (map : fs.OwnMap area s.image s.inode.toInode)
    (trimmed : fs.Trimmed Inv freed s n r dropped t) {later : List Nat} {t' : Session}
    (moved : fs.Gave Inv (dropped ++ freed) (fs.AtRoot s.image s.inode.toInode n r)
      { t with inode := s.inode } later { t' with inode := s.inode })
    (addr : t'.inode.addrs.getD p.root 0 = t.inode.addrs.getD p.root 0) (valid : p.Valid)
    (other : p.root ≠ r) :
    fs.pointer t'.image t'.inode.toInode p = fs.pointer t.image t.inode.toInode p := by
  unfold CoherentFs.pointer
  rw [addr]
  refine follow_congr fun before slot after split found => ?_
  have above : (⟨p.root, before⟩ : BlockPlace).Valid := by
    refine ⟨valid.1, ?_, fun x member => valid.2.2 x ?_⟩
    · have total := valid.2.1
      rw [split, List.length_append] at total
      dsimp only
      omega
    · rw [split]
      exact List.mem_append_left _ member
  have here := trimmed.settled above found
  have present : fs.pointer s.image s.inode.toInode ⟨p.root, before⟩ ≠ 0 :=
    fun hole => found (here.trans hole)
  refine congrFun (moved.entry (x := fs.pointer t.image t.inode.toInode ⟨p.root, before⟩) ?_ ?_) slot
  · rw [here]
    exact notSb (map.area above present)
  · rw [here]
    rintro ⟨path, valid', same, -⟩
    exact other (congrArg BlockPlace.root (map.distinct above valid' present same.symm))

/-- Root `r` is done. -/
theorem CoherentFs.Trimmed.advance (notSb : ∀ {x}, area x → x ≠ 1)
    (map : fs.OwnMap area s.image s.inode.toInode)
    (trimmed : fs.Trimmed Inv freed s n r dropped t) {later : List Nat} {t' : Session}
    (moved : fs.Gave Inv (dropped ++ freed) (fs.AtRoot s.image s.inode.toInode n r)
      { t with inode := s.inode } later { t' with inode := s.inode })
    (addrs : t'.inode = { t.inode with addrs := t'.inode.addrs })
    (length : t'.inode.addrs.length = rootCount)
    (others : ∀ root, root ≠ r → t'.inode.addrs.getD root 0 = t.inode.addrs.getD root 0)
    (mem : ∀ x, x ∈ later ↔ ∃ p : BlockPlace, p.Valid ∧ p.root = r ∧
      fs.pointer s.image s.inode.toInode p = x ∧ x ≠ 0 ∧ ¬ fs.Stays s.image s.inode.toInode n p)
    (gone : ∀ p : BlockPlace, p.Valid → p.root = r → ¬ fs.Stays s.image s.inode.toInode n p →
      fs.pointer t'.image t'.inode.toInode p = 0)
    (kept : ∀ p : BlockPlace, p.Valid → p.root = r → fs.Stays s.image s.inode.toInode n p →
      fs.pointer t'.image t'.inode.toInode p = fs.pointer s.image s.inode.toInode p) :
    fs.Trimmed Inv freed s n (r + 1) (later ++ dropped) t' := by
  have split : ∀ {root}, root < r + 1 ↔ root = r ∨ root < r := by omega
  refine ⟨?_, ?_, length, fun x => ?_, fun p valid early dies => ?_, fun p valid stays => ?_⟩
  · refine (trimmed.done.mono fun x ⟨root, early, at'⟩ => ⟨root, split.mpr (Or.inr early), at'⟩).trans
      (moved.mono fun x at' => ⟨r, Nat.lt_succ_self r, at'⟩) fun x new old => ?_
    obtain ⟨p, valid, here, same, found, -⟩ := (mem x).mp new
    obtain ⟨q, valid', early, same', -⟩ := (trimmed.mem x).mp old
    have eq := map.distinct valid valid' (fun hole => found (same.symm.trans hole))
      (same.trans same'.symm)
    rw [← eq, here] at early
    exact absurd early (Nat.lt_irrefl r)
  · rw [addrs, trimmed.addrs]
  · rw [List.mem_append, mem, trimmed.mem]
    constructor
    · rintro (⟨p, valid, here, found⟩ | ⟨p, valid, early, found⟩)
      · exact ⟨p, valid, split.mpr (Or.inl here), found⟩
      · exact ⟨p, valid, split.mpr (Or.inr early), found⟩
    · rintro ⟨p, valid, early, found⟩
      rcases split.mp early with here | before
      · exact Or.inl ⟨p, valid, here, found⟩
      · exact Or.inr ⟨p, valid, before, found⟩
  · rcases split.mp early with here | before
    · exact gone p valid here dies
    · rw [trimmed.apart notSb map moved (others _ (by omega)) valid (by omega)]
      exact trimmed.gone p valid before dies
  · by_cases here : p.root = r
    · exact kept p valid here (stays (split.mpr (Or.inl here)))
    · rw [trimmed.apart notSb map moved (others _ here) valid here]
      exact trimmed.kept p valid fun before => stays (split.mpr (Or.inr before))

/-! ## The roots in turn -/

theorem addrAt_eq (slot : Nat) (s : Session) :
    addrAt slot s = .ok (s.inode.addrs.getD slot 0) s := rfl

theorem getD_set_same {addrs : List Nat} {slot : Nat} (small : slot < addrs.length) (b : Nat) :
    (addrs.set slot b).getD slot 0 = b := by
  rw [List.getD_eq_getElem?_getD, List.getElem?_set_self small]
  rfl

theorem getD_set_other {addrs : List Nat} {slot other : Nat} (apart : other ≠ slot) (b : Nat) :
    (addrs.set slot b).getD other 0 = addrs.getD other 0 := by
  rw [List.getD_eq_getElem?_getD, List.getD_eq_getElem?_getD, List.getElem?_set_ne apart.symm]

/-- The block at a root that is not done. -/
theorem CoherentFs.Trimmed.root_eq (trimmed : fs.Trimmed Inv freed s n r dropped t)
    (inside : r < rootCount) : t.inode.addrs.getD r 0 = s.inode.addrs.getD r 0 :=
  trimmed.kept ⟨r, []⟩ ⟨inside, IsPath.nil _⟩ fun early => absurd early (Nat.lt_irrefl r)

/-- A root that is a hole. -/
theorem CoherentFs.Trimmed.hole (notSb : ∀ {x}, area x → x ≠ 1)
    (map : fs.OwnMap area s.image s.inode.toInode)
    (trimmed : fs.Trimmed Inv freed s n r dropped t) (inside : r < rootCount)
    (hole : t.inode.addrs.getD r 0 = 0) : fs.Trimmed Inv freed s n (r + 1) dropped t := by
  have none : ∀ p : BlockPlace, p.root = r → fs.pointer s.image s.inode.toInode p = 0 := by
    rintro ⟨_, path⟩ rfl
    rw [trimmed.root_eq inside] at hole
    unfold CoherentFs.pointer
    rw [hole]
    exact follow_zero path
  have still : fs.Gave Inv (dropped ++ freed) (fs.AtRoot s.image s.inode.toInode n r)
      { t with inode := s.inode } [] { t with inode := s.inode } := .start trimmed.done.inv
  refine trimmed.advance notSb map still rfl trimmed.length
    (fun _ _ => rfl) (fun x => ?_) (fun p valid here _ => ?_) fun p valid here stays => ?_
  · refine iff_of_false List.not_mem_nil ?_
    rintro ⟨p, -, here, rfl, found, -⟩
    exact found (none p here)
  · rw [trimmed.kept p valid fun early => absurd (here ▸ early) (Nat.lt_irrefl _)]
    exact none p here
  · exact absurd (none p here) stays.ne_zero

/-- The block at a root is given up, with what the pruning below it has dropped. -/
theorem CoherentFs.Trimmed.drop (rules : FreeRules fs area Inv)
    (map : fs.OwnMap area s.image s.inode.toInode)
    (trimmed : fs.Trimmed Inv freed s n r dropped t) (inside : r < rootCount)
    (fresh : ∀ {p : BlockPlace}, p.Valid → fs.pointer s.image s.inode.toInode p ≠ 0 →
      fs.pointer s.image s.inode.toInode p ∉ freed)
    (nonzero : s.inode.addrs.getD r 0 ≠ 0) {sub : List Nat} {u : Session}
    (inode : u.inode = t.inode)
    (moved : fs.Gave Inv (dropped ++ freed) (fs.AtRoot s.image s.inode.toInode n r)
      { t with inode := s.inode } sub { u with inode := s.inode })
    (mem : ∀ x, x ∈ sub ↔ ∃ path, path ≠ [] ∧ (⟨r, path⟩ : BlockPlace).Valid ∧
      fs.pointer s.image s.inode.toInode ⟨r, path⟩ = x ∧ x ≠ 0)
    (dies : ∀ path, ¬ fs.Stays s.image s.inode.toInode n ⟨r, path⟩) :
    Ends (do
      fs.giveBlock (s.inode.addrs.getD r 0)
      setAddr r 0) u (fun _ v => ∃ dropped', fs.Trimmed Inv freed s n (r + 1) dropped' v)
      noRaise := by
  have valid : (⟨r, []⟩ : BlockPlace).Valid := ⟨inside, IsPath.nil _⟩
  have known : area (s.inode.addrs.getD r 0) := map.area valid nonzero
  have notSub : s.inode.addrs.getD r 0 ∉ sub := by
    intro member
    obtain ⟨path, proper, valid', same, -⟩ := (mem _).mp member
    exact proper (congrArg BlockPlace.path (map.distinct valid valid' nonzero same.symm)).symm
  have notDropped : s.inode.addrs.getD r 0 ∉ dropped := by
    intro member
    obtain ⟨p, valid', early, same, -⟩ := (trimmed.mem _).mp member
    have here := congrArg BlockPlace.root (map.distinct valid valid' nonzero same.symm)
    exact absurd (here ▸ early) (Nat.lt_irrefl _)
  refine .bind ((rules.giveBlock (s := u) moved.inv known ?_).mono (fun _ v gave => ?_)
    fun _ _ => id)
  · rw [List.mem_append, List.mem_append]
    rintro (inSub | inDropped | inFreed)
    · exact notSub inSub
    · exact notDropped inDropped
    · exact fresh valid nonzero inFreed
  have later : fs.Gave Inv (dropped ++ freed) (fs.AtRoot s.image s.inode.toInode n r)
      { t with inode := s.inode } ([s.inode.addrs.getD r 0] ++ sub)
      { v with inode := s.inode } := by
    refine moved.trans ((gave.withInode s.inode).mono ?_) fun x single => ?_
    · rintro x rfl
      exact ⟨[], valid, rfl, nonzero, Or.inr (dies [])⟩
    · rw [List.mem_singleton.mp single]
      exact notSub
  have same : v.inode = t.inode := gave.inode.trans inode
  have length : v.inode.addrs.length = rootCount := same ▸ trimmed.length
  refine .update ⟨([s.inode.addrs.getD r 0] ++ sub) ++ dropped, trimmed.advance rules.notSb map
    later ?_ ?_ (fun root other => ?_) (fun x => ?_) (fun p _ here _ => ?_)
    fun p _ here stays => absurd stays ?_⟩
  · dsimp only [OpenInode.setAddr]
    rw [same]
  · dsimp only [OpenInode.setAddr]
    rw [List.length_set, length]
  · dsimp only [OpenInode.setAddr]
    rw [getD_set_other other, same]
  · rw [List.mem_append, List.mem_singleton, mem]
    constructor
    · rintro (rfl | ⟨path, -, valid', found, present⟩)
      · exact ⟨⟨r, []⟩, valid, rfl, rfl, nonzero, dies []⟩
      · exact ⟨⟨r, path⟩, valid', rfl, found, present, dies path⟩
    · rintro ⟨⟨_, path⟩, valid', rfl, found, present, -⟩
      by_cases proper : path = []
      · subst proper
        exact Or.inl found.symm
      · exact Or.inr ⟨path, proper, valid', found, present⟩
  · obtain ⟨_, path⟩ := p
    dsimp only at here
    subst here
    dsimp only [CoherentFs.pointer, OpenInode.setAddr]
    rw [getD_set_same (by omega)]
    exact follow_zero path
  · obtain ⟨_, path⟩ := p
    dsimp only at here
    subst here
    exact dies path

/-- A direct block of `_shrink_to_n_blocks`. -/
theorem CoherentFs.Trimmed.dropDirect (rules : FreeRules fs area Inv)
    (map : fs.OwnMap area s.image s.inode.toInode)
    (fresh : ∀ {p : BlockPlace}, p.Valid → fs.pointer s.image s.inode.toInode p ≠ 0 →
      fs.pointer s.image s.inode.toInode p ∉ freed)
    (trimmed : fs.Trimmed Inv freed s n r dropped t) (high : n ≤ r) (direct : r < nDirect) :
    Ends (fs.dropDirect r) t
      (fun _ t' => ∃ dropped', fs.Trimmed Inv freed s n (r + 1) dropped' t') noRaise := by
  have inside : r < rootCount := Nat.lt_trans direct (by decide)
  have alone : ∀ {path}, (⟨r, path⟩ : BlockPlace).Valid → path = [] := by
    intro path valid
    have height : rootHeight r = 0 := Nat.sub_eq_zero_of_le direct
    have short := valid.2.1
    dsimp only at short
    exact List.eq_nil_of_length_eq_zero (by omega)
  refine .bind (.of_ok (addrAt_eq r t) ?_)
  have root := trimmed.root_eq inside
  refine .ite (fun present => ?_) fun absent => ?_
  · rw [root] at present ⊢
    refine trimmed.drop rules map inside fresh present rfl (.start trimmed.done.inv) (fun x => ?_)
      fun path stays => ?_
    · refine iff_of_false List.not_mem_nil ?_
      rintro ⟨path, proper, valid, -⟩
      exact proper (alone valid)
    · have valid : (⟨r, path⟩ : BlockPlace).Valid := by
        obtain ⟨rest, valid, -⟩ := stays
        have none : path = [] := (List.append_eq_nil_iff.mp (alone valid)).1
        rw [none]
        exact ⟨inside, IsPath.nil _⟩
      obtain ⟨leaf, first⟩ := BlockPlace.direct valid direct
      have before := ((CoherentFs.stays_leaf valid leaf).mp stays).1
      dsimp only at first
      omega
  · exact .value ⟨dropped, trimmed.hole rules.notSb map inside (not_not.mp absent)⟩

end Roots

/-! ## The trees -/

section Trees

variable {fs : CoherentFs} {area : Nat → Prop} {Inv : List Nat → Image → Prop}
  {freed dropped : List Nat} {s t : Session} {n d : Nat}

theorem treeRoot_lt (small : d < 3) : nDirect + d < rootCount := by
  unfold nDirect rootCount
  omega

theorem treeRoot_height (d : Nat) : rootHeight (nDirect + d) = d + 1 := by
  unfold rootHeight
  omega

theorem BlockPlace.valid_tree (small : d < 3) {path : List Nat} :
    (⟨nDirect + d, path⟩ : BlockPlace).Valid ↔ IsPath indirectCount (d + 1) path := by
  unfold BlockPlace.Valid
  dsimp only
  rw [treeRoot_height]
  exact and_iff_right (treeRoot_lt small)

theorem BlockPlace.height_tree (d : Nat) (path : List Nat) :
    (⟨nDirect + d, path⟩ : BlockPlace).height = d + 1 - path.length := by
  unfold BlockPlace.height
  dsimp only
  rw [treeRoot_height]

/-- Nothing below a root that is not done has changed. -/
theorem CoherentFs.Trimmed.below (trimmed : fs.Trimmed Inv freed s n (nDirect + d) dropped t)
    (small : d < 3) {path : List Nat} (isPath : IsPath indirectCount (d + 1) path) :
    fs.node t.image (s.inode.addrs.getD (nDirect + d) 0) path =
      fs.pointer s.image s.inode.toInode ⟨nDirect + d, path⟩ := by
  have still := trimmed.kept ⟨nDirect + d, path⟩ ((BlockPlace.valid_tree small).mpr isPath)
    fun early => absurd early (Nat.lt_irrefl _)
  unfold CoherentFs.pointer at still ⊢
  dsimp only at still ⊢
  rw [trimmed.root_eq (treeRoot_lt small)] at still
  exact still

/-- The new end in a tree. -/
def treeKeep (n d : Nat) : Nat := min (n - rootStart (nDirect + d)) (indirectCount ^ (d + 1))

theorem CoherentFs.Trimmed.lasts_iff (trimmed : fs.Trimmed Inv freed s n (nDirect + d) dropped t)
    (small : d < 3) (path : List Nat) :
    fs.Lasts t.image (d + 1) (s.inode.addrs.getD (nDirect + d) 0) (treeKeep n d) path ↔
      fs.Stays s.image s.inode.toInode n ⟨nDirect + d, path⟩ := by
  rw [CoherentFs.stays_tree (treeRoot_lt small) (treeRoot_height d)]
  exact ⟨fun survives => survives.congr fun p isPath => (trimmed.below small isPath).symm,
    fun survives => survives.congr fun p isPath => trimmed.below small isPath⟩

theorem CoherentFs.Trimmed.tree (map : fs.OwnMap area s.image s.inode.toInode)
    (trimmed : fs.Trimmed Inv freed s n (nDirect + d) dropped t) (small : d < 3)
    (present : s.inode.addrs.getD (nDirect + d) 0 ≠ 0) :
    fs.OwnTree area t.image (d + 1) (s.inode.addrs.getD (nDirect + d) 0) := by
  have valid : ∀ {path}, IsPath indirectCount (d + 1) path → BlockPlace.Valid ⟨nDirect + d, path⟩ :=
    (BlockPlace.valid_tree small).mpr
  refine ⟨present, fun path isPath found => ?_, fun path other isPath isOther found same => ?_⟩
  · rw [trimmed.below small isPath] at found ⊢
    exact map.area (valid isPath) found
  · rw [trimmed.below small isPath] at found same
    rw [trimmed.below small isOther] at same
    exact congrArg BlockPlace.path (map.distinct (valid isPath) (valid isOther) found same)

theorem CoherentFs.Trimmed.fresh (map : fs.OwnMap area s.image s.inode.toInode)
    (fresh : ∀ {p : BlockPlace}, p.Valid → fs.pointer s.image s.inode.toInode p ≠ 0 →
      fs.pointer s.image s.inode.toInode p ∉ freed)
    (trimmed : fs.Trimmed Inv freed s n (nDirect + d) dropped t) (small : d < 3) {path : List Nat}
    (isPath : IsPath indirectCount (d + 1) path)
    (found : fs.node t.image (s.inode.addrs.getD (nDirect + d) 0) path ≠ 0) :
    fs.node t.image (s.inode.addrs.getD (nDirect + d) 0) path ∉ dropped ++ freed := by
  have valid := (BlockPlace.valid_tree small).mpr isPath
  rw [trimmed.below small isPath] at found ⊢
  rw [List.mem_append]
  rintro (inDropped | inFreed)
  · obtain ⟨p, valid', early, same, -⟩ := (trimmed.mem _).mp inDropped
    have here := congrArg BlockPlace.root (map.distinct valid valid' found same.symm)
    exact absurd (here ▸ early) (Nat.lt_irrefl _)
  · exact fresh valid found inFreed

/-- What the pruning of the tree may write. -/
theorem CoherentFs.Trimmed.moved (trimmed : fs.Trimmed Inv freed s n (nDirect + d) dropped t)
    (small : d < 3) (present : s.inode.addrs.getD (nDirect + d) 0 ≠ 0) {bare : Bool}
    {sub : List Nat} {u : Session}
    (cut : fs.Cut Inv (dropped ++ freed) t d (s.inode.addrs.getD (nDirect + d) 0) (treeKeep n d)
      bare sub u) :
    fs.Gave Inv (dropped ++ freed) (fs.AtRoot s.image s.inode.toInode n (nDirect + d))
      { t with inode := s.inode } sub { u with inode := s.inode } := by
  have valid : ∀ {path}, IsPath indirectCount (d + 1) path → BlockPlace.Valid ⟨nDirect + d, path⟩ :=
    (BlockPlace.valid_tree small).mpr
  refine (cut.done.withInode s.inode).mono fun x touched => ?_
  rcases touched with rfl | ⟨j, rest, _, isPath, found, some, may⟩
  · refine ⟨[], valid (IsPath.nil _), rfl, present, Or.inl ?_⟩
    rw [BlockPlace.height_tree]
    exact Nat.succ_ne_zero d
  · refine ⟨j :: rest, valid isPath, (trimmed.below small isPath).symm.trans found, some, ?_⟩
    refine may.imp (fun short => ?_) (mt (trimmed.lasts_iff small _).mpr)
    rw [BlockPlace.height_tree, List.length_cons]
    omega

/-- What the pruning of the tree drops. -/
theorem CoherentFs.Trimmed.cut_mem (trimmed : fs.Trimmed Inv freed s n (nDirect + d) dropped t)
    (small : d < 3) {bare : Bool} {sub : List Nat} {u : Session}
    (cut : fs.Cut Inv (dropped ++ freed) t d (s.inode.addrs.getD (nDirect + d) 0) (treeKeep n d)
      bare sub u) (x : Nat) :
    x ∈ sub ↔ ∃ path, path ≠ [] ∧ (⟨nDirect + d, path⟩ : BlockPlace).Valid ∧
      fs.pointer s.image s.inode.toInode ⟨nDirect + d, path⟩ = x ∧ x ≠ 0 ∧
      ¬ fs.Stays s.image s.inode.toInode n ⟨nDirect + d, path⟩ := by
  have valid : ∀ {path}, BlockPlace.Valid ⟨nDirect + d, path⟩ ↔ IsPath indirectCount (d + 1) path :=
    BlockPlace.valid_tree small
  rw [cut.mem]
  constructor
  · rintro ⟨j, rest, _, isPath, found, some, dies⟩
    exact ⟨j :: rest, List.cons_ne_nil _ _, valid.mpr isPath,
      (trimmed.below small isPath).symm.trans found, some, mt (trimmed.lasts_iff small _).mpr dies⟩
  · rintro ⟨path, proper, isPath, found, some, dies⟩
    obtain ⟨j, rest, rfl⟩ := List.exists_cons_of_ne_nil proper
    exact ⟨j, rest, (IsPath.cons.mp (valid.mp isPath)).1, valid.mp isPath,
      (trimmed.below small (valid.mp isPath)).trans found, some,
      mt (trimmed.lasts_iff small _).mp dies⟩

/-- A tree that keeps a pointer keeps its root. -/
theorem CoherentFs.Trimmed.keep (notSb : ∀ {x}, area x → x ≠ 1)
    (map : fs.OwnMap area s.image s.inode.toInode)
    (trimmed : fs.Trimmed Inv freed s n (nDirect + d) dropped t) (small : d < 3)
    (present : s.inode.addrs.getD (nDirect + d) 0 ≠ 0) {sub : List Nat} {u : Session}
    (cut : fs.Cut Inv (dropped ++ freed) t d (s.inode.addrs.getD (nDirect + d) 0) (treeKeep n d)
      false sub u) :
    fs.Trimmed Inv freed s n (nDirect + d + 1) (sub ++ dropped) u := by
  have valid : ∀ {path}, BlockPlace.Valid ⟨nDirect + d, path⟩ ↔ IsPath indirectCount (d + 1) path :=
    BlockPlace.valid_tree small
  have stays : fs.Stays s.image s.inode.toInode n ⟨nDirect + d, []⟩ := by
    by_contra dies
    have bare := cut.bare_iff.mpr fun inner => dies ((trimmed.lasts_iff small []).mp inner)
    cases bare
  have after : ∀ path, fs.pointer u.image u.inode.toInode ⟨nDirect + d, path⟩ =
      fs.node u.image (s.inode.addrs.getD (nDirect + d) 0) path := by
    intro path
    unfold CoherentFs.pointer
    dsimp only
    rw [cut.done.inode, trimmed.root_eq (treeRoot_lt small)]
  refine trimmed.advance notSb map (trimmed.moved small present cut) ?_ ?_
    (fun root _ => by rw [cut.done.inode]) (fun x => ?_) ?_ ?_
  · rw [cut.done.inode]
  · rw [cut.done.inode, trimmed.length]
  · rw [trimmed.cut_mem small cut]
    constructor
    · rintro ⟨path, -, isPath, found⟩
      exact ⟨⟨_, path⟩, isPath, rfl, found⟩
    · rintro ⟨⟨_, path⟩, isPath, rfl, found, some, dies⟩
      refine ⟨path, ?_, isPath, found, some, dies⟩
      rintro rfl
      exact dies stays
  · rintro ⟨_, path⟩ isPath rfl dies
    rw [after]
    refine cut.gone rfl path (valid.mp isPath) ?_ (mt (trimmed.lasts_iff small path).mp dies)
    rintro rfl
    exact dies stays
  · rintro ⟨_, path⟩ isPath rfl lives
    rw [after, cut.kept rfl path (valid.mp isPath) ((trimmed.lasts_iff small path).mpr lives)]
    exact trimmed.below small (valid.mp isPath)

/-- A tree of `_shrink_to_n_blocks`. -/
theorem CoherentFs.Trimmed.shrinkTree (rules : FreeRules fs area Inv)
    (map : fs.OwnMap area s.image s.inode.toInode)
    (fresh : ∀ {p : BlockPlace}, p.Valid → fs.pointer s.image s.inode.toInode p ≠ 0 →
      fs.pointer s.image s.inode.toInode p ∉ freed)
    (trimmed : fs.Trimmed Inv freed s n (nDirect + d) dropped t) (small : d < 3) :
    Ends (fs.shrinkTree d (n - rootStart (nDirect + d))) t
      (fun _ t' => ∃ dropped', fs.Trimmed Inv freed s n (nDirect + d + 1) dropped' t') noRaise := by
  have root := trimmed.root_eq (treeRoot_lt small)
  refine .bind (.of_ok (addrAt_eq _ t) ?_)
  refine .ite (fun hole => .value
    ⟨dropped, trimmed.hole rules.notSb map (treeRoot_lt small) hole⟩) fun nonzero => ?_
  have present : s.inode.addrs.getD (nDirect + d) 0 ≠ 0 := root ▸ nonzero
  have pruned := CoherentFs.shrinkIndirect_cuts (s := t) (k := treeKeep n d) rules trimmed.done.inv
    (trimmed.tree map small present) fun path => trimmed.fresh map fresh small
  rw [root]
  refine .bind (pruned.mono (fun bare u ⟨sub, cut⟩ => ?_) fun _ _ => id)
  refine .ite (fun bareTrue => ?_) fun notBare => ?_
  · have dies : ∀ path, ¬ fs.Stays s.image s.inode.toInode n ⟨nDirect + d, path⟩ :=
      fun path stays => cut.bare_iff.mp bareTrue
        (Survives.above [] ((trimmed.lasts_iff small path).mpr stays))
    refine trimmed.drop rules map (treeRoot_lt small) fresh present cut.done.inode
      (trimmed.moved small present cut) (fun x => ?_) dies
    rw [trimmed.cut_mem small cut]
    constructor
    · rintro ⟨path, proper, isPath, found, some, -⟩
      exact ⟨path, proper, isPath, found, some⟩
    · rintro ⟨path, proper, isPath, found, some⟩
      exact ⟨path, proper, isPath, found, some, dies path⟩
  · have still : bare = false := by simpa using notBare
    subst still
    exact .value ⟨sub ++ dropped, trimmed.keep rules.notSb map small present cut⟩

/-- `_shrink_to_n_blocks` does all roots. -/
theorem CoherentFs.shrinkToNBlocks_trims (rules : FreeRules fs area Inv)
    (map : fs.OwnMap area s.image s.inode.toInode) (inv : Inv freed s.image)
    (fresh : ∀ {p : BlockPlace}, p.Valid → fs.pointer s.image s.inode.toInode p ≠ 0 →
      fs.pointer s.image s.inode.toInode p ∉ freed) (n : Nat) :
    Ends (fs.shrinkToNBlocks n) s
      (fun _ t => ∃ dropped, fs.Trimmed Inv freed s n rootCount dropped t) noRaise := by
  unfold CoherentFs.shrinkToNBlocks
  have direct : Ends ((List.range' n (nDirect - n)).foldlM (fun _ i => fs.dropDirect i) ()) s
      (fun _ t => ∃ dropped, fs.Trimmed Inv freed s n nDirect dropped t) noRaise := by
    by_cases some : n ≤ nDirect
    · have start : fs.Trimmed Inv freed s n n [] s := by
        have start : fs.Trimmed Inv freed s n (min n nDirect) [] s := .start inv map.addrs
        rwa [Nat.min_eq_left some] at start
      have last : nDirect = n + (nDirect - n) := (Nat.add_sub_cancel' some).symm
      rw [last, Nat.add_sub_cancel_left]
      refine .foldlM_range' (fun i _ t => ∃ dropped, fs.Trimmed Inv freed s n i dropped t)
        ⟨[], start⟩ ?_
      rintro i - t high low ⟨dropped, trimmed⟩
      exact trimmed.dropDirect rules map fresh high (by omega)
    · have start : fs.Trimmed Inv freed s n nDirect [] s := by
        have start : fs.Trimmed Inv freed s n (min n nDirect) [] s := .start inv map.addrs
        rwa [Nat.min_eq_right (Nat.le_of_not_le some)] at start
      rw [Nat.sub_eq_zero_of_le (Nat.le_of_not_le some)]
      exact .value ⟨[], start⟩
  refine .bind (direct.mono (fun _ t ⟨_, trimmed⟩ => ?_) fun _ _ => id)
  refine .bind ((trimmed.shrinkTree rules map fresh (d := 0) (by decide)).mono
    (fun _ u ⟨_, trimmed⟩ => ?_) fun _ _ => id)
  have single : n - nDirect - indirectCount = n - rootStart (nDirect + 1) := Nat.sub_sub ..
  have double : n - nDirect - indirectCount - indirectCount * indirectCount =
      n - rootStart (nDirect + 2) := by
    rw [Nat.sub_sub, Nat.sub_sub]
    rfl
  rw [double, single]
  refine .bind ((trimmed.shrinkTree rules map fresh (d := 1) (by decide)).mono
    (fun _ v ⟨_, trimmed⟩ => ?_) fun _ _ => id)
  exact trimmed.shrinkTree rules map fresh (d := 2) (by decide)

end Trees

/-! ## What is freed -/

/-- `free_block` accepts the data blocks: they lie in the image, and the count of the cache is
plausible. -/
structure CoherentFs.CanFree (fs : CoherentFs) (isize fsize : Nat) (image : Image) : Prop where
  inside : ∀ b, isize ≤ b → b < fsize → image.hasBlock (fs.partOff + b) = true
  sees : ∃ nfree free tfree, nfree ≤ nicFree ∧ fs.Sees image isize fsize nfree free tfree

/-- A data block. -/
def DataArea (isize fsize b : Nat) : Prop := isize ≤ b ∧ b < fsize

theorem CoherentFs.CanFree.rules {fs : CoherentFs} {isize fsize : Nat} (data : 2 ≤ isize) :
    FreeRules fs (DataArea isize fsize) fun _ image => fs.CanFree isize fsize image where
  notSb inArea := by
    have low := inArea.1
    omega
  inside can inArea := can.inside _ inArea.1 inArea.2
  give := by
    rintro freed image b can inArea - now
    obtain ⟨nfree, free, tfree, bound, sees⟩ := can.sees
    have low := inArea.1
    have still : ∀ {after : Image}, after.len = image.len → ∀ c, isize ≤ c → c < fsize →
        after.hasBlock (fs.partOff + c) = true := by
      intro after len c low' high
      have inside := can.inside c low' high
      unfold Image.hasBlock at inside ⊢
      rw [len]
      exact inside
    by_cases full : nfree = nicFree
    · subst full
      obtain ⟨after, call, only, sees', -⟩ := CoherentFs.freeBlock_spill sees (b := b) (by omega)
        (by omega) inArea (can.inside b inArea.1 inArea.2) now
      exact ⟨after, call, only, still only.len, _, _, _, by decide, sees'⟩
    · obtain ⟨after, call, only, sees'⟩ :=
        CoherentFs.freeBlock_push sees (by omega) (b := b) (by omega) inArea now
      exact ⟨after, call, only.mono fun _ => Or.inl, still only.len, _, _, _, by omega, sees'⟩
  write := by
    rintro freed image b can inArea - data'
    obtain ⟨nfree, free, tfree, bound, sees⟩ := can.sees
    have low := inArea.1
    refine ⟨can.inside, nfree, free, tfree, bound, sees.inside, ?_⟩
    rw [Image.readBlock_setBlock_other _ _ (by omega)]
    exact sees.view

/-- The blocks that a shrink to `n` blocks has freed, and the block map that it has left. -/
structure CoherentFs.ShrunkTo (fs : CoherentFs) (s : Session) (n : Nat) (freed : List Nat)
    (t : Session) : Prop where
  calls : t.calls = freed.map AllocCall.gaveBlock ++ s.calls
  once : freed.Nodup
  dataFreed : ∀ idx, n ≤ idx → idx < maxBlocks →
    fs.pointer s.image s.inode.toInode (dataPlace idx) ≠ 0 →
    fs.pointer s.image s.inode.toInode (dataPlace idx) ∈ freed
  indirectFreed : ∀ p : BlockPlace, p.Valid → p.height ≠ 0 →
    fs.pointer s.image s.inode.toInode p ≠ 0 → (p.path = [] ∨ n < p.first + span p.height) →
    (∀ i < indirectCount, fs.pointer s.image s.inode.toInode (p.slot i) ≠ 0 →
      fs.pointer s.image s.inode.toInode (p.slot i) ∈ freed) →
    fs.pointer s.image s.inode.toInode p ∈ freed
  nothingElse : ∀ b ∈ freed, b ≠ 0 ∧
    ((∃ idx, n ≤ idx ∧ idx < maxBlocks ∧
        fs.pointer s.image s.inode.toInode (dataPlace idx) = b) ∨
      ∃ p : BlockPlace, p.Valid ∧ p.height ≠ 0 ∧ fs.pointer s.image s.inode.toInode p = b ∧
        ∀ i < indirectCount, fs.pointer s.image s.inode.toInode (p.slot i) ≠ 0 →
          fs.pointer s.image s.inode.toInode (p.slot i) ∈ freed)
  kept : ∀ idx < n, idx < maxBlocks →
    fs.pointer t.image t.inode.toInode (dataPlace idx) =
      fs.pointer s.image s.inode.toInode (dataPlace idx) ∧
    (fs.pointer s.image s.inode.toInode (dataPlace idx) ≠ 0 →
      t.image.readBlock (fs.partOff + fs.pointer s.image s.inode.toInode (dataPlace idx)) =
        s.image.readBlock (fs.partOff + fs.pointer s.image s.inode.toInode (dataPlace idx)))
  gone : ∀ p : BlockPlace, p.Valid → n ≤ p.first → fs.pointer t.image t.inode.toInode p = 0

section Shrunk

variable {fs : CoherentFs} {area : Nat → Prop} {Inv : List Nat → Image → Prop}
  {freed dropped : List Nat} {s t : Session} {n : Nat} {p : BlockPlace} {image : Image}
  {inode : Inode}

/-- A place is not before the places above it. -/
theorem BlockPlace.first_le {rest : List Nat} (valid : BlockPlace.Valid ⟨p.root, p.path ++ rest⟩) :
    p.first ≤ BlockPlace.first ⟨p.root, p.path ++ rest⟩ := by
  have short : p.path.length ≤ rootHeight p.root := by
    have total := valid.2.1
    rw [List.length_append] at total
    dsimp only at total
    omega
  unfold BlockPlace.first
  dsimp only
  rw [start_append short]
  omega

/-- A place without a data block below the new end does not stay. -/
theorem CoherentFs.Stays.first_lt (stays : fs.Stays image inode n p) : p.first < n := by
  obtain ⟨rest, valid, -, before, -⟩ := stays
  have some : 0 < span (BlockPlace.height ⟨p.root, p.path ++ rest⟩) := Nat.pow_pos indirectCount_pos
  have above := BlockPlace.first_le valid
  omega

/-- A pointer block that stays has a slot that stays, or its data blocks are all below the new
end. -/
theorem CoherentFs.Stays.cases (stays : fs.Stays image inode n p) (tall : p.height ≠ 0) :
    (∃ i < indirectCount, fs.Stays image inode n (p.slot i)) ∨
      (p.path ≠ [] ∧ p.first + span p.height ≤ n) := by
  obtain ⟨rest, valid, proper, before, found⟩ := stays
  cases rest with
  | nil =>
    rw [List.append_nil] at proper before
    exact Or.inr ⟨fun none => tall (proper none), before⟩
  | cons i rest =>
    refine Or.inl ⟨i, valid.2.2 i (List.mem_append_right _ List.mem_cons_self), rest, ?_⟩
    unfold BlockPlace.slot
    dsimp only
    rw [List.append_assoc]
    exact ⟨valid, proper, before, found⟩

/-- The slots of a pointer block are places. -/
theorem BlockPlace.Valid.slot (valid : p.Valid) (tall : p.height ≠ 0) {i : Nat}
    (small : i < indirectCount) : (p.slot i).Valid := by
  have short := valid.2.1
  refine ⟨valid.1, ?_, ?_⟩
  · unfold BlockPlace.height at tall
    unfold BlockPlace.slot
    rw [List.length_append, List.length_singleton]
    dsimp only
    omega
  · intro slot member
    rcases List.mem_append.mp member with inPath | single
    · exact valid.2.2 slot inPath
    · rw [List.mem_singleton.mp single]
      exact small

/-- When all roots are done, the shrink is done. -/
theorem CoherentFs.Trimmed.shrunk (notSb : ∀ {x}, area x → x ≠ 1)
    (map : fs.OwnMap area s.image s.inode.toInode)
    (trimmed : fs.Trimmed Inv freed s n rootCount dropped t) : fs.ShrunkTo s n dropped t := by
  have mem : ∀ {p : BlockPlace}, p.Valid → fs.pointer s.image s.inode.toInode p ≠ 0 →
      (fs.pointer s.image s.inode.toInode p ∈ dropped ↔
        ¬ fs.Stays s.image s.inode.toInode n p) := by
    intro p valid found
    rw [trimmed.mem]
    constructor
    · rintro ⟨q, valid', -, same, -, dies⟩
      rw [map.distinct valid valid' found same.symm]
      exact dies
    · exact fun dies => ⟨p, valid, valid.1, rfl, found, dies⟩
  have slots : ∀ {p : BlockPlace}, p.Valid → p.height ≠ 0 →
      ¬ fs.Stays s.image s.inode.toInode n p → ∀ i < indirectCount,
        fs.pointer s.image s.inode.toInode (p.slot i) ≠ 0 →
        fs.pointer s.image s.inode.toInode (p.slot i) ∈ dropped :=
    fun valid tall dies i small found =>
      (mem (valid.slot tall small) found).mpr fun stays => dies stays.above
  refine ⟨trimmed.done.calls, trimmed.done.nodup, fun idx high bound found => ?_,
    fun p valid tall found cut empty => ?_, fun b member => ?_, fun idx low bound => ?_,
    fun p valid high => ?_⟩
  · obtain ⟨valid, -, first⟩ := dataPlace_spec bound
    refine (mem valid found).mpr fun stays => ?_
    have before := stays.first_lt
    omega
  · refine (mem valid found).mpr fun stays => ?_
    rcases stays.cases tall with ⟨i, small, below⟩ | ⟨proper, before⟩
    · exact (mem (valid.slot tall small) below.ne_zero).mp (empty i small below.ne_zero) below
    · rcases cut with root | beyond
      · exact proper root
      · omega
  · obtain ⟨p, valid, -, rfl, found, dies⟩ := (trimmed.mem b).mp member
    refine ⟨found, ?_⟩
    by_cases leaf : p.height = 0
    · refine Or.inl ⟨p.first, ?_, BlockPlace.first_lt valid, ?_⟩
      · by_contra before
        exact dies ((CoherentFs.stays_leaf valid leaf).mpr ⟨Nat.lt_of_not_le before, found⟩)
      · rw [dataPlace_first valid leaf]
    · exact Or.inr ⟨p, valid, leaf, rfl, slots valid leaf dies⟩
  · obtain ⟨valid, leaf, first⟩ := dataPlace_spec bound
    have stays : fs.pointer s.image s.inode.toInode (dataPlace idx) ≠ 0 →
        fs.Stays s.image s.inode.toInode n (dataPlace idx) :=
      fun found => (CoherentFs.stays_leaf valid leaf).mpr ⟨first.symm ▸ low, found⟩
    constructor
    · by_cases found : fs.pointer s.image s.inode.toInode (dataPlace idx) = 0
      · rw [found]
        exact trimmed.gone _ valid valid.1 fun stays => stays.ne_zero found
      · exact trimmed.kept _ valid fun _ => stays found
    · intro found
      refine trimmed.done.frame.block _ ?_
      rintro (sb | ⟨x, same, root, -, path, valid', here, -, tall | dies⟩)
      · exact notSb (map.area valid found) (Nat.add_left_cancel sb)
      · have eq := map.distinct valid valid' found (here ▸ Nat.add_left_cancel same)
        rw [← eq, leaf] at tall
        exact tall rfl
      · have eq := map.distinct valid valid' found (here ▸ Nat.add_left_cancel same)
        rw [← eq] at dies
        exact dies (stays found)
  · refine trimmed.gone p valid valid.1 fun stays => ?_
    have before := stays.first_lt
    omega

end Shrunk

/-- `_shrink_to_n_blocks` frees the data blocks from index `n` on and the pointer blocks that are
left without a pointer, but for those below another pointer block that have all their data blocks
below `n`, each once, and keeps everything else. -/
theorem CoherentFs.shrinkToNBlocks_shrinks (fs : CoherentFs) (s : Session) (n : Nat)
    {isize fsize : Nat} (data : 2 ≤ isize) (can : fs.CanFree isize fsize s.image)
    (map : fs.OwnMap (DataArea isize fsize) s.image s.inode.toInode) :
    ∃ t freed, fs.shrinkToNBlocks n s = .ok () t ∧ fs.ShrunkTo s n freed t := by
  have ends : Ends (fs.shrinkToNBlocks n) s (fun _ t => ∃ dropped,
      fs.Trimmed (fun _ image => fs.CanFree isize fsize image) [] s n rootCount dropped t)
      noRaise :=
    CoherentFs.shrinkToNBlocks_trims (CoherentFs.CanFree.rules data) map can
      (fun _ _ => List.not_mem_nil) n
  obtain ⟨⟨⟩, t, ran, dropped, trimmed⟩ := ends.returns
  exact ⟨t, dropped, ran, trimmed.shrunk (fun inArea => by
    have low := inArea.1
    omega) map⟩

/-- A partition of three data blocks: block 3 points to block 4, and block 4 to nothing. -/
def hollowImage : Image where
  len := 6 * 512
  byte := fun i => if i = 512 then 3 else if i = 516 then 6 else if i = 3 * 512 + 2 then 4 else 0

/-- An inode with these addresses. -/
def inodeOf (addrs : List Nat) : OpenInode where
  mode := sIfreg
  size := 0
  addrs := addrs
  ino := 1
  nlinks := 1
  uid := 0
  gid := 0
  atime := 0
  mtime := 0
  ctime := 0

/-- A session on the partition. -/
def hollowSession (addrs : List Nat) : Session := ⟨hollowImage, fun _ => 0, inodeOf addrs, []⟩

/-- Two levels of pointer blocks without a data block. -/
def hollowAddrs : List Nat := [0, 0, 0, 0, 0, 0, 0, 0, 0, 0, 0, 3, 0]

/-- A block outside the partition. -/
def strayAddrs : List Nat := [200, 0, 0, 0, 0, 0, 0, 0, 0, 0, 0, 0, 0]

theorem hollow_canFree : CoherentFs.CanFree ⟨0⟩ 3 6 hollowImage where
  inside b _ high := by
    unfold Image.hasBlock hollowImage blockSize
    dsimp only
    exact decide_eq_true (by omega)
  sees := ⟨0, fun i => (hollowImage.readBlock 1).get32 (sbFree + i * 4), 0, by decide, by decide,
    by decide, by decide, by decide, fun _ _ => rfl, by decide⟩

theorem hollow_pointer {p : BlockPlace} (valid : p.Valid)
    (found : CoherentFs.pointer ⟨0⟩ hollowImage (inodeOf hollowAddrs).toInode p ≠ 0) :
    (p = ⟨11, []⟩ ∧ CoherentFs.pointer ⟨0⟩ hollowImage (inodeOf hollowAddrs).toInode p = 3) ∨
      (p = ⟨11, [0]⟩ ∧ CoherentFs.pointer ⟨0⟩ hollowImage (inodeOf hollowAddrs).toInode p = 4) := by
  have upper : ∀ slot < indirectCount,
      CoherentFs.entry ⟨0⟩ hollowImage 3 slot = if slot = 0 then 4 else 0 := by decide
  have lower : ∀ slot < indirectCount, CoherentFs.entry ⟨0⟩ hollowImage 4 slot = 0 := by
    decide
  have roots : ∀ root < rootCount,
      (inodeOf hollowAddrs).addrs.getD root 0 = if root = 11 then 3 else 0 := by decide
  obtain ⟨root, path⟩ := p
  obtain ⟨inside, isPath⟩ := valid
  dsimp only at inside isPath
  unfold CoherentFs.pointer at found ⊢
  dsimp only at found ⊢
  rw [roots root inside] at found ⊢
  by_cases here : root = 11
  swap
  · rw [if_neg here, follow_zero] at found
    exact absurd rfl found
  subst here
  rw [if_pos rfl] at found ⊢
  cases path with
  | nil => exact Or.inl ⟨rfl, rfl⟩
  | cons slot rest =>
    have small := isPath.2 slot List.mem_cons_self
    rw [follow_cons (by decide), upper slot small] at found ⊢
    by_cases first : slot = 0
    swap
    · rw [if_neg first, follow_zero] at found
      exact absurd rfl found
    subst first
    rw [if_pos rfl] at found ⊢
    cases rest with
    | nil => exact Or.inr ⟨rfl, rfl⟩
    | cons slot rest =>
      have small := isPath.2 slot (List.mem_cons_of_mem _ List.mem_cons_self)
      rw [follow_cons (by decide), lower slot small, follow_zero] at found
      exact absurd rfl found

theorem hollow_ownMap :
    CoherentFs.OwnMap ⟨0⟩ (DataArea 3 6) hollowImage (inodeOf hollowAddrs).toInode where
  addrs := rfl
  area valid found := by
    rcases hollow_pointer valid found with ⟨-, value⟩ | ⟨-, value⟩
    · rw [value]
      exact ⟨by decide, by decide⟩
    · rw [value]
      exact ⟨by decide, by decide⟩
  distinct valid valid' found same := by
    rcases hollow_pointer valid found with ⟨rfl, value⟩ | ⟨rfl, value⟩
    · rcases hollow_pointer valid' (same ▸ found) with ⟨rfl, -⟩ | ⟨-, value'⟩
      · rfl
      · rw [value, value'] at same
        cases same
    · rcases hollow_pointer valid' (same ▸ found) with ⟨-, value'⟩ | ⟨rfl, -⟩
      · rw [value, value'] at same
        cases same
      · rfl

theorem shrinkToNBlocks_shrinks_hollow :
    (2 ≤ 3 ∧ CoherentFs.CanFree ⟨0⟩ 3 6 (hollowSession hollowAddrs).image ∧
      CoherentFs.OwnMap ⟨0⟩ (DataArea 3 6) (hollowSession hollowAddrs).image
        (hollowSession hollowAddrs).inode.toInode) ∧
    ∃ t freed, CoherentFs.shrinkToNBlocks ⟨0⟩ 0 (hollowSession hollowAddrs) = .ok () t ∧
      CoherentFs.ShrunkTo ⟨0⟩ (hollowSession hollowAddrs) 0 freed t :=
  ⟨⟨by decide, hollow_canFree, hollow_ownMap⟩, CoherentFs.shrinkToNBlocks_shrinks ⟨0⟩
    (hollowSession hollowAddrs) 0 (by decide) hollow_canFree hollow_ownMap⟩

theorem stray_ownMap :
    CoherentFs.OwnMap ⟨0⟩ (fun _ => True) hollowImage (inodeOf strayAddrs).toInode := by
  have roots : ∀ root < rootCount,
      (inodeOf strayAddrs).addrs.getD root 0 = if root = 0 then 200 else 0 := by decide
  have only : ∀ {p : BlockPlace}, p.Valid →
      CoherentFs.pointer ⟨0⟩ hollowImage (inodeOf strayAddrs).toInode p ≠ 0 → p = ⟨0, []⟩ := by
    rintro ⟨root, path⟩ ⟨inside, isPath⟩ found
    dsimp only at inside isPath
    unfold CoherentFs.pointer at found
    dsimp only at found
    rw [roots root inside] at found
    by_cases here : root = 0
    · subst here
      rw [List.eq_nil_of_length_eq_zero (Nat.le_zero.mp isPath.1)]
    · rw [if_neg here, follow_zero] at found
      exact absurd rfl found
  refine ⟨rfl, fun _ _ => trivial, fun {p q} valid valid' found same => ?_⟩
  rw [only valid found, only valid' (same ▸ found)]

/-- A pointer block without pointers below the new end stays, and a block outside the partition
ends the shrink. -/
theorem hollow_stays :
    (¬ ∀ (fs : CoherentFs) (s : Session) (n isize fsize : Nat), 2 ≤ isize →
      fs.CanFree isize fsize s.image →
      fs.OwnMap (DataArea isize fsize) s.image s.inode.toInode →
      ∃ t, ∃ freed : List Nat, fs.shrinkToNBlocks n s = .ok () t ∧
        t.calls = freed.map AllocCall.gaveBlock ++ s.calls ∧
        ∀ p : BlockPlace, p.Valid → p.height ≠ 0 →
          fs.pointer s.image s.inode.toInode p ≠ 0 →
          (∀ i < indirectCount, fs.pointer s.image s.inode.toInode (p.slot i) ≠ 0 →
            fs.pointer s.image s.inode.toInode (p.slot i) ∈ freed) →
          fs.pointer s.image s.inode.toInode p ∈ freed) ∧
    ¬ ∀ (fs : CoherentFs) (s : Session) (n isize fsize : Nat), 2 ≤ isize →
      fs.CanFree isize fsize s.image → fs.OwnMap (fun _ => True) s.image s.inode.toInode →
      ∃ t, fs.shrinkToNBlocks n s = .ok () t := by
  constructor
  · intro all
    obtain ⟨t, freed, ran, calls, empty⟩ := all ⟨0⟩ (hollowSession hollowAddrs) 266 3 6 (by decide)
      hollow_canFree hollow_ownMap
    have trims : Ends (CoherentFs.shrinkToNBlocks ⟨0⟩ 266) (hollowSession hollowAddrs)
        (fun _ t => ∃ dropped, CoherentFs.Trimmed ⟨0⟩
          (fun _ image => CoherentFs.CanFree ⟨0⟩ 3 6 image) [] (hollowSession hollowAddrs) 266
          rootCount dropped t) noRaise :=
      CoherentFs.shrinkToNBlocks_trims (CoherentFs.CanFree.rules (by decide)) hollow_ownMap
        hollow_canFree (fun _ _ => List.not_mem_nil) 266
    obtain ⟨⟨⟩, t', ran', dropped, trimmed⟩ := trims.returns
    obtain rfl : t = t' := by
      rw [ran] at ran'
      injection ran'
    have same : freed = dropped := by
      have maps := calls.symm.trans trimmed.done.calls
      exact List.map_injective_iff.mpr (fun _ _ eq => AllocCall.gaveBlock.inj eq)
        (List.append_cancel_right maps)
    have valid : (⟨11, [0]⟩ : BlockPlace).Valid := ⟨by decide, by decide, by decide⟩
    have found : CoherentFs.pointer ⟨0⟩ hollowImage (inodeOf hollowAddrs).toInode ⟨11, [0]⟩ ≠ 0 := by
      decide
    have member := empty ⟨11, [0]⟩ valid (by decide) found fun i small below => by
      rcases hollow_pointer (valid.slot (by decide) small) below with ⟨eq, -⟩ | ⟨eq, -⟩
      · cases eq
      · cases eq
    rw [same, trimmed.mem] at member
    obtain ⟨p, valid', -, here, -, dies⟩ := member
    have eq := hollow_ownMap.distinct valid valid' found here.symm
    subst eq
    exact dies ⟨[], valid, nofun, by decide, found⟩
  · intro all
    obtain ⟨t, ran⟩ := all ⟨0⟩ (hollowSession strayAddrs) 0 3 6 (by decide) hollow_canFree
      stray_ownMap
    have raises : Ends (CoherentFs.shrinkToNBlocks ⟨0⟩ 0) (hollowSession strayAddrs)
        (fun _ _ => False) fun _ _ => True := by
      have call : CoherentFs.giveBlock ⟨0⟩ 200 (hollowSession strayAddrs) =
          .error (.freeOutside 200 3 6) (hollowSession strayAddrs) := rfl
      refine .bind (.bind (.bind (.of_ok (addrAt_eq 0 _) ?_)))
      exact .bind (.of_error call trivial)
    unfold Ends at raises
    rw [ran] at raises
    exact raises

end C900
