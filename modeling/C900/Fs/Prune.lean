import C900.Fs.BlockMap
import C900.Fs.Writer
import C900.Logic.TreePruning

/-!
# Shrinking a file

`_shrink_indirect` prunes the tree below a pointer block to its first leaves. It frees the
blocks that the pruning drops, each once, and writes back the pointer blocks that it keeps. What
the free list does with the blocks is a parameter: `FreeRules` says what `free_block` promises.
-/

namespace C900

open PointerTree

/-- What `free_block` and `write_block` do with the blocks of a set, as long as no block is used
after it was freed. `Inv` relates the blocks freed so far, newest first, to the image. -/
structure FreeRules (fs : CoherentFs) (area : Nat → Prop) (Inv : List Nat → Image → Prop) :
    Prop where
  notSb : ∀ {b}, area b → b ≠ 1
  inside : ∀ {freed image b}, Inv freed image → area b → image.hasBlock (fs.partOff + b) = true
  give : ∀ {freed image b}, Inv freed image → area b → b ∉ freed → ∀ now,
    ∃ after, fs.freeBlock now b image = .ok () after ∧
      Image.AgreeExcept (fun bno => bno = fs.partOff + 1 ∨ bno = fs.partOff + b) image after ∧
      Inv (b :: freed) after
  write : ∀ {freed image b}, Inv freed image → area b → b ∉ freed → ∀ data,
    Inv freed (image.setBlock (fs.partOff + b) data)

/-- The block at the end of a path below a block. -/
abbrev CoherentFs.node (fs : CoherentFs) (image : Image) (b : Nat) (path : List Nat) : Nat :=
  follow (fs.entry image) b path

/-- The pruning of a tree of height `d` to `k` leaves keeps the block at the end of a path. -/
abbrev CoherentFs.Lasts (fs : CoherentFs) (image : Image) (d b k : Nat) (path : List Nat) : Prop :=
  Survives (fs.entry image) indirectCount d k b path

/-- A tree of height `d` without a block twice, all of them in a set. -/
structure CoherentFs.OwnTree (fs : CoherentFs) (area : Nat → Prop) (image : Image) (d b : Nat) :
    Prop where
  nonzero : b ≠ 0
  area : ∀ path, IsPath indirectCount d path → fs.node image b path ≠ 0 →
    area (fs.node image b path)
  distinct : ∀ path other, IsPath indirectCount d path → IsPath indirectCount d other →
    fs.node image b path ≠ 0 →
    fs.node image b path = fs.node image b other → path = other

/-- A block below the first `i` slots of a pointer block that the pruning to `k` leaves may write:
a pointer block, or a leaf that it drops. -/
def CoherentFs.Beneath (fs : CoherentFs) (image : Image) (d b k i x : Nat) : Prop :=
  ∃ slot rest, slot < i ∧ IsPath indirectCount (d + 1) (slot :: rest) ∧
    fs.node image b (slot :: rest) = x ∧ x ≠ 0 ∧
    (rest.length < d ∨ ¬ fs.Lasts image (d + 1) b k (slot :: rest))

/-- A block that the pruning of a pointer block to `k` leaves drops below its first `i` slots. -/
def CoherentFs.Dropped (fs : CoherentFs) (image : Image) (d b k i x : Nat) : Prop :=
  ∃ slot rest, slot < i ∧ IsPath indirectCount (d + 1) (slot :: rest) ∧
    fs.node image b (slot :: rest) = x ∧ x ≠ 0 ∧
    ¬ fs.Lasts image (d + 1) b k (slot :: rest)

/-- What has happened since the session `s`: these blocks were freed, newest first, and nothing
changed but the superblock and the blocks of a set. -/
structure CoherentFs.Gave (fs : CoherentFs) (Inv : List Nat → Image → Prop) (freed : List Nat)
    (changed : Nat → Prop) (s : Session) (dropped : List Nat) (t : Session) : Prop where
  nodup : dropped.Nodup
  inv : Inv (dropped ++ freed) t.image
  inode : t.inode = s.inode
  calls : t.calls = dropped.map AllocCall.gaveBlock ++ s.calls
  frame : Image.AgreeExcept
    (fun bno => bno = fs.partOff + 1 ∨ ∃ x, bno = fs.partOff + x ∧ changed x) s.image t.image

section Steps

variable {fs : CoherentFs} {area : Nat → Prop} {Inv : List Nat → Image → Prop}
  {freed dropped : List Nat} {changed changed' : Nat → Prop} {s t u : Session}

theorem CoherentFs.Gave.start (inv : Inv freed s.image) : fs.Gave Inv freed changed s [] s :=
  ⟨List.nodup_nil, inv, rfl, rfl, .refl _ _⟩

theorem CoherentFs.Gave.mono (done : fs.Gave Inv freed changed s dropped t)
    (more : ∀ x, changed x → changed' x) : fs.Gave Inv freed changed' s dropped t :=
  { done with
    frame := done.frame.mono fun _ known =>
      known.imp_right fun ⟨x, value, inside⟩ => ⟨x, value, more x inside⟩ }

theorem CoherentFs.Gave.trans {later : List Nat} (first : fs.Gave Inv freed changed s dropped t)
    (second : fs.Gave Inv (dropped ++ freed) changed t later u)
    (apart : ∀ x ∈ later, x ∉ dropped) : fs.Gave Inv freed changed s (later ++ dropped) u := by
  refine ⟨List.Nodup.append second.nodup first.nodup fun x new old => apart x new old, ?_,
    second.inode.trans first.inode, ?_, first.frame.trans second.frame⟩
  · rw [List.append_assoc]
    exact second.inv
  · rw [second.calls, first.calls, List.map_append, List.append_assoc]

/-- An unchanged block keeps its entries. -/
theorem CoherentFs.Gave.entry (done : fs.Gave Inv freed changed s dropped t) {x : Nat}
    (notSb : x ≠ 1) (kept : ¬ changed x) : fs.entry t.image x = fs.entry s.image x := by
  funext slot
  unfold CoherentFs.entry
  rw [done.frame.block]
  rintro (sb | ⟨y, same, inside⟩)
  · omega
  · have eq : x = y := by omega
    exact kept (eq ▸ inside)

/-- One block is freed. -/
theorem FreeRules.giveBlock (rules : FreeRules fs area Inv) (inv : Inv freed s.image) {b : Nat}
    (known : area b) (fresh : b ∉ freed) :
    Ends (fs.giveBlock b) s (fun _ t => fs.Gave Inv freed (· = b) s [b] t) noRaise := by
  obtain ⟨after, call, only, inv'⟩ := rules.give inv known fresh (s.clock 0)
  have ran : onImage (fs.freeBlock (s.clock 0) b)
      { s with clock := fun i => s.clock (i + 1) } =
      .ok () { s with clock := fun i => s.clock (i + 1), image := after } := by
    unfold onImage
    rw [call]
  refine .bind (.of_ok rfl (.bind (.of_ok ran (.update ?_))))
  refine ⟨List.nodup_singleton b, inv', rfl, rfl, ⟨only.len, fun bno kept => only.block bno ?_⟩⟩
  rintro (sb | here)
  · exact kept (Or.inl sb)
  · exact kept (Or.inr ⟨b, here, rfl⟩)

/-- A pointer block that is not freed is written back. -/
theorem FreeRules.writeBack (rules : FreeRules fs area Inv) (inv : Inv freed s.image) {b : Nat}
    (known : area b) (fresh : b ∉ freed) (data : Buffer) :
    Ends (onImage (writeBlock (fs.partOff + b) data)) s
      (fun _ t => t = { s with image := s.image.setBlock (fs.partOff + b) data } ∧
        fs.Gave Inv freed (· = b) s [] t) noRaise := by
  have ran : onImage (writeBlock (fs.partOff + b) data) s =
      .ok () { s with image := s.image.setBlock (fs.partOff + b) data } := by
    unfold onImage
    rw [writeBlock_inside (rules.inside inv known)]
  refine .of_ok ran ⟨rfl, List.nodup_nil, rules.write inv known fresh data, rfl, rfl, ?_⟩
  exact (s.image.setBlock_agreeExcept _ data).mono fun bno here => Or.inr ⟨b, here, rfl⟩

end Steps

/-! ## One pointer block -/

/-- The state of `_shrink_indirect` before slot `i` of the pointer block `b`, of height `d + 1`. -/
structure CoherentFs.Cutting (fs : CoherentFs) (Inv : List Nat → Image → Prop) (freed : List Nat)
    (s : Session) (d b k i : Nat) (p : Pruning) (dropped : List Nat) (t : Session) : Prop where
  done : fs.Gave Inv freed (fs.Beneath s.image d b k i) s dropped t
  mem : ∀ x, x ∈ dropped ↔ fs.Dropped s.image d b k i x
  gone : ∀ j < indirectCount, j < i →
    ¬ fs.Lasts s.image (d + 1) b k [j] → p.work.get32 (j * 4) = 0
  kept : ∀ j < indirectCount,
    (j < i → fs.Lasts s.image (d + 1) b k [j]) →
    p.work.get32 (j * 4) = fs.entry s.image b j
  goneBelow : ∀ j rest, IsPath indirectCount (d + 1) (j :: rest) → j < i →
    fs.Lasts s.image (d + 1) b k [j] →
    ¬ fs.Lasts s.image (d + 1) b k (j :: rest) →
    fs.node t.image (fs.entry s.image b j) rest = 0
  keptBelow : ∀ j rest, IsPath indirectCount (d + 1) (j :: rest) →
    (j < i → fs.Lasts s.image (d + 1) b k (j :: rest)) →
    fs.node t.image (fs.entry s.image b j) rest =
      fs.node s.image b (j :: rest)
  allZero : p.allZero = true ↔
    ∀ j < i, ¬ fs.Lasts s.image (d + 1) b k [j]
  clean : p.dirty = false → p.work = s.image.readBlock (fs.partOff + b)

/-- What `_shrink_indirect` has done to the pointer block `b`, of height `d + 1`. -/
structure CoherentFs.Cut (fs : CoherentFs) (Inv : List Nat → Image → Prop) (freed : List Nat)
    (s : Session) (d b k : Nat) (bare : Bool) (dropped : List Nat) (t : Session) : Prop where
  done : fs.Gave Inv freed (fun x => x = b ∨ fs.Beneath s.image d b k indirectCount x) s dropped t
  mem : ∀ x, x ∈ dropped ↔ fs.Dropped s.image d b k indirectCount x
  bare_iff : bare = true ↔ ¬ fs.Lasts s.image (d + 1) b k []
  gone : bare = false → ∀ path, IsPath indirectCount (d + 1) path → path ≠ [] →
    ¬ fs.Lasts s.image (d + 1) b k path →
    fs.node t.image b path = 0
  kept : bare = false → ∀ path, IsPath indirectCount (d + 1) path →
    fs.Lasts s.image (d + 1) b k path →
    fs.node t.image b path = fs.node s.image b path

/-- Such a block below slot `i`. -/
def CoherentFs.BeneathSlot (fs : CoherentFs) (image : Image) (d b k i x : Nat) : Prop :=
  ∃ rest, IsPath indirectCount (d + 1) (i :: rest) ∧ fs.node image b (i :: rest) = x ∧ x ≠ 0 ∧
    (rest.length < d ∨ ¬ fs.Lasts image (d + 1) b k (i :: rest))

section Slots

variable {fs : CoherentFs} {area : Nat → Prop} {Inv : List Nat → Image → Prop}
  {freed dropped : List Nat} {s t : Session} {d b k i : Nat} {p : Pruning}

theorem CoherentFs.Beneath.mono {x j : Nat} (le : i ≤ j) (beneath : fs.Beneath s.image d b k i x) :
    fs.Beneath s.image d b k j x := by
  obtain ⟨slot, rest, small, found⟩ := beneath
  exact ⟨slot, rest, Nat.lt_of_lt_of_le small le, found⟩

theorem CoherentFs.BeneathSlot.beneath {x : Nat} (beneath : fs.BeneathSlot s.image d b k i x) :
    fs.Beneath s.image d b k (i + 1) x := by
  obtain ⟨rest, found⟩ := beneath
  exact ⟨i, rest, Nat.lt_succ_self i, found⟩

theorem CoherentFs.Cutting.start (tree : fs.OwnTree area s.image (d + 1) b)
    (inv : Inv freed s.image) :
    fs.Cutting Inv freed s d b k 0 ⟨s.image.readBlock (fs.partOff + b), false, true⟩ [] s where
  done := .start inv
  mem x := by
    refine iff_of_false List.not_mem_nil ?_
    rintro ⟨slot, -, small, -⟩
    exact absurd small (Nat.not_lt_zero slot)
  gone j _ small := absurd small (Nat.not_lt_zero j)
  kept _ _ _ := rfl
  goneBelow j _ _ small := absurd small (Nat.not_lt_zero j)
  keptBelow j rest _ _ := (follow_cons tree.nonzero j rest).symm
  allZero := iff_of_true rfl fun j small => absurd small (Nat.not_lt_zero j)
  clean _ := rfl

/-- What is found below a slot that lasts is where it was. -/
theorem CoherentFs.Cutting.settled (cutting : fs.Cutting Inv freed s d b k i p dropped t) {j : Nat}
    {rest : List Nat} (isPath : IsPath indirectCount (d + 1) (j :: rest))
    (lasts : j < i → fs.Lasts s.image (d + 1) b k [j])
    (found : fs.node t.image (fs.entry s.image b j) rest ≠ 0) :
    fs.node t.image (fs.entry s.image b j) rest = fs.node s.image b (j :: rest) := by
  refine cutting.keptBelow j rest isPath fun early => ?_
  by_contra dies
  exact found (cutting.goneBelow j rest isPath early (lasts early) dies)

/-- The nodes below a slot that lasts do not change with a block that is not among them. -/
theorem CoherentFs.Cutting.follow_eq (cutting : fs.Cutting Inv freed s d b k i p dropped t)
    {image : Image} {j : Nat} {rest : List Nat}
    (isPath : IsPath indirectCount (d + 1) (j :: rest))
    (lasts : j < i → fs.Lasts s.image (d + 1) b k [j])
    (kept : ∀ before, IsPath indirectCount (d + 1) (j :: before) →
      fs.node s.image b (j :: before) ≠ 0 →
      fs.entry image (fs.node s.image b (j :: before)) =
        fs.entry t.image (fs.node s.image b (j :: before))) :
    fs.node image (fs.entry s.image b j) rest = fs.node t.image (fs.entry s.image b j) rest := by
  refine follow_congr fun before slot after split found => ?_
  have above : IsPath indirectCount (d + 1) (j :: before) := by
    subst split
    have total := isPath.1
    rw [List.length_cons, List.length_append] at total
    refine ⟨by rw [List.length_cons]; omega, fun x member => isPath.2 x ?_⟩
    exact (List.cons_subset_cons j (List.subset_append_left before _)) member
  have here := cutting.settled above lasts found
  have present : fs.node s.image b (j :: before) ≠ 0 := fun hole => found (here.trans hole)
  change fs.entry image (fs.node t.image (fs.entry s.image b j) before) slot =
    fs.entry t.image (fs.node t.image (fs.entry s.image b j) before) slot
  rw [here, kept before above present]

/-- The other slots are not touched by what is done below slot `i`. -/
theorem CoherentFs.Cutting.apart (notSb : ∀ {x}, area x → x ≠ 1)
    (tree : fs.OwnTree area s.image (d + 1) b)
    (cutting : fs.Cutting Inv freed s d b k i p dropped t) {later : List Nat} {t' : Session}
    (moved : fs.Gave Inv (dropped ++ freed) (fs.BeneathSlot s.image d b k i) t later t')
    {j : Nat} {rest : List Nat} (isPath : IsPath indirectCount (d + 1) (j :: rest)) (other : j ≠ i)
    (lasts : j < i → fs.Lasts s.image (d + 1) b k [j]) :
    fs.node t'.image (fs.entry s.image b j) rest = fs.node t.image (fs.entry s.image b j) rest := by
  refine cutting.follow_eq isPath lasts fun before above present => ?_
  exact moved.entry (notSb (tree.area _ above present)) fun ⟨rest', isPath', same, _⟩ =>
    other (List.head_eq_of_cons_eq (tree.distinct _ _ above isPath' present same.symm))

/-- Slot `i` is done. -/
theorem CoherentFs.Cutting.advance (notSb : ∀ {x}, area x → x ≠ 1)
    (tree : fs.OwnTree area s.image (d + 1) b)
    (cutting : fs.Cutting Inv freed s d b k i p dropped t) {later : List Nat} {t' : Session}
    {p' : Pruning}
    (moved : fs.Gave Inv (dropped ++ freed) (fs.BeneathSlot s.image d b k i) t later t')
    (mem : ∀ x, x ∈ later ↔ ∃ rest, IsPath indirectCount (d + 1) (i :: rest) ∧
      fs.node s.image b (i :: rest) = x ∧ x ≠ 0 ∧ ¬ fs.Lasts s.image (d + 1) b k (i :: rest))
    (others : ∀ j, j ≠ i → p'.work.get32 (j * 4) = p.work.get32 (j * 4))
    (ownGone : ¬ fs.Lasts s.image (d + 1) b k [i] → p'.work.get32 (i * 4) = 0)
    (ownKept : fs.Lasts s.image (d + 1) b k [i] → p'.work.get32 (i * 4) = fs.entry s.image b i)
    (gone : ∀ rest, IsPath indirectCount (d + 1) (i :: rest) → fs.Lasts s.image (d + 1) b k [i] →
      ¬ fs.Lasts s.image (d + 1) b k (i :: rest) →
      fs.node t'.image (fs.entry s.image b i) rest = 0)
    (kept : ∀ rest, IsPath indirectCount (d + 1) (i :: rest) →
      fs.Lasts s.image (d + 1) b k (i :: rest) →
      fs.node t'.image (fs.entry s.image b i) rest = fs.node s.image b (i :: rest))
    (allZero : p'.allZero = true ↔ p.allZero = true ∧ ¬ fs.Lasts s.image (d + 1) b k [i])
    (clean : p'.dirty = false → p.dirty = false ∧ p'.work = p.work) :
    fs.Cutting Inv freed s d b k (i + 1) p' (later ++ dropped) t' := by
  have split : ∀ {j}, j < i + 1 → j = i ∨ j < i := by omega
  refine ⟨?_, fun x => ?_, ?_, ?_, ?_, ?_, ?_, ?_⟩
  · refine (cutting.done.mono fun x => .mono (Nat.le_succ i)).trans
      (moved.mono fun _ below => CoherentFs.BeneathSlot.beneath below) fun x new old => ?_
    obtain ⟨rest, isPath, here, nonzero, -⟩ := (mem x).mp new
    obtain ⟨slot, rest', small, isPath', there, -⟩ := (cutting.mem x).mp old
    have same := tree.distinct _ _ isPath isPath' (here ▸ nonzero) (here.trans there.symm)
    exact absurd (List.head_eq_of_cons_eq same) (by omega)
  · rw [List.mem_append, mem, cutting.mem]
    constructor
    · rintro (⟨rest, found⟩ | ⟨slot, rest, small, found⟩)
      · exact ⟨i, rest, Nat.lt_succ_self i, found⟩
      · exact ⟨slot, rest, Nat.lt_succ_of_lt small, found⟩
    · rintro ⟨slot, rest, small, found⟩
      rcases split small with rfl | early
      · exact Or.inl ⟨rest, found⟩
      · exact Or.inr ⟨slot, rest, early, found⟩
  · intro j small early dies
    rcases split early with rfl | before
    · exact ownGone dies
    · rw [others j (by omega)]
      exact cutting.gone j small before dies
  · intro j small lasts
    by_cases here : j = i
    · subst here
      exact ownKept (lasts (Nat.lt_succ_self j))
    · rw [others j here]
      exact cutting.kept j small fun before => lasts (Nat.lt_succ_of_lt before)
  · intro j rest isPath early lasts dies
    rcases split early with rfl | before
    · exact gone rest isPath lasts dies
    · rw [cutting.apart notSb tree moved isPath (by omega) fun _ => lasts]
      exact cutting.goneBelow j rest isPath before lasts dies
  · intro j rest isPath lasts
    by_cases here : j = i
    · subst here
      exact kept rest isPath (lasts (Nat.lt_succ_self j))
    · have before : j < i → fs.Lasts s.image (d + 1) b k (j :: rest) :=
        fun early => lasts (Nat.lt_succ_of_lt early)
      rw [cutting.apart notSb tree moved isPath here fun early =>
        Survives.above [j] (before early)]
      exact cutting.keptBelow j rest isPath before
  · rw [allZero, cutting.allZero]
    constructor
    · rintro ⟨before, here⟩ j early
      rcases split early with rfl | less
      · exact here
      · exact before j less
    · exact fun all => ⟨fun j less => all j (Nat.lt_succ_of_lt less), all i (Nat.lt_succ_self i)⟩
  · intro notDirty
    obtain ⟨before, same⟩ := clean notDirty
    rw [same]
    exact cutting.clean before

theorem within_slot (d k i : Nat) :
    PointerTree.Within indirectCount (d + 1) k [i] ↔ i * indirectCount ^ d + indirectCount ^ d ≤ k := by
  unfold PointerTree.Within
  rw [start_cons, start_nil, Nat.add_zero, List.length_singleton, Nat.add_sub_cancel]

/-- A slot that holds nothing to drop is passed. -/
theorem CoherentFs.Cutting.pass (notSb : ∀ {x}, area x → x ≠ 1)
    (tree : fs.OwnTree area s.image (d + 1) b) (small : i < indirectCount)
    (cutting : fs.Cutting Inv freed s d b k i p dropped t) {p' : Pruning} (work : p'.work = p.work)
    (dirty : p'.dirty = p.dirty)
    (allZero : p'.allZero = true ↔ p.allZero = true ∧ ¬ fs.Lasts s.image (d + 1) b k [i])
    (nothing : ∀ rest, IsPath indirectCount (d + 1) (i :: rest) →
      fs.node s.image b (i :: rest) ≠ 0 → fs.Lasts s.image (d + 1) b k (i :: rest)) :
    fs.Cutting Inv freed s d b k (i + 1) p' dropped t := by
  have slot : IsPath indirectCount (d + 1) [i] := IsPath.cons.mpr ⟨small, IsPath.nil d⟩
  have entry : p.work.get32 (i * 4) = fs.entry s.image b i :=
    cutting.kept i small fun early => absurd early (Nat.lt_irrefl i)
  have below := fun rest isPath => cutting.keptBelow i rest isPath
    fun early => absurd early (Nat.lt_irrefl i)
  have still : fs.Gave Inv (dropped ++ freed) (fs.BeneathSlot s.image d b k i) t [] t :=
    .start cutting.done.inv
  refine cutting.advance notSb tree still (fun x => ?_)
    (fun j _ => by rw [work]) (fun dies => ?_) (fun _ => by rw [work, entry])
    (fun rest isPath _ dies => ?_) (fun rest isPath _ => below rest isPath) allZero
    (fun notDirty => ⟨dirty ▸ notDirty, work⟩)
  · refine iff_of_false List.not_mem_nil ?_
    rintro ⟨rest, isPath, rfl, nonzero, dies⟩
    exact dies (nothing rest isPath nonzero)
  · rw [work, entry]
    by_contra nonzero
    refine dies (nothing [] slot ?_)
    rw [CoherentFs.node, follow_cons tree.nonzero]
    exact nonzero
  · rw [below rest isPath]
    by_contra nonzero
    exact dies (nothing rest isPath nonzero)

/-- The block at a slot is given up, with what the pruning below it has dropped. -/
theorem CoherentFs.Cutting.drop (rules : FreeRules fs area Inv)
    (tree : fs.OwnTree area s.image (d + 1) b) (small : i < indirectCount)
    (fresh : fs.node s.image b [i] ∉ freed) (nonzero : fs.entry s.image b i ≠ 0)
    (cutting : fs.Cutting Inv freed s d b k i p dropped t) {sub : List Nat} {u : Session}
    (moved : fs.Gave Inv (dropped ++ freed) (fs.BeneathSlot s.image d b k i) t sub u)
    (mem : ∀ x, x ∈ sub ↔ ∃ rest, rest ≠ [] ∧ IsPath indirectCount (d + 1) (i :: rest) ∧
      fs.node s.image b (i :: rest) = x ∧ x ≠ 0)
    (dies : ¬ fs.Lasts s.image (d + 1) b k [i]) :
    Ends (fs.dropEntry p i (fs.entry s.image b i)) u (fun p' v => ∃ dropped',
      fs.Cutting Inv freed s d b k (i + 1) p' dropped' v) noRaise := by
  have slot : IsPath indirectCount (d + 1) [i] := IsPath.cons.mpr ⟨small, IsPath.nil d⟩
  have here : fs.node s.image b [i] = fs.entry s.image b i := follow_cons tree.nonzero i []
  have present : fs.node s.image b [i] ≠ 0 := here ▸ nonzero
  have known : area (fs.entry s.image b i) := here ▸ tree.area _ slot present
  have notSub : fs.entry s.image b i ∉ sub := by
    intro member
    obtain ⟨rest, proper, isPath, same, -⟩ := (mem _).mp member
    exact proper (List.tail_eq_of_cons_eq
      (tree.distinct _ _ isPath slot (same ▸ nonzero) (same.trans here.symm)))
  have notDropped : fs.entry s.image b i ∉ dropped := by
    intro member
    obtain ⟨j, rest, early, isPath, same, -⟩ := (cutting.mem _).mp member
    have eq := tree.distinct _ _ isPath slot (same ▸ nonzero) (same.trans here.symm)
    exact absurd (List.head_eq_of_cons_eq eq) (by omega)
  refine .bind ((rules.giveBlock moved.inv known ?_).mono (fun _ v gave => ?_) fun _ _ => id)
  · rw [List.mem_append, List.mem_append]
    rintro (inSub | inDropped | inFreed)
    · exact notSub inSub
    · exact notDropped inDropped
    · exact fresh (here ▸ inFreed)
  refine .bind (.lifted (fun work written => ?_) fun e failed => ?_)
  swap
  · rw [writeIndirectEntry, if_neg (Nat.not_le.mpr small)] at failed
    cases failed
  rw [writeIndirectEntry, if_neg (Nat.not_le.mpr small)] at written
  obtain rfl := Except.ok.inj written
  have later : fs.Gave Inv (dropped ++ freed) (fs.BeneathSlot s.image d b k i) t
      ([fs.entry s.image b i] ++ sub) v := by
    refine moved.trans (gave.mono ?_) fun x single => ?_
    · rintro x rfl
      exact ⟨[], slot, here, nonzero, Or.inr dies⟩
    · rw [List.mem_singleton.mp single]
      exact notSub
  refine .value ⟨([fs.entry s.image b i] ++ sub) ++ dropped, cutting.advance rules.notSb tree later
    (fun x => ?_) (fun j other => ?_) (fun _ => ?_) (fun lasts => absurd lasts dies)
    (fun _ _ lasts => absurd lasts dies)
    (fun _ _ lasts => absurd (Survives.above [i] lasts) dies)
    (iff_of_eq (by simp [dies])) nofun⟩
  · rw [List.mem_append, List.mem_singleton, mem]
    constructor
    · rintro (rfl | ⟨rest, -, isPath, same, present'⟩)
      · exact ⟨[], slot, here, nonzero, dies⟩
      · exact ⟨rest, isPath, same, present',
          fun lasts => dies (Survives.above [i] lasts)⟩
    · rintro ⟨rest, isPath, same, present', -⟩
      by_cases proper : rest = []
      · subst proper
        exact Or.inl (same.symm.trans here)
      · exact Or.inr ⟨rest, proper, isPath, same, present'⟩
  · exact Buffer.get32_set32_apart (by omega)
  · exact Buffer.get32_set32_same

end Slots

/-! ## The recursion -/

/-- `_shrink_indirect` prunes pointer blocks of height `d + 1`. -/
def CoherentFs.Cuts (fs : CoherentFs) (area : Nat → Prop) (Inv : List Nat → Image → Prop)
    (d : Nat) : Prop :=
  ∀ {freed s b k}, Inv freed s.image → fs.OwnTree area s.image (d + 1) b →
    (∀ path, IsPath indirectCount (d + 1) path → fs.node s.image b path ≠ 0 →
      fs.node s.image b path ∉ freed) →
    Ends (fs.shrinkIndirect (d + 1) b k) s
      (fun bare t => ∃ dropped, fs.Cut Inv freed s d b k bare dropped t) noRaise

section Recursion

variable {fs : CoherentFs} {area : Nat → Prop} {Inv : List Nat → Image → Prop}
  {freed dropped : List Nat} {s t : Session} {d b k i : Nat} {p : Pruning}

/-- The tree below a slot, in the middle of the loop. -/
theorem CoherentFs.Cutting.subtree (tree : fs.OwnTree area s.image (d + 1) b)
    (small : i < indirectCount) (cutting : fs.Cutting Inv freed s d b k i p dropped t)
    (nonzero : fs.entry s.image b i ≠ 0) :
    fs.OwnTree area t.image d (fs.entry s.image b i) := by
  have below : ∀ rest, IsPath indirectCount d rest →
      fs.node t.image (fs.entry s.image b i) rest = fs.node s.image b (i :: rest) :=
    fun rest isPath => cutting.keptBelow i rest (IsPath.cons.mpr ⟨small, isPath⟩)
      fun early => absurd early (Nat.lt_irrefl i)
  refine ⟨nonzero, fun rest isPath present => ?_, fun rest rest' isPath isPath' present same => ?_⟩
  · rw [below rest isPath] at present ⊢
    exact tree.area _ (IsPath.cons.mpr ⟨small, isPath⟩) present
  · rw [below rest isPath] at present same
    rw [below rest' isPath'] at same
    exact List.tail_eq_of_cons_eq (tree.distinct _ _ (IsPath.cons.mpr ⟨small, isPath⟩)
      (IsPath.cons.mpr ⟨small, isPath'⟩) present same)

/-- What lasts below a slot that is looked into. -/
theorem CoherentFs.Cutting.lasts_iff (tree : fs.OwnTree area s.image (d + 1) b)
    (small : i < indirectCount) (cutting : fs.Cutting Inv freed s d b k i p dropped t)
    (looked : ¬ PointerTree.Within indirectCount (d + 1) k [i]) (rest : List Nat) :
    fs.Lasts t.image d (fs.entry s.image b i) (k - i * indirectCount ^ d) rest ↔
      fs.Lasts s.image (d + 1) b k (i :: rest) := by
  have below : ∀ rest, IsPath indirectCount d rest →
      fs.node t.image (fs.entry s.image b i) rest =
        fs.node s.image (fs.entry s.image b i) rest := fun rest isPath => by
    rw [cutting.keptBelow i rest (IsPath.cons.mpr ⟨small, isPath⟩)
      fun early => absurd early (Nat.lt_irrefl i)]
    exact follow_cons tree.nonzero i rest
  have before : fs.Lasts s.image (d + 1) b k (i :: rest) ↔
      fs.Lasts s.image d (fs.entry s.image b i) (k - i * indirectCount ^ d) rest :=
    survives_cons indirectCount_pos tree.nonzero small looked
  refine Iff.trans ⟨fun lasts => ?_, fun lasts => ?_⟩ before.symm
  · exact lasts.congr fun path isPath => (below path isPath).symm
  · exact lasts.congr below

/-- A slot that is looked into. -/
theorem CoherentFs.Cutting.descend (rules : FreeRules fs area Inv) {e : Nat}
    (deeper : fs.Cuts area Inv e) (tree : fs.OwnTree area s.image (e + 1 + 1) b)
    (small : i < indirectCount)
    (fresh : ∀ path, IsPath indirectCount (e + 1 + 1) path → fs.node s.image b path ≠ 0 →
      fs.node s.image b path ∉ freed)
    (nonzero : fs.entry s.image b i ≠ 0) (looked : ¬ PointerTree.Within indirectCount (e + 1 + 1) k [i])
    (cutting : fs.Cutting Inv freed s (e + 1) b k i p dropped t) :
    Ends (do
      let empty ← fs.shrinkIndirect (e + 1) (fs.entry s.image b i)
        (k - i * indirectCount ^ (e + 1))
      if empty then fs.dropEntry p i (fs.entry s.image b i)
      else pure { p with allZero := false }) t
      (fun p' t' => ∃ dropped', fs.Cutting Inv freed s (e + 1) b k (i + 1) p' dropped' t')
      noRaise := by
  have sub := cutting.subtree tree small nonzero
  have lasts := cutting.lasts_iff tree small looked
  have slot : ∀ {rest}, IsPath indirectCount (e + 1) rest ↔
      IsPath indirectCount (e + 1 + 1) (i :: rest) :=
    fun {rest} => ⟨fun isPath => IsPath.cons.mpr ⟨small, isPath⟩, fun isPath =>
      (IsPath.cons.mp isPath).2⟩
  have below : ∀ rest, IsPath indirectCount (e + 1) rest →
      fs.node t.image (fs.entry s.image b i) rest = fs.node s.image b (i :: rest) :=
    fun rest isPath => cutting.keptBelow i rest (slot.mp isPath)
      fun early => absurd early (Nat.lt_irrefl i)
  have clear : ∀ rest, IsPath indirectCount (e + 1) rest →
      fs.node t.image (fs.entry s.image b i) rest ≠ 0 →
      fs.node t.image (fs.entry s.image b i) rest ∉ dropped ++ freed := by
    intro rest isPath present
    rw [below rest isPath] at present ⊢
    rw [List.mem_append]
    rintro (inDropped | inFreed)
    · obtain ⟨j, rest', early, isPath', same, -⟩ := (cutting.mem _).mp inDropped
      have eq := tree.distinct _ _ (slot.mp isPath) isPath' present same.symm
      exact absurd (List.head_eq_of_cons_eq eq) (by omega)
    · exact fresh _ (slot.mp isPath) present inFreed
  refine .bind ((deeper cutting.done.inv sub clear).mono (fun bare u ⟨later, cut⟩ => ?_)
    fun _ _ => id)
  -- What the pruning of the subtree has touched lies below the slot.
  have moved : fs.Gave Inv (dropped ++ freed) (fs.BeneathSlot s.image (e + 1) b k i) t later u := by
    refine cut.done.mono fun x touched => ?_
    rcases touched with rfl | ⟨j, rest, _, isPath, found, present, may⟩
    · exact ⟨[], slot.mp (IsPath.nil _), follow_cons tree.nonzero i [], nonzero,
        Or.inl (Nat.succ_pos e)⟩
    · exact ⟨j :: rest, slot.mp isPath, (below _ isPath).symm.trans found, present,
        may.imp Nat.succ_lt_succ (mt (lasts _).mpr)⟩
  have dropped_iff : ∀ x, x ∈ later ↔ ∃ rest, rest ≠ [] ∧
      IsPath indirectCount (e + 1 + 1) (i :: rest) ∧ fs.node s.image b (i :: rest) = x ∧ x ≠ 0 ∧
      ¬ fs.Lasts s.image (e + 1 + 1) b k (i :: rest) := by
    intro x
    rw [cut.mem]
    constructor
    · rintro ⟨j, rest, _, isPath, found, present, dies⟩
      exact ⟨j :: rest, List.cons_ne_nil _ _, slot.mp isPath, (below _ isPath).symm.trans found,
        present, fun survives => dies ((lasts _).mpr survives)⟩
    · rintro ⟨rest, proper, isPath, found, present, dies⟩
      obtain ⟨j, rest, rfl⟩ := List.exists_cons_of_ne_nil proper
      exact ⟨j, rest, (slot.mpr isPath).2 j List.mem_cons_self, slot.mpr isPath,
        (below _ (slot.mpr isPath)).trans found, present, fun survives => dies ((lasts _).mp survives)⟩
  have own := lasts []
  refine .ite (fun bareTrue => ?_) fun notBare => ?_
  · have dies : ¬ fs.Lasts s.image (e + 1 + 1) b k [i] :=
      fun survives => cut.bare_iff.mp bareTrue (own.mpr survives)
    have here : fs.node s.image b [i] = fs.entry s.image b i := follow_cons tree.nonzero i []
    refine cutting.drop rules tree small (fresh _ (slot.mp (IsPath.nil _)) (here ▸ nonzero)) nonzero
      moved (fun x => ?_) dies
    rw [dropped_iff]
    constructor
    · rintro ⟨rest, proper, isPath, found, present, -⟩
      exact ⟨rest, proper, isPath, found, present⟩
    · rintro ⟨rest, proper, isPath, found, present⟩
      exact ⟨rest, proper, isPath, found, present,
        fun survives => dies (Survives.above [i] survives)⟩
  · have still : bare = false := by simpa using notBare
    have survives : fs.Lasts s.image (e + 1 + 1) b k [i] := by
      by_contra dies
      rw [cut.bare_iff.mpr fun inner => dies (own.mp inner)] at still
      cases still
    have entry : p.work.get32 (i * 4) = fs.entry s.image b i :=
      cutting.kept i small fun early => absurd early (Nat.lt_irrefl i)
    refine .value ⟨later ++ dropped, cutting.advance rules.notSb tree moved (fun x => ?_)
      (fun _ _ => rfl) (fun dies => absurd survives dies) (fun _ => entry)
      (fun rest isPath _ dies => ?_) (fun rest isPath lives => ?_)
      (iff_of_false nofun fun both => both.2 survives) (fun clean => ⟨clean, rfl⟩)⟩
    · rw [dropped_iff]
      constructor
      · rintro ⟨rest, -, found⟩
        exact ⟨rest, found⟩
      · rintro ⟨rest, isPath, found, present, dies⟩
        refine ⟨rest, ?_, isPath, found, present, dies⟩
        rintro rfl
        exact dies survives
    · refine cut.gone still rest (slot.mpr isPath) ?_ fun lives => dies ((lasts rest).mp lives)
      rintro rfl
      exact dies survives
    · rw [cut.kept still rest (slot.mpr isPath) ((lasts rest).mpr lives)]
      exact below rest (slot.mpr isPath)

/-- A slot whose leaves are all below the new end. -/
theorem CoherentFs.Cutting.keep (notSb : ∀ {x}, area x → x ≠ 1)
    (tree : fs.OwnTree area s.image (d + 1) b) (small : i < indirectCount)
    (cutting : fs.Cutting Inv freed s d b k i p dropped t) (nonzero : fs.entry s.image b i ≠ 0)
    (within : PointerTree.Within indirectCount (d + 1) k [i]) :
    fs.Cutting Inv freed s d b k (i + 1) { p with allZero := false } dropped t := by
  have slot : IsPath indirectCount (d + 1) [i] := IsPath.cons.mpr ⟨small, IsPath.nil d⟩
  have here : fs.node s.image b [i] = fs.entry s.image b i := follow_cons tree.nonzero i []
  have survives : fs.Lasts s.image (d + 1) b k [i] :=
    .of_within (List.cons_ne_nil _ _) slot within fun hole => nonzero (here.symm.trans hole)
  refine cutting.pass notSb tree small rfl rfl (iff_of_false nofun fun both => both.2 survives)
    fun rest isPath present => ?_
  exact .of_within (List.cons_ne_nil _ _) isPath
    (within.append (show IsPath indirectCount (d + 1) ([i] ++ rest) from isPath)) present

/-- A leaf beyond the new end. -/
theorem CoherentFs.Cutting.dropLeaf (rules : FreeRules fs area Inv)
    (tree : fs.OwnTree area s.image 1 b) (small : i < indirectCount)
    (fresh : fs.node s.image b [i] ∉ freed) (nonzero : fs.entry s.image b i ≠ 0)
    (beyond : ¬ PointerTree.Within indirectCount 1 k [i])
    (cutting : fs.Cutting Inv freed s 0 b k i p dropped t) :
    Ends (fs.dropEntry p i (fs.entry s.image b i)) t (fun p' v => ∃ dropped',
      fs.Cutting Inv freed s 0 b k (i + 1) p' dropped' v) noRaise := by
  have alone : ∀ {rest}, IsPath indirectCount 1 (i :: rest) → rest = [] := fun isPath =>
    List.eq_nil_of_length_eq_zero (Nat.le_zero.mp (Nat.le_of_succ_le_succ isPath.1))
  refine cutting.drop rules tree small fresh nonzero (.start cutting.done.inv) (fun x => ?_) ?_
  · refine iff_of_false List.not_mem_nil ?_
    rintro ⟨rest, proper, isPath, -⟩
    exact proper (alone isPath)
  · rintro ⟨rest, -, isPath, within, -⟩
    rw [List.singleton_append] at isPath within
    rw [alone isPath] at within
    exact beyond within

/-- The round of `_shrink_indirect` for one slot. -/
theorem CoherentFs.Cutting.round (rules : FreeRules fs area Inv)
    (deeper : ∀ e, d = e + 1 → fs.Cuts area Inv e) (tree : fs.OwnTree area s.image (d + 1) b)
    (small : i < indirectCount)
    (fresh : ∀ path, IsPath indirectCount (d + 1) path → fs.node s.image b path ≠ 0 →
      fs.node s.image b path ∉ freed)
    (cutting : fs.Cutting Inv freed s d b k i p dropped t) :
    Ends (if fs.entry s.image b i = 0 then pure p
      else if d = 0 then
        if i < k then pure { p with allZero := false }
        else fs.dropEntry p i (fs.entry s.image b i)
      else if i * indirectCount ^ d + indirectCount ^ d ≤ k then pure { p with allZero := false }
      else do
        let empty ← fs.shrinkIndirect d (fs.entry s.image b i) (k - i * indirectCount ^ d)
        if empty then fs.dropEntry p i (fs.entry s.image b i)
        else pure { p with allZero := false }) t
      (fun p' t' => ∃ dropped', fs.Cutting Inv freed s d b k (i + 1) p' dropped' t') noRaise := by
  have slot : IsPath indirectCount (d + 1) [i] := IsPath.cons.mpr ⟨small, IsPath.nil d⟩
  have here : ∀ rest, fs.node s.image b (i :: rest) = fs.node s.image (fs.entry s.image b i) rest :=
    follow_cons tree.nonzero i
  refine .ite (fun hole => ?_) fun nonzero => ?_
  · have none : ∀ rest, fs.node s.image b (i :: rest) = 0 := fun rest => by
      rw [here, hole]
      exact follow_zero rest
    refine .value ⟨dropped, cutting.pass rules.notSb tree small rfl rfl
      (and_iff_left fun survives => survives.ne_zero (none [])).symm
      fun rest _ present => absurd (none rest) present⟩
  · have clear := fresh [i] slot ((here []).symm ▸ nonzero)
    refine .ite (fun leaf => ?_) fun tree' => ?_
    · subst leaf
      have within : PointerTree.Within indirectCount 1 k [i] ↔ i < k := by
        rw [within_slot, Nat.pow_zero, Nat.mul_one]
        exact Iff.rfl
      exact .ite (fun before => .value ⟨dropped, cutting.keep rules.notSb tree small nonzero
        (within.mpr before)⟩) fun beyond =>
          cutting.dropLeaf rules tree small clear nonzero (mt within.mp beyond)
    · obtain ⟨e, rfl⟩ := Nat.exists_eq_succ_of_ne_zero tree'
      refine .ite (fun whole => ?_) fun cut => ?_
      · exact .value ⟨dropped, cutting.keep rules.notSb tree small nonzero
          ((within_slot _ k i).mpr whole)⟩
      · exact cutting.descend rules (deeper e rfl) tree small fresh nonzero
          (mt (within_slot _ k i).mp cut)

/-- The tree below a pointer block whose slots are all done, once the block is written. -/
theorem CoherentFs.Cutting.finish {work : Buffer} {dirty : Bool}
    (tree : fs.OwnTree area s.image (d + 1) b)
    (cutting : fs.Cutting Inv freed s d b k indirectCount ⟨work, dirty, false⟩ dropped t)
    {t' : Session} (done : fs.Gave Inv (dropped ++ freed) (· = b) t [] t')
    (written : ∀ j < indirectCount, fs.entry t'.image b j = work.get32 (j * 4))
    (others : ∀ x ≠ b, fs.entry t'.image x = fs.entry t.image x) :
    fs.Cut Inv freed s d b k false dropped t' := by
  have slot : ∀ {j rest}, IsPath indirectCount (d + 1) (j :: rest) → j < indirectCount :=
    fun isPath => (IsPath.cons.mp isPath).1
  have child : ∀ {j rest}, IsPath indirectCount (d + 1) (j :: rest) →
      fs.Lasts s.image (d + 1) b k [j] →
      fs.node t'.image b (j :: rest) = fs.node t.image (fs.entry s.image b j) rest := by
    intro j rest isPath lasts
    have entry : work.get32 (j * 4) = fs.entry s.image b j :=
      cutting.kept j (slot isPath) fun _ => lasts
    rw [CoherentFs.node, follow_cons tree.nonzero, written j (slot isPath), entry]
    refine cutting.follow_eq isPath (fun _ => lasts) fun before above present => others _ ?_
    intro same
    exact List.cons_ne_nil _ _ (tree.distinct _ [] above (IsPath.nil _) present same)
  refine ⟨?_, cutting.mem, iff_of_false nofun ?_, fun _ path isPath proper dies => ?_,
    fun _ path isPath lasts => ?_⟩
  · exact (cutting.done.mono fun x beneath => Or.inr beneath).trans
      (done.mono fun x here => Or.inl here) fun x none => absurd none List.not_mem_nil
  · intro dies
    have all : ∀ j < indirectCount, ¬ fs.Lasts s.image (d + 1) b k [j] := fun j _ lasts =>
      dies (Survives.above [] lasts)
    have bare := cutting.allZero.mpr all
    cases bare
  · obtain ⟨j, rest, rfl⟩ := List.exists_cons_of_ne_nil proper
    by_cases lasts : fs.Lasts s.image (d + 1) b k [j]
    · rw [child isPath lasts]
      exact cutting.goneBelow j rest isPath (slot isPath) lasts dies
    · have entry : work.get32 (j * 4) = 0 := cutting.gone j (slot isPath) (slot isPath) lasts
      rw [CoherentFs.node, follow_cons tree.nonzero, written j (slot isPath), entry]
      exact follow_zero rest
  · cases path with
    | nil => rfl
    | cons j rest =>
      rw [child isPath (Survives.above [j] lasts)]
      exact cutting.keptBelow j rest isPath fun _ => lasts

/-- A pointer block that is left without pointers is not written. -/
theorem CoherentFs.Cutting.bare {work : Buffer} {dirty : Bool}
    (cutting : fs.Cutting Inv freed s d b k indirectCount ⟨work, dirty, true⟩ dropped t) :
    fs.Cut Inv freed s d b k true dropped t where
  done := cutting.done.mono fun _ => Or.inr
  mem := cutting.mem
  bare_iff := by
    refine iff_of_true rfl fun lasts => ?_
    obtain ⟨j, survives⟩ := survives_nil.mp lasts
    exact cutting.allZero.mp rfl j survives.slot_lt survives
  gone := nofun
  kept := nofun

/-- A pointer block whose slots are all done is written where it has changed. -/
theorem CoherentFs.shrinkNode_cuts (rules : FreeRules fs area Inv)
    (deeper : ∀ e, d = e + 1 → fs.Cuts area Inv e) : fs.Cuts area Inv d := by
  intro freed s b k inv tree fresh
  have root : fs.node s.image b [] ≠ 0 := tree.nonzero
  have known : area b := tree.area [] (IsPath.nil _) root
  have clear : b ∉ freed := fresh [] (IsPath.nil _) root
  have read : onImage (readBlock (fs.partOff + b)) s =
      .ok (s.image.readBlock (fs.partOff + b)) s := rfl
  rw [CoherentFs.shrinkIndirect]
  refine .bind (.of_ok read (.bind ?_))
  refine (Ends.foldlM_range (fun i p t => ∃ dropped, fs.Cutting Inv freed s d b k i p dropped t)
    indirectCount ⟨[], .start tree inv⟩ ?_).mono ?_ fun _ _ => id
  · rintro i p t small ⟨dropped, cutting⟩
    have entry : p.work.get32 (i * 4) = fs.entry s.image b i :=
      cutting.kept i small fun early => absurd early (Nat.lt_irrefl i)
    dsimp only
    rw [entry]
    exact cutting.round rules deeper tree small fresh
  rintro ⟨work, dirty, allZero⟩ t ⟨dropped, cutting⟩
  have notDropped : b ∉ dropped := by
    intro member
    obtain ⟨j, rest, -, isPath, same, -⟩ := (cutting.mem b).mp member
    exact List.cons_ne_nil _ _ (tree.distinct _ [] isPath (IsPath.nil _)
      (fun hole => tree.nonzero (same.symm.trans hole)) same)
  refine .ite (fun write => .bind ?_) fun still => ?_
  · have some : allZero = false := by simpa using write.2
    subst some
    have free : b ∉ dropped ++ freed := fun member =>
      (List.mem_append.mp member).elim notDropped clear
    refine (rules.writeBack cutting.done.inv known free work).mono (fun _ u ⟨eq, gave⟩ => ?_)
      fun _ _ => id
    refine .value ⟨dropped, cutting.finish tree gave (fun j small => ?_) fun x other => ?_⟩
    · rw [eq, CoherentFs.entry]
      refine Buffer.get32_congr _ fun n near => ?_
      refine Image.readBlock_setBlock_same work (rules.inside cutting.done.inv known) ?_
      unfold indirectCount at small
      unfold blockSize
      omega
    · funext slot
      rw [eq, CoherentFs.entry, CoherentFs.entry, Image.readBlock_setBlock_other _ _ (by omega)]
  · cases allZero with
    | true => exact .value ⟨dropped, cutting.bare⟩
    | false =>
      have clean : dirty = false := by simpa using still
      refine .value ⟨dropped, cutting.finish tree (.start cutting.done.inv) (fun j small => ?_)
        fun _ _ => rfl⟩
      have same : work = s.image.readBlock (fs.partOff + b) := cutting.clean clean
      rw [same]
      refine congrFun (cutting.done.entry (rules.notSb known) ?_) j
      rintro ⟨slot, rest, -, isPath, here, present, -⟩
      exact List.cons_ne_nil _ _ (tree.distinct _ [] isPath (IsPath.nil _)
        (fun hole => present (here.symm.trans hole)) here)

/-- `_shrink_indirect` on a pointer block of height `d + 1`. -/
theorem CoherentFs.shrinkIndirect_cuts (rules : FreeRules fs area Inv) :
    fs.Cuts area Inv d := by
  induction d with
  | zero => exact shrinkNode_cuts rules fun e zero => absurd zero.symm (Nat.succ_ne_zero e)
  | succ d inductionHypothesis => exact shrinkNode_cuts rules fun e same => Nat.succ.inj same ▸ inductionHypothesis

end Recursion

end C900
