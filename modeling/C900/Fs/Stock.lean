import C900.Fs.FreeList
import C900.Fs.InodeFields
import C900.Fs.Shrink

/-!
# The stock of free blocks

The free list of a partition as the writers see it: a list of distinct blocks that a taken block
leaves and that a freed block joins. The first block that is freed into an empty cache opens the
list, since nothing is written to it; an open list serves as long as that block is not taken.
-/

namespace C900

/-- The free list of a partition that lies in the image. -/
structure CoherentFs.Stock (fs : CoherentFs) (isize fsize : Nat) (last : Option Nat)
    (image : Image) (list : List Nat) : Prop where
  data : 2 ≤ isize
  holds : ∃ nfree tfree, fs.Holds image isize fsize last nfree tfree list
  nodup : list.Nodup
  inside : ∀ b, DataArea isize fsize b → image.hasBlock (fs.partOff + b) = true

/-- A superblock whose lowest entry is the sentinel has a closed list. -/
theorem CoherentFs.Stock.closed {fs : CoherentFs} {isize fsize : Nat} {last : Option Nat}
    {image : Image} {list : List Nat} (stock : fs.Stock isize fsize last image list)
    (zero : (image.readBlock (fs.partOff + 1)).get32 sbFree = 0) : last = none := by
  obtain ⟨nfree, tfree, -, free, ⟨-, view⟩, chain⟩ := stock.holds
  exact chain.closed ((view.free 0 (by decide)).symm.trans zero)

/-- The block that an open list ends at is its last one. -/
theorem Chain.open_getLast {fs : CoherentFs} {image : Image} {isize fsize n c : Nat}
    {free : Nat → Nat} {list : List Nat} (chain : Chain fs image isize fsize (some c) n free list) :
    list.getLast? = some c := by
  have further : ∀ {b rest}, List.getLast? rest = some c → (b :: rest).getLast? = some c := by
    intro b rest found
    cases rest with
    | nil => cases found
    | cons next rest => exact (List.getLast?_cons_cons).trans found
  induction chain with
  | empty closed => cases closed
  | sentinel closed zero => cases closed
  | entry top nonzero inArea below inductionHypothesis => exact further inductionHypothesis
  | link top nonzero inArea small count below inductionHypothesis =>
    exact further inductionHypothesis
  | bottom top nonzero inArea isLast => exact isLast.symm

section Stock

variable {fs : CoherentFs} {isize fsize b : Nat} {last : Option Nat} {image other : Image}
  {list rest : List Nat} {s : Session}

theorem CoherentFs.Stock.inArea (stock : fs.Stock isize fsize last image list) :
    ∀ b ∈ list, DataArea isize fsize b := by
  obtain ⟨_, _, _, _, _, chain⟩ := stock.holds
  exact chain.inArea

theorem CoherentFs.Stock.ne_zero (stock : fs.Stock isize fsize last image list) :
    ∀ b ∈ list, b ≠ 0 := by
  intro b member zero
  have low := (stock.inArea b member).1
  have data := stock.data
  omega

/-- Blocks that are not free may change freely. -/
theorem CoherentFs.Stock.congr (stock : fs.Stock isize fsize last image list)
    (len : other.len = image.len)
    (sb : other.readBlock (fs.partOff + 1) = image.readBlock (fs.partOff + 1))
    (blocks : ∀ b ∈ list, other.readBlock (fs.partOff + b) = image.readBlock (fs.partOff + b)) :
    fs.Stock isize fsize last other list := by
  obtain ⟨nfree, tfree, holds⟩ := stock.holds
  refine ⟨stock.data, ⟨nfree, tfree, holds.congr len sb blocks⟩, stock.nodup, fun b inArea => ?_⟩
  have inside := stock.inside b inArea
  unfold Image.hasBlock at inside ⊢
  rw [len]
  exact inside

/-- A block that is in use may be written. -/
theorem CoherentFs.Stock.write (stock : fs.Stock isize fsize last image list)
    (known : DataArea isize fsize b) (used : b ∉ list) (data : Buffer) :
    fs.Stock isize fsize last (image.setBlock (fs.partOff + b) data) list := by
  have low := known.1
  have low' := stock.data
  refine stock.congr rfl (Image.readBlock_setBlock_other _ _ (by omega)) fun c member => ?_
  refine Image.readBlock_setBlock_other _ _ fun same => used ?_
  rw [← Nat.add_left_cancel same]
  exact member

/-! ## Taking a block -/

/-- What `alloc_block` changes for the writers. -/
structure CoherentFs.Took (fs : CoherentFs) (s : Session) (b : Nat) (t : Session) : Prop where
  inode : t.inode = s.inode
  calls : t.calls = .tookBlock b :: s.calls
  only : fs.SbOnly s.image t.image
  kept : fs.CacheKept s.image t.image

theorem CoherentFs.takeBlock_ok {after : Image}
    (call : fs.allocBlock (s.clock 0) s.image = .ok b after) :
    fs.takeBlock s = .ok b { s with
      clock := fun i => s.clock (i + 1)
      image := after
      calls := .tookBlock b :: s.calls } := by
  have ran : onImage (fs.allocBlock (s.clock 0)) { s with clock := fun i => s.clock (i + 1) } =
      .ok b { s with clock := fun i => s.clock (i + 1), image := after } := by
    unfold onImage
    rw [call]
  unfold CoherentFs.takeBlock
  have timed : timeNow s = .ok (s.clock 0) { s with clock := fun i => s.clock (i + 1) } := rfl
  rw [EStateM.bind_ok timed, EStateM.bind_ok ran]
  rfl

theorem CoherentFs.takeBlock_error {e : FsError} {after : Image}
    (call : fs.allocBlock (s.clock 0) s.image = .error e after) :
    fs.takeBlock s = .error e { s with
      clock := fun i => s.clock (i + 1)
      image := after } := by
  have ran : onImage (fs.allocBlock (s.clock 0)) { s with clock := fun i => s.clock (i + 1) } =
      .error e { s with clock := fun i => s.clock (i + 1), image := after } := by
    unfold onImage
    rw [call]
  unfold CoherentFs.takeBlock
  have timed : timeNow s = .ok (s.clock 0) { s with clock := fun i => s.clock (i + 1) } := rfl
  rw [EStateM.bind_ok timed, EStateM.bind_error ran]

/-- The first free block is taken. -/
theorem CoherentFs.Stock.take (stock : fs.Stock isize fsize last s.image (b :: rest))
    (notLast : last ≠ some b) :
    Ends fs.takeBlock s
      (fun b' t => b' = b ∧ fs.Took s b t ∧ fs.Stock isize fsize last t.image rest) noRaise := by
  obtain ⟨nfree, tfree, holds⟩ := stock.holds
  obtain ⟨after, n, call, only, holds'⟩ := holds.allocBlock stock.data notLast (s.clock 0)
  have kept := fs.allocBlock_cacheKept (s.clock 0) s.image
  unfold Ends at kept
  rw [call] at kept
  refine .of_ok (CoherentFs.takeBlock_ok call) ⟨rfl, ⟨rfl, rfl, only, kept⟩, stock.data,
    ⟨n, _, holds'⟩, (List.nodup_cons.mp stock.nodup).2, fun c inArea => ?_⟩
  rw [only.hasBlock]
  exact stock.inside c inArea

/-- An exhausted closed list gives no block. -/
theorem CoherentFs.Stock.take_nil (stock : fs.Stock isize fsize none s.image []) :
    Ends fs.takeBlock s (fun _ _ => False) fun e t => e = .outOfFreeBlocks ∧
      t.inode = s.inode ∧ t.calls = s.calls ∧ fs.SbOnly s.image t.image ∧
      fs.CacheKept s.image t.image ∧ fs.Stock isize fsize none t.image [] := by
  obtain ⟨nfree, tfree, holds⟩ := stock.holds
  obtain ⟨after, n, call, only, holds'⟩ := holds.allocBlock_nil (s.clock 0)
  have kept := fs.allocBlock_cacheKept (s.clock 0) s.image
  unfold Ends at kept
  rw [call] at kept
  refine .of_error (CoherentFs.takeBlock_error call) ⟨rfl, rfl, rfl, only, kept, stock.data,
    ⟨n, _, holds'⟩, List.nodup_nil, fun c inArea => ?_⟩
  rw [only.hasBlock]
  exact stock.inside c inArea

/-- The last block of an open list is returned, or it does not read as a link and stays. -/
theorem CoherentFs.Stock.take_last (stock : fs.Stock isize fsize (some b) s.image [b]) :
    Ends fs.takeBlock s (fun b' t => t.calls = .tookBlock b' :: s.calls) fun e t =>
      (∃ n, e = .badChainNfree n) ∧ t.inode = s.inode ∧ t.calls = s.calls ∧ t.image = s.image := by
  obtain ⟨nfree, tfree, bound, free, sees, chain⟩ := stock.holds
  cases chain with
  | entry _ _ _ below =>
    cases below with
    | sentinel closed => cases closed
  | link _ _ _ _ _ below =>
    cases below with
    | empty closed => cases closed
    | sentinel closed => cases closed
  | bottom top nonzero inArea =>
    subst top
    by_cases valid : 0 ≤ linkCount (s.image.readBlock (fs.partOff + free 0)) ∧
        linkCount (s.image.readBlock (fs.partOff + free 0)) ≤ nicFree
    · obtain ⟨after, call, -⟩ := CoherentFs.allocBlock_link sees nonzero inArea
        (n := (linkCount (s.image.readBlock (fs.partOff + free 0))).toNat) (by omega) (by omega)
        (s.clock 0)
      exact .of_ok (CoherentFs.takeBlock_ok call) rfl
    · have call := CoherentFs.allocBlock_badLink sees nonzero inArea (by omega) (s.clock 0)
      exact .of_error (CoherentFs.takeBlock_error call) ⟨⟨_, rfl⟩, rfl, rfl, rfl⟩

/-! ## Freeing a block -/

/-- A freed block joins the list, which may open it. -/
theorem CoherentFs.Stock.free (stock : fs.Stock isize fsize last image list)
    (known : DataArea isize fsize b) (fresh : b ∉ list) (now : Nat) :
    ∃ after last', fs.freeBlock now b image = .ok () after ∧
      Image.AgreeExcept (fun bno => bno = fs.partOff + 1 ∨ bno = fs.partOff + b) image after ∧
      fs.CacheKept image after ∧ fs.Stock isize fsize last' after (b :: list) := by
  have low := known.1
  have data := stock.data
  have kept := fs.freeBlock_cacheKept now image (b := b) (by omega)
  unfold Ends at kept
  have inside : ∀ {after : Image}, after.len = image.len → ∀ c, DataArea isize fsize c →
      after.hasBlock (fs.partOff + c) = true := by
    intro after len c inArea
    have inside := stock.inside c inArea
    unfold Image.hasBlock at inside ⊢
    rw [len]
    exact inside
  obtain ⟨nfree, tfree, holds⟩ := stock.holds
  by_cases empty : nfree = 0
  · subst empty
    obtain ⟨_, free, sees, chain⟩ := id holds
    obtain ⟨after, call, only, holds'⟩ := sees.freeBlock_first stock.data known now
    -- An empty cache is the end of a closed list.
    have none : list = [] := by
      cases chain
      rfl
    subst none
    rw [call] at kept
    exact ⟨after, some b, call, only.mono fun _ => Or.inl, kept, data, ⟨_, _, holds'⟩,
      List.nodup_singleton b, inside only.len⟩
  · obtain ⟨after, call, only, holds'⟩ := holds.freeBlock stock.data known fresh
      (fun _ => stock.inside b known) (fun zero => absurd zero empty) now
    rw [call] at kept
    exact ⟨after, last, call, only, kept, data, ⟨_, _, holds'⟩,
      List.nodup_cons.mpr ⟨fresh, stock.nodup⟩, inside only.len⟩

/-- The blocks that are in use follow the rules of freeing, and the inode fields stay. -/
theorem CoherentFs.Stock.rules (fs : CoherentFs) (list : List Nat) (origin : Image)
    (data : 2 ≤ isize) :
    FreeRules fs (fun b => DataArea isize fsize b ∧ b ∉ list) fun freed image =>
      fs.CacheKept origin image ∧ ∃ last, fs.Stock isize fsize last image (freed ++ list) where
  notSb known := by
    have low := known.1.1
    omega
  inside := fun ⟨_, _, stock⟩ known => stock.inside _ known.1
  give := by
    rintro freed image b ⟨kept, last, stock⟩ known fresh now
    have unlisted : b ∉ freed ++ list := fun member =>
      (List.mem_append.mp member).elim fresh known.2
    obtain ⟨after, last', call, only, kept', stock'⟩ := stock.free known.1 unlisted now
    exact ⟨after, call, only, kept.trans kept', last', stock'⟩
  write := by
    rintro freed image b ⟨kept, last, stock⟩ known fresh data'
    have low := known.1.1
    refine ⟨kept.trans ((image.setBlock_agreeExcept _ data').cacheKept (by omega)), last, ?_⟩
    exact stock.write known.1 (fun member => (List.mem_append.mp member).elim fresh known.2) data'

end Stock

end C900
