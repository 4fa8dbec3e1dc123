import C900.Fs.FreeList

/-!
# Runs of the allocator

A run interleaves `alloc_block`, `free_block` of blocks that are in use, and
writes to blocks that are in use. `PoolState` keeps, next to the image, which
blocks are in use and which are free by the calls made so far; soundness says
that the list on the disk is a list of exactly the free ones.
-/

namespace C900

/-- Allocation until the list is exhausted returns the blocks of `list` in
order, and then runs out of free blocks. -/
def CoherentFs.Drains (fs : CoherentFs) : Image → List Nat → Prop
  | image, [] => ∀ now, ∃ after, fs.allocBlock now image = .error .outOfFreeBlocks after
  | image, b :: rest =>
    ∀ now, ∃ after, fs.allocBlock now image = .ok b after ∧ fs.Drains after rest

/-- The free list of the image is `list`, for the superblock's own bounds. -/
def CoherentFs.FreeList (fs : CoherentFs) (image : Image) (list : List Nat) : Prop :=
  let sb := image.readBlock (fs.partOff + 1)
  ∃ nfree tfree,
    fs.Holds image (sb.get16 sbIsize) (sb.get32 sbFsize) none nfree tfree list

/-- A closed list is handed out from its top. -/
theorem CoherentFs.Holds.drains {fs : CoherentFs} {isize fsize : Nat} (data : 2 ≤ isize)
    {list : List Nat} {image : Image} {nfree tfree : Nat}
    (holds : fs.Holds image isize fsize none nfree tfree list) :
    fs.Drains image list := by
  induction list generalizing image nfree tfree with
  | nil =>
    intro now
    obtain ⟨after, _, call, _⟩ := holds.allocBlock_nil now
    exact ⟨after, call⟩
  | cons b rest inductionHypothesis =>
    intro now
    obtain ⟨after, _, call, _, holds'⟩ := holds.allocBlock data nofun now
    exact ⟨after, call, inductionHypothesis holds'⟩

/-- An image, the blocks in use, and the free blocks. -/
structure PoolState where
  image : Image
  held : Set Nat
  free : Finset Nat

/-- One step of a run. `allowed image b` restricts when `b` may be freed. -/
inductive PoolStep (fs : CoherentFs) (allowed : Image → Nat → Prop) :
    PoolState → PoolState → Prop where
  | alloc {image held free now b after} (call : fs.allocBlock now image = .ok b after) :
      PoolStep fs allowed ⟨image, held, free⟩ ⟨after, insert b held, free.erase b⟩
  | allocFails {image held free now e after} (call : fs.allocBlock now image = .error e after) :
      PoolStep fs allowed ⟨image, held, free⟩ ⟨after, held, free⟩
  | free {image held free now b after} (inUse : b ∈ held) (may : allowed image b)
      (call : fs.freeBlock now b image = .ok () after) :
      PoolStep fs allowed ⟨image, held, free⟩ ⟨after, held \ {b}, insert b free⟩
  | freeFails {image held free now b e after} (inUse : b ∈ held) (may : allowed image b)
      (call : fs.freeBlock now b image = .error e after) :
      PoolStep fs allowed ⟨image, held, free⟩ ⟨after, held, free⟩
  | write {image held free b data after} (inUse : b ∈ held)
      (call : writeBlock (fs.partOff + b) data image = .ok () after) :
      PoolStep fs allowed ⟨image, held, free⟩ ⟨after, held, free⟩

/-- A run. -/
def PoolRun (fs : CoherentFs) (allowed : Image → Nat → Prop) : PoolState → PoolState → Prop :=
  Relation.ReflTransGen (PoolStep fs allowed)

/-- A well-formed partition: the free list is a list of distinct data blocks,
the free blocks, and the blocks in use are other data blocks. -/
structure PoolState.WellFormed (fs : CoherentFs) (s : PoolState) : Prop where
  data : 2 ≤ (s.image.readBlock (fs.partOff + 1)).get16 sbIsize
  list : ∃ list, fs.FreeList s.image list ∧ list.Nodup ∧ ∀ b, b ∈ list ↔ b ∈ s.free
  heldInArea : ∀ b ∈ s.held, (s.image.readBlock (fs.partOff + 1)).get16 sbIsize ≤ b ∧
    b < (s.image.readBlock (fs.partOff + 1)).get32 sbFsize
  apart : ∀ b ∈ s.free, b ∉ s.held

/-- A block freed into an empty cache reads as an exhausted link. -/
def CoherentFs.EndsChain (fs : CoherentFs) (image : Image) (b : Nat) : Prop :=
  (image.readBlock (fs.partOff + 1)).get16 sbNfree = 0 →
    EmptyLink (image.readBlock (fs.partOff + b))

section Steps

variable {fs : CoherentFs} {isize fsize : Nat}

/-- `WellFormed` with the bounds named. -/
structure PoolState.Sound (fs : CoherentFs) (isize fsize : Nat) (s : PoolState) : Prop where
  list : ∃ nfree tfree list, fs.Holds s.image isize fsize none nfree tfree list ∧
    list.Nodup ∧ ∀ b, b ∈ list ↔ b ∈ s.free
  heldInArea : ∀ b ∈ s.held, isize ≤ b ∧ b < fsize
  apart : ∀ b ∈ s.free, b ∉ s.held

/-- After a successful allocation. -/
theorem PoolState.Sound.alloc (data : 2 ≤ isize) {s : PoolState} (sound : s.Sound fs isize fsize)
    {now b : Nat} {after : Image} (call : fs.allocBlock now s.image = .ok b after) :
    b ∈ s.free ∧ b ∉ s.held ∧
      PoolState.Sound fs isize fsize ⟨after, insert b s.held, s.free.erase b⟩ := by
  obtain ⟨⟨nfree, tfree, list, holds, distinct, same⟩, heldInArea, apart⟩ := sound
  cases list with
  | nil =>
    obtain ⟨_, _, fails, _⟩ := holds.allocBlock_nil now
    rw [call] at fails
    cases fails
  | cons c rest =>
    obtain ⟨_, n, ok, only, holds'⟩ := holds.allocBlock data nofun now
    rw [call] at ok
    cases ok
    obtain ⟨fresh, distinct'⟩ := List.nodup_cons.mp distinct
    obtain ⟨_, _, _, chain⟩ := holds
    have onList : b ∈ s.free := (same b).mp List.mem_cons_self
    refine ⟨onList, apart b onList, ⟨⟨n, _, rest, holds', distinct', fun d => ?_⟩, ?_, ?_⟩⟩
    · rw [Finset.mem_erase, ← same d, List.mem_cons]
      constructor
      · exact fun mem => ⟨fun eq => fresh (eq ▸ mem), Or.inr mem⟩
      · rintro ⟨ne, eq | mem⟩
        · exact absurd eq ne
        · exact mem
    · intro d mem
      rcases Set.mem_insert_iff.mp mem with rfl | held
      · exact chain.inArea d List.mem_cons_self
      · exact heldInArea d held
    · intro d mem held
      obtain ⟨ne, free⟩ := Finset.mem_erase.mp mem
      rcases Set.mem_insert_iff.mp held with rfl | old
      · exact ne rfl
      · exact apart d free old

/-- A failed allocation ran out of blocks: none is free. -/
theorem PoolState.Sound.allocFails (data : 2 ≤ isize) {s : PoolState}
    (sound : s.Sound fs isize fsize) {now : Nat} {e : FsError} {after : Image}
    (call : fs.allocBlock now s.image = .error e after) :
    e = .outOfFreeBlocks ∧ s.free = ∅ ∧
      PoolState.Sound fs isize fsize ⟨after, s.held, s.free⟩ := by
  obtain ⟨⟨nfree, tfree, list, holds, distinct, same⟩, heldInArea, apart⟩ := sound
  cases list with
  | nil =>
    obtain ⟨_, n, fails, only, holds'⟩ := holds.allocBlock_nil now
    rw [call] at fails
    cases fails
    refine ⟨rfl, ?_, ⟨n, tfree, [], holds', distinct, same⟩, heldInArea, apart⟩
    exact Finset.eq_empty_of_forall_notMem fun b mem => List.not_mem_nil ((same b).mpr mem)
  | cons c rest =>
    obtain ⟨_, _, ok, _⟩ := holds.allocBlock data nofun now
    rw [call] at ok
    cases ok

/-- Freeing a block in use that ends the chain when it has to: the block goes
onto the list, or, when it lies outside the image and the cache is full, the call
changes nothing. -/
theorem PoolState.Sound.freeBlock (data : 2 ≤ isize) {s : PoolState}
    (sound : s.Sound fs isize fsize) {b : Nat} (inUse : b ∈ s.held)
    (ends : fs.EndsChain s.image b) (now : Nat) :
    (∃ after, fs.freeBlock now b s.image = .ok () after ∧
      PoolState.Sound fs isize fsize ⟨after, s.held \ {b}, insert b s.free⟩) ∨
    ∃ e, fs.freeBlock now b s.image = .error e s.image := by
  obtain ⟨⟨nfree, tfree, list, holds, distinct, same⟩, heldInArea, apart⟩ := sound
  have inArea := heldInArea b inUse
  have fresh : b ∉ list := fun mem => apart b ((same b).mp mem) inUse
  obtain ⟨_, _, sees, _⟩ := id holds
  by_cases room : nfree = nicFree → s.image.hasBlock (fs.partOff + b) = true
  · left
    have ends' : nfree = 0 → EmptyLink (s.image.readBlock (fs.partOff + b)) :=
      fun zero => ends (sees.view.nfree.trans zero)
    obtain ⟨after, call, only, holds'⟩ := holds.freeBlock data inArea fresh room ends' now
    refine ⟨after, call, ⟨_, _, b :: list, holds', distinct.cons fresh, fun d => ?_⟩, ?_, ?_⟩
    · rw [List.mem_cons, Finset.mem_insert, same d]
    · exact fun d mem => heldInArea d mem.1
    · rintro d mem ⟨held, ne⟩
      rcases Finset.mem_insert.mp mem with eq | free
      · exact ne eq
      · exact apart d free held
  · right
    obtain ⟨full, outside⟩ := Classical.not_imp.mp room
    subst full
    exact ⟨_, CoherentFs.freeBlock_spillOutside sees (by omega) inArea (by simpa using outside) now⟩

/-- Writing to a block in use leaves the list alone. -/
theorem PoolState.Sound.write (data : 2 ≤ isize) {s : PoolState} (sound : s.Sound fs isize fsize)
    {b : Nat} (inUse : b ∈ s.held) {content : Buffer} {after : Image}
    (call : writeBlock (fs.partOff + b) content s.image = .ok () after) :
    PoolState.Sound fs isize fsize ⟨after, s.held, s.free⟩ := by
  obtain ⟨⟨nfree, tfree, list, holds, distinct, same⟩, heldInArea, apart⟩ := sound
  have inArea := heldInArea b inUse
  cases inside : s.image.hasBlock (fs.partOff + b) with
  | false =>
    rw [writeBlock_outside inside] at call
    cases call
  | true =>
    rw [writeBlock_inside inside] at call
    cases call
    have only := s.image.setBlock_agreeExcept (fs.partOff + b) content
    refine ⟨⟨nfree, tfree, list, holds.congr only.len ?_ ?_, distinct, same⟩, heldInArea, apart⟩
    · exact only.block _ (by omega)
    · intro c mem
      have ne : c ≠ b := fun eq => apart c ((same c).mp mem) (eq ▸ inUse)
      exact only.block _ (by omega)

/-- One step keeps the list sound. -/
theorem PoolState.Sound.step (data : 2 ≤ isize) {s t : PoolState} (sound : s.Sound fs isize fsize)
    (step : PoolStep fs fs.EndsChain s t) : t.Sound fs isize fsize := by
  cases step with
  | alloc call => exact (sound.alloc data call).2.2
  | allocFails call => exact (sound.allocFails data call).2.2
  | free inUse may call =>
    rcases sound.freeBlock data inUse may _ with ⟨_, ok, sound'⟩ | ⟨_, fails⟩
    · rw [call] at ok
      cases ok
      exact sound'
    · rw [call] at fails
      cases fails
  | freeFails inUse may call =>
    rcases sound.freeBlock data inUse may _ with ⟨_, ok, _⟩ | ⟨_, fails⟩
    · rw [call] at ok
      cases ok
    · rw [call] at fails
      cases fails
      exact sound
  | write inUse call => exact sound.write data inUse call

/-- A run keeps the list sound. -/
theorem PoolState.Sound.run (data : 2 ≤ isize) {s t : PoolState} (sound : s.Sound fs isize fsize)
    (run : PoolRun fs fs.EndsChain s t) : t.Sound fs isize fsize := by
  induction run with
  | refl => exact sound
  | tail _ last inductionHypothesis => exact inductionHypothesis.step data last

end Steps

/-- In every run of allocations, frees and writes from a well-formed partition
in which each block freed into an empty cache reads as an exhausted link: an
allocation returns a free block that is not in use; the list has no block twice
and consists of the free blocks; and exactly as many allocations succeed as
there are free blocks before `alloc_block` runs out. -/
theorem poolRun_sound (fs : CoherentFs) (s t : PoolState) (wellFormed : s.WellFormed fs)
    (run : PoolRun fs fs.EndsChain s t) :
    (∀ now b after, fs.allocBlock now t.image = .ok b after → b ∈ t.free ∧ b ∉ t.held) ∧
    ∃ list, fs.FreeList t.image list ∧ list.Nodup ∧ (∀ b, b ∈ list ↔ b ∈ t.free) ∧
      list.length = t.free.card ∧ fs.Drains t.image list := by
  obtain ⟨data, ⟨list, ⟨nfree, tfree, holds⟩, distinct, same⟩, heldInArea, apart⟩ := wellFormed
  have start : s.Sound fs _ _ :=
    ⟨⟨nfree, tfree, list, holds, distinct, same⟩, heldInArea, apart⟩
  have sound := start.run data run
  refine ⟨fun now b after call => ?_, ?_⟩
  · obtain ⟨free, unused, _⟩ := sound.alloc data call
    exact ⟨free, unused⟩
  · obtain ⟨⟨n, total, list', holds', distinct', same'⟩, _, _⟩ := sound
    obtain ⟨_, _, sees, _⟩ := id holds'
    refine ⟨list', ⟨n, total, ?_⟩, distinct', same', ?_, holds'.drains data⟩
    · rw [sees.view.isize, sees.view.fsize]
      exact holds'
    · have whole : list'.toFinset = t.free := by
        ext b
        rw [List.mem_toFinset]
        exact same' b
      rw [← whole, List.toFinset_card_of_nodup distinct']

/-! ## A stale link -/

/-- Five blocks: a superblock with an empty free list, and three data blocks, of
which block 2 holds the bytes of a link with the one entry 3. -/
def staleImage : Image where
  len := 5 * 512
  byte := fun i =>
    if i = 512 then 2
    else if i = 516 then 5
    else if i = 1024 then 1
    else if i = 1028 then 3
    else 0

/-- All three data blocks are in use. -/
def stalePool : PoolState where
  image := staleImage
  held := {2, 3, 4}
  free := ∅

theorem staleImage_sees : CoherentFs.Sees ⟨0⟩ staleImage 2 5 0 (fun _ => 0) 0 where
  inside := by decide
  view := {
    isize := by decide
    fsize := by decide
    nfree := by decide
    free := by decide
    tfree := by decide }

theorem stalePool_wellFormed : stalePool.WellFormed ⟨0⟩ where
  data := by decide
  list := ⟨[], ⟨0, 0, by decide, _, staleImage_sees, .empty rfl⟩, List.nodup_nil, by simp [stalePool]⟩
  heldInArea := by
    rintro b (rfl | rfl | rfl) <;> decide
  apart := by simp [stalePool]

/-- Freeing block 3, whose bytes are zero, is a run that `poolRun_sound` covers. -/
theorem poolRun_sound_stale :
    ∃ t, PoolRun ⟨0⟩ (CoherentFs.EndsChain ⟨0⟩) stalePool t ∧ t.free = {3} ∧
      ∃ list, CoherentFs.FreeList ⟨0⟩ t.image list ∧ list.length = t.free.card ∧
        CoherentFs.Drains ⟨0⟩ t.image list := by
  obtain ⟨after, call, _⟩ := CoherentFs.freeBlock_push staleImage_sees (b := 3) (by decide)
    (by decide) (by decide) 0
  have ends : CoherentFs.EndsChain ⟨0⟩ staleImage 3 := fun _ => Or.inl (by decide)
  have run : PoolRun ⟨0⟩ (CoherentFs.EndsChain ⟨0⟩) stalePool
      ⟨after, ({2, 3, 4} : Set Nat) \ {3}, insert 3 ∅⟩ :=
    Relation.ReflTransGen.single (.free (by simp) ends call)
  obtain ⟨_, list, free, _, _, length, drains⟩ :=
    poolRun_sound ⟨0⟩ stalePool _ stalePool_wellFormed run
  exact ⟨_, run, rfl, list, free, length, drains⟩

/-- With no restriction on frees: free block 2, whose bytes name block 3, and
allocate twice. The second call returns block 3, which is in use. -/
theorem staleLink_allocates_held :
    stalePool.WellFormed ⟨0⟩ ∧ ∃ t, PoolRun ⟨0⟩ (fun _ _ => True) stalePool t ∧
      ∃ after, CoherentFs.allocBlock ⟨0⟩ 0 t.image = .ok 3 after ∧ 3 ∈ t.held := by
  obtain ⟨freed, callFree, onlyFree, seesFree⟩ :=
    CoherentFs.freeBlock_push staleImage_sees (b := 2) (by decide) (by decide) (by decide) 0
  have block : ∀ b, 2 ≤ b → freed.readBlock (0 + b) = staleImage.readBlock (0 + b) :=
    fun b low => onlyFree.block _ (by simp; omega)
  obtain ⟨popped, callPop, onlyPop, seesPop⟩ := CoherentFs.allocBlock_link seesFree (n := 1)
    (by decide) (by decide) (by decide)
    (by rw [Function.update_self, block 2 (by decide)]; decide) 0
  rw [Function.update_self] at callPop seesPop
  have entry : linkEntry (freed.readBlock (0 + 2)) 0 = 3 := by
    rw [block 2 (by decide)]
    decide
  have zeros : linkCount (popped.readBlock (0 + 3)) = (0 : Nat) := by
    rw [onlyPop.block (0 + 3) (by decide), block 3 (by decide)]
    decide
  obtain ⟨last, callLast, _⟩ := CoherentFs.allocBlock_link seesPop (n := 0)
    (by rw [entry]; decide) (by rw [entry]; decide) (by decide) (by rw [entry]; exact zeros) 0
  rw [entry] at callLast
  refine ⟨stalePool_wellFormed, _, .tail (.tail .refl (.free (b := 2) ?_ trivial callFree)) (.alloc callPop), last,
    callLast, ?_⟩
  · simp
  · simp

end C900
