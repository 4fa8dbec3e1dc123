import C900.Fs.CreateEnds

/-!
# Runs of creations

Whatever way a creation ends, the cache holds distinct free slots, and an inode that the log has as
taken and not given back is in use. A number in the cache is that of a slot that is not in use, so no
number is taken twice.
-/

namespace C900

/-- The inodes that the log has as held are in use, and none of them was taken twice. -/
structure CoherentFs.Tracked (fs : CoherentFs) (isize : Nat) (s : Session) : Prop where
  once : TakenOnce s.calls
  held : ∀ ino ∈ heldInodes s.calls, 1 ≤ ino ∧ ino ≤ (isize - 2) * inodesPerBlock ∧
    fs.stat s.image ino ≠ none

/-- A creation has ended: at most one inode was taken, and it is in use or given back. -/
structure CoherentFs.Settled (fs : CoherentFs) (isize fsize : Nat) (s t : Session) : Prop where
  sound : ∃ last list, fs.Sound isize fsize last t.image list
  used : ∀ {ino}, 1 ≤ ino → ino ≤ (isize - 2) * inodesPerBlock → fs.stat s.image ino ≠ none →
    fs.stat t.image ino ≠ none
  calls : t.calls = s.calls ∨ ∃ ino middle, fs.FreeSlot isize s.image ino ∧
    BlockCalls { s with calls := .tookInode ino :: s.calls } middle ∧
    ((t.calls = middle.calls ∧ fs.stat t.image ino ≠ none) ∨
      t.calls = .gaveInode ino :: middle.calls)

/-- A creation is underway from `s`: the new inode of `t` is in use. -/
structure CoherentFs.Underway (fs : CoherentFs) (isize fsize : Nat) (last : Option Nat)
    (s t : Session) (list : List Nat) : Prop where
  slot : fs.FreeSlot isize s.image t.inode.ino
  child : fs.Child isize fsize last t list
  used : ∀ {ino}, 1 ≤ ino → ino ≤ (isize - 2) * inodesPerBlock → fs.stat s.image ino ≠ none →
    fs.stat t.image ino ≠ none
  calls : BlockCalls { s with calls := .tookInode t.inode.ino :: s.calls } t

section Settled

variable {fs : CoherentFs} {isize fsize ino : Nat} {last : Option Nat} {s t u v : Session}
  {list list' rest : List Nat} {data : List (BitVec 8)} {e : FsError}

/-! ## One creation -/

theorem CoherentFs.Child.sound (child : fs.Child isize fsize last t list) :
    fs.Sound isize fsize last t.image list :=
  ⟨child.consistent, child.hand.cache⟩

theorem CoherentFs.Begun.underway (begun : fs.Begun isize fsize last s list t list') :
    fs.Underway isize fsize last s t list' :=
  ⟨begun.slot, begun.child, fun real table used =>
    begun.rewrites.used begun.child.owner real table used, begun.calls⟩

theorem CoherentFs.Underway.filled (underway : fs.Underway isize fsize last s t list)
    (filled : fs.Filled isize fsize last data t list u list') :
    fs.Underway isize fsize last s u list' := by
  have owner := filled.child.owner
  have ino := filled.ino
  refine ⟨ino ▸ underway.slot, filled.child, fun real table used => ?_, ?_⟩
  · rw [ino] at owner
    exact filled.rewrites.used owner real table (underway.used real table used)
  · rw [ino]
    exact underway.calls.trans filled.over'.revised.blockCalls

/-- The parent is rewritten while a creation is underway. -/
theorem CoherentFs.Underway.parent {inode : Inode}
    (underway : fs.Underway isize fsize last s t list) (child : fs.Child isize fsize last u list')
    (same : u.inode = t.inode) (owner : fs.Owner isize u.image ino inode)
    (rewrites : fs.Rewrites isize ino list t.image u.image) (calls : BlockCalls t u) :
    fs.Underway isize fsize last s u list' :=
  ⟨same ▸ underway.slot, child, fun real table used =>
    rewrites.used owner real table (underway.used real table used),
    same ▸ underway.calls.trans calls⟩

theorem CoherentFs.Underway.settled (underway : fs.Underway isize fsize last s t list) :
    fs.Settled isize fsize s t := by
  refine ⟨⟨last, list, underway.child.sound⟩, underway.used, Or.inr ⟨t.inode.ino, t, underway.slot,
    underway.calls, Or.inl ⟨rfl, ?_⟩⟩⟩
  rw [underway.child.owner.stat]
  exact Option.some_ne_none _

/-- The new inode is given back. -/
theorem CoherentFs.Underway.dismissed (underway : fs.Underway isize fsize last s t list)
    (same : u.inode.ino = t.inode.ino) (calls : BlockCalls t u)
    (dismissed : fs.Dismissed isize fsize t.image list u rest v) :
    fs.Settled isize fsize s v := by
  obtain ⟨last', dropped, sound, -, log⟩ := dismissed.given
  have gave : BlockCalls u { u with calls := dropped.map AllocCall.gaveBlock ++ u.calls } :=
    ⟨_, rfl, ofBlock_gaveBlocks dropped⟩
  refine ⟨⟨last', _, sound⟩, fun {ino} real table used => ?_, Or.inr ⟨t.inode.ino, _,
    underway.slot, (underway.calls.trans calls).trans gave, Or.inr (same ▸ log)⟩⟩
  have ne : ino ≠ u.inode.ino := by
    rw [same]
    rintro rfl
    exact used underway.slot.unused
  rw [dismissed.rewrites.stat real table ne]
  exact underway.used real table used

theorem CoherentFs.Underway.handled (underway : fs.Underway isize fsize last s t list)
    (handled : fs.Handled isize fsize e t.image list t list v) : fs.Settled isize fsize s v := by
  unfold CoherentFs.Handled at handled
  split at handled
  · exact underway.dismissed rfl (.refl t) handled
  · exact handled ▸ underway.settled

/-- Nothing but the superblock was written. -/
theorem CoherentFs.Sound.settled (sound : fs.Sound isize fsize last s.image list)
    (only : fs.SbOnly s.image t.image) (stock : fs.Stock isize fsize last t.image list)
    (cache : fs.InodeCache isize t.image) (calls : t.calls = s.calls) :
    fs.Settled isize fsize s t := by
  refine ⟨⟨last, list, sound.consistent.sbOnly only stock, cache⟩, fun _ _ used => ?_, Or.inl calls⟩
  rw [only.stat]
  exact used

/-- The parent of a creation that is underway has its entry. -/
theorem CoherentFs.Underway.linked {parent inode : OpenInode}
    (underway : fs.Underway isize fsize last s t list)
    (linked : fs.Linked isize fsize last parent t list inode u list') :
    fs.Underway isize fsize last s u list' :=
  underway.parent linked.child linked.same linked.owner linked.rewrites linked.revised.blockCalls

theorem CoherentFs.Underway.halfGrown {name : PosixPath} {parent : OpenInode} {taken : List Nat}
    (underway : fs.Underway isize fsize last s t list)
    (half : fs.HalfGrown isize fsize last name parent e t list taken u rest) :
    fs.Underway isize fsize last s u rest := by
  obtain ⟨inode, grown, -⟩ := half.grown
  exact underway.parent half.child half.same half.owner half.rewrites grown.blockCalls

theorem CoherentFs.FileMade.settled {name : PosixPath}
    (made : fs.FileMade isize fsize last name data s list t list') :
    fs.Settled isize fsize s t := by
  obtain ⟨s₁, s₂, list₂, parent, begun, filled, linked, -⟩ := made.steps
  exact ((begun.underway.filled filled).linked linked).settled

theorem CoherentFs.DirMade.settled {name : PosixPath}
    (made : fs.DirMade isize fsize last name s list t list') : fs.Settled isize fsize s t := by
  obtain ⟨s₁, s₂, b, rest, entered, parent, -, begun, linked, -, again, -⟩ := made.steps
  exact ((begun.underway.linked linked).linked again).settled

theorem CoherentFs.FileRaises.settled {name : PosixPath}
    (sound : fs.Sound isize fsize last s.image list)
    (raises : fs.FileRaises isize fsize last name data s list e t) :
    fs.Settled isize fsize s t := by
  cases raises with
  | refused => exact ⟨⟨last, list, sound⟩, fun _ _ => id, Or.inl rfl⟩
  | missed calls missed => exact sound.settled missed.only missed.stock missed.cache calls
  | full begun grown stops dismissed =>
    refine begun.underway.dismissed ?_ grown.blockCalls dismissed
    rw [grown.inode]
  | entry begun filled refused handled =>
    exact (begun.underway.filled filled).handled handled
  | parent begun filled half handled =>
    exact ((begun.underway.filled filled).halfGrown half).handled handled

/-- The number of the parent is written into the new directory, so it has to fit. -/
theorem CoherentFs.DirRaises.settled {name : PosixPath}
    (sound : fs.Sound isize fsize last s.image list) (narrow : s.inode.ino ≤ 65535)
    (raises : fs.DirRaises isize fsize last name s list e t) : fs.Settled isize fsize s t := by
  cases raises with
  | refused => exact ⟨⟨last, list, sound⟩, fun _ _ => id, Or.inl rfl⟩
  | missed calls missed => exact sound.settled missed.only missed.stock missed.cache calls
  | @full _ ino slot left alone sound' rewrites unused calls =>
    refine ⟨⟨last, list, sound'⟩, fun real table used => ?_, Or.inr ⟨ino, _, slot, .refl _,
      Or.inr calls⟩⟩
    rw [rewrites.stat real table fun same => used (same ▸ slot.unused)]
    exact used
  | wide slot left split large => exact absurd large (Nat.not_lt.mpr narrow)
  | entry split begun _ refused handled => exact begun.underway.handled handled
  | parent split begun _ half handled => exact (begun.underway.halfGrown half).handled handled

/-! ## Running out of inodes -/

theorem CoherentFs.EntryRefused.ne_outOfFreeInodes {name : PosixPath} {childIno : Nat}
    (refused : fs.EntryRefused s name childIno e) : e ≠ .outOfFreeInodes := by
  rintro rfl
  rcases refused with invalid | ⟨-, other⟩ | clash | ⟨-, foreign⟩
  · rcases validateName_error invalid with same | same
    · cases same
    · cases same
  · cases other
  · cases scanDir_error clash
  · rcases encodeDirent_error foreign with ⟨-, same⟩ | ⟨-, same⟩
    · cases same
    · cases same

theorem CoherentFs.GrowthStops.ne_outOfFreeInodes {n : Nat}
    (stops : fs.GrowthStops last n rest t e) : e ≠ .outOfFreeInodes := by
  rintro rfl
  cases stops

theorem CoherentFs.HalfGrown.ne_outOfFreeInodes {name : PosixPath} {parent : OpenInode}
    {taken : List Nat} (half : fs.HalfGrown isize fsize last name parent e s list taken t rest) :
    e ≠ .outOfFreeInodes := by
  obtain ⟨inode, -, stops | ⟨-, -, bno, len, rfl⟩⟩ := half.grown
  · exact stops.ne_outOfFreeInodes
  · exact fun same => by cases same

/-- Only `alloc_inode` runs out of inodes. -/
theorem CoherentFs.FileRaises.noInode {name : PosixPath}
    (raises : fs.FileRaises isize fsize last name data s list .outOfFreeInodes t) :
    ∀ ino, ¬ fs.FreeSlot isize s.image ino := by
  cases raises with
  | refused invalid => rcases validateName_error invalid with same | same <;> cases same
  | missed calls missed => exact missed.exhausted rfl
  | full begun grown stops => exact absurd rfl stops.ne_outOfFreeInodes
  | entry begun filled refused => exact absurd rfl refused.ne_outOfFreeInodes
  | parent begun filled half => exact absurd rfl half.ne_outOfFreeInodes

theorem CoherentFs.DirRaises.noInode {name : PosixPath}
    (raises : fs.DirRaises isize fsize last name s list .outOfFreeInodes t) :
    ∀ ino, ¬ fs.FreeSlot isize s.image ino := by
  cases raises with
  | refused invalid => rcases validateName_error invalid with same | same <;> cases same
  | missed calls missed => exact missed.exhausted rfl
  | full slot left alone =>
    rcases alone with ⟨-, -, same⟩ | ⟨b, count, -, -, same⟩
    · cases same
    · cases same
  | wide slot left split large raised => cases raised
  | entry split begun _ refused => exact absurd rfl refused.ne_outOfFreeInodes
  | parent split begun _ half => exact absurd rfl half.ne_outOfFreeInodes

/-! ## The numbers that are held -/

/-- A free slot is not held. -/
theorem CoherentFs.Tracked.fresh (tracked : fs.Tracked isize s)
    (slot : fs.FreeSlot isize s.image ino) : ino ∉ heldInodes s.calls :=
  fun member => (tracked.held ino member).2.2 slot.unused

theorem CoherentFs.Settled.tracked (settled : fs.Settled isize fsize s t)
    (tracked : fs.Tracked isize s) : fs.Tracked isize t := by
  have old : ∀ other ∈ heldInodes s.calls, 1 ≤ other ∧ other ≤ (isize - 2) * inodesPerBlock ∧
      fs.stat t.image other ≠ none := by
    intro other member
    obtain ⟨real, table, used⟩ := tracked.held other member
    exact ⟨real, table, settled.used real table used⟩
  rcases settled.calls with same | ⟨ino, middle, slot, blocks, here⟩
  · exact ⟨same ▸ tracked.once, same ▸ old⟩
  have once : TakenOnce middle.calls := blocks.takenOnce.mpr ⟨tracked.fresh slot, tracked.once⟩
  have held : heldInodes middle.calls = ino :: heldInodes s.calls := blocks.heldInodes
  rcases here with ⟨same, used⟩ | same
  · refine ⟨same ▸ once, fun other member => ?_⟩
    rw [same, held] at member
    rcases List.mem_cons.mp member with rfl | member
    · exact ⟨slot.real, slot.last, used⟩
    · exact old other member
  · refine ⟨same ▸ once, fun other member => ?_⟩
    rw [same] at member
    obtain ⟨member, ne⟩ := List.mem_filter.mp member
    rw [held] at member
    exact old other ((List.mem_cons.mp member).resolve_left (of_decide_eq_true ne))

/-- The inode that was taken had a free slot. -/
theorem CoherentFs.Settled.took (settled : fs.Settled isize fsize s t) {log : List AllocCall}
    (calls : t.calls = log ++ s.calls) (member : .tookInode ino ∈ log) :
    fs.FreeSlot isize s.image ino := by
  rcases settled.calls with same | ⟨other, middle, slot, ⟨blocks, log', only⟩, here⟩
  · rw [List.append_left_eq_self.mp (calls.symm.trans same)] at member
    cases member
  have here' : .tookInode ino ∈ .gaveInode other :: (blocks ++ [.tookInode other]) := by
    dsimp only at log'
    rw [List.append_cons] at log'
    rcases here with ⟨same, -⟩ | same
    · rw [same, log'] at calls
      rw [← List.append_cancel_right calls] at member
      exact List.mem_cons_of_mem _ member
    · rw [same, log', ← List.cons_append] at calls
      rwa [← List.append_cancel_right calls] at member
  rcases List.mem_cons.mp here' with given | member
  · cases given
  rcases List.mem_append.mp member with block | last
  · cases only _ block
  · cases List.mem_singleton.mp last
    exact slot

end Settled

/-! ## Runs -/

/-- A call that makes a file or a directory. -/
inductive Creation
  | file (name : PosixPath) (data : List (BitVec 8)) (mode : Nat)
  | dir (name : PosixPath) (mode : Nat)

/-- `create_file` or `create_dir`, on the inode of the parent. -/
def CoherentFs.create (fs : CoherentFs) : Creation → WriteM Unit
  | .file name data mode => fs.createFile name data mode
  | .dir name mode => fs.createDir name mode

/-- A call on a directory that was opened takes the session from `s` to `t`, returned or raised. -/
structure CoherentFs.CreateStep (fs : CoherentFs) (isize : Nat) (creation : Creation)
    (parent : OpenInode) (s t : Session) : Prop where
  real : 1 ≤ parent.ino
  table : parent.ino ≤ (isize - 2) * inodesPerBlock
  opened : fs.openStat s.image parent.ino = some parent
  dir : parent.isDir = true
  ends : fs.create creation { s with inode := parent } = .ok () t ∨
    ∃ e, fs.create creation { s with inode := parent } = .error e t

/-- The number of the parent of a new directory fits into its entry, and an open free list keeps a
block. -/
structure CoherentFs.Sparing (fs : CoherentFs) (isize fsize : Nat) (creation : Creation)
    (parent : OpenInode) (s t : Session) : Prop where
  number : ∀ name mode, creation = .dir name mode → parent.ino ≤ 65535
  left : ∀ last list, fs.Consistent isize fsize last s.image list →
    ∃ last' list', fs.Consistent isize fsize last' s.image list' ∧
      (last' = none ∨ TakesFewer list' s t)

/-- The sessions that calls lead to. -/
inductive CoherentFs.Creates (fs : CoherentFs) (isize fsize : Nat) (s : Session) : Session → Prop
  | start : fs.Creates isize fsize s s
  | call {t u : Session} {creation : Creation} {parent : OpenInode}
    (before : fs.Creates isize fsize s t) (step : fs.CreateStep isize creation parent t u)
    (sparing : fs.Sparing isize fsize creation parent t u) : fs.Creates isize fsize s u

section Runs

variable {fs : CoherentFs} {isize fsize ino : Nat} {last : Option Nat} {s t u : Session}
  {list : List Nat} {creation : Creation} {parent : OpenInode}

theorem CoherentFs.CreateStep.owner (step : fs.CreateStep isize creation parent s t) :
    fs.Owner isize s.image parent.ino parent.toInode := by
  refine ⟨step.real, step.table, ?_, Or.inr step.dir⟩
  rw [← fs.openStat_toInode, step.opened]
  rfl

/-- A call ends with its inode in use or given back, and it runs out of inodes where none is free. -/
theorem CoherentFs.Sound.create (sound : fs.Sound isize fsize last s.image list)
    (owner : fs.Owner isize s.image s.inode.ino s.inode.toInode)
    (number : ∀ name mode, creation = .dir name mode → s.inode.ino ≤ 65535) :
    Ends (fs.create creation) s
      (fun _ t => fs.Settled isize fsize s t ∨ Spent last list s t)
      fun e t => (fs.Settled isize fsize s t ∧ (e = .outOfFreeInodes →
        ∀ ino, ¬ fs.FreeSlot isize s.image ino)) ∨ Spent last list s t := by
  cases creation with
  | file name data mode =>
    refine (sound.createFile owner).mono (fun _ t => Or.imp ?_ Overdrawn.spent) fun e t =>
      Or.imp ?_ Overdrawn.spent
    · exact fun ⟨list', made⟩ => made.settled
    · exact fun raises => ⟨raises.settled sound, fun same => (same ▸ raises).noInode⟩
  | dir name mode =>
    refine (sound.createDir owner).mono (fun _ t => Or.imp ?_ Overdrawn.spent) fun e t =>
      Or.imp ?_ Overdrawn.spent
    · exact fun ⟨list', made⟩ => made.settled
    · exact fun raises => ⟨raises.settled sound (number name mode rfl), fun same =>
        (same ▸ raises).noInode⟩

/-- A step of a run that leaves a block on an open list. -/
theorem CoherentFs.CreateStep.settled (step : fs.CreateStep isize creation parent s t)
    (sparing : fs.Sparing isize fsize creation parent s t)
    (sound : fs.Sound isize fsize last s.image list) :
    fs.Settled isize fsize s t ∧
      (fs.create creation { s with inode := parent } = .error .outOfFreeInodes t →
        ∀ ino, ¬ fs.FreeSlot isize s.image ino) := by
  obtain ⟨last', list', consistent, left⟩ := sparing.left last list sound.consistent
  have keeps : ¬ Spent last' list' s t := fun spent =>
    left.elim spent.1 spent.not_takesFewer
  have ends := CoherentFs.Sound.create (s := { s with inode := parent }) ⟨consistent, sound.cache⟩
    step.owner sparing.number
  unfold Ends at ends
  rcases step.ends with ran | ⟨e, ran⟩
  · rw [ran] at ends ⊢
    obtain ⟨sound', used, calls⟩ := ends.resolve_right keeps
    exact ⟨⟨sound', used, calls⟩, fun same => by cases same⟩
  · rw [ran] at ends ⊢
    obtain ⟨⟨sound', used, calls⟩, none⟩ := ends.resolve_right keeps
    refine ⟨⟨sound', used, calls⟩, fun same => none ?_⟩
    cases same
    rfl

/-- The cache and the log agree after every run of calls. -/
theorem CoherentFs.Creates.sound (run : fs.Creates isize fsize s t)
    (sound : fs.Sound isize fsize last s.image list) (start : s.calls = []) :
    (∃ last list, fs.Sound isize fsize last t.image list) ∧ fs.Tracked isize t := by
  induction run with
  | start =>
    refine ⟨⟨last, list, sound⟩, start ▸ trivial, fun ino held => ?_⟩
    rw [start] at held
    cases held
  | call before step sparing inductionHypothesis =>
    obtain ⟨⟨last', list', sound'⟩, tracked⟩ := inductionHypothesis
    have settled := (step.settled sparing sound').1
    exact ⟨settled.sound, settled.tracked tracked⟩

end Runs

end C900
