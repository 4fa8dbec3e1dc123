import C900.Fs.Create
import C900.Fs.Overwrite

/-!
# The log of the allocator calls

Every program of the write side adds its calls to the log and takes none away. The log tells which
inodes are held, and whether the free blocks at its start have all been taken.
-/

namespace C900

/-! ## The log grows -/

/-- The program adds to the log. -/
def Logs {α : Type} (x : WriteM α) : Prop :=
  ∀ s, Ends x s (fun _ t => s.calls <:+ t.calls) fun _ t => s.calls <:+ t.calls

namespace Logs

variable {α β : Type}

theorem of_onlyTakes {x : WriteM α} (only : OnlyTakes x) : Logs x := fun s =>
  (only s).mono (fun _ _ ⟨_, calls⟩ => ⟨_, calls.symm⟩) fun _ _ ⟨_, calls⟩ => ⟨_, calls.symm⟩

theorem value (a : α) : Logs (pure a) := of_onlyTakes (.value a)

theorem raise (e : FsError) : Logs (throw e : WriteM α) := fun _ => Ends.raise List.suffix_rfl

theorem state : Logs (get : WriteM Session) := fun _ => Ends.state List.suffix_rfl

theorem bind {x : WriteM α} {f : α → WriteM β} (first : Logs x) (next : ∀ a, Logs (f a)) :
    Logs (x >>= f) := fun s =>
  .bind ((first s).mono (fun a t more => (next a t).mono (fun _ _ => more.trans)
    fun _ _ => more.trans) fun _ _ => id)

theorem ite {p : Prop} [Decidable p] {x y : WriteM α} (yes : Logs x) (no : Logs y) :
    Logs (if p then x else y) := fun s => Ends.ite (fun _ => yes s) fun _ => no s

theorem onImage (x : FsM α) : Logs (C900.onImage x) := of_onlyTakes (.onImage x)

theorem lifted (result : Except FsError α) : Logs (ofExcept result) := of_onlyTakes (.lifted result)

theorem timeNow : Logs C900.timeNow := of_onlyTakes .timeNow

theorem update {f : Session → Session} (same : ∀ s, (f s).calls = s.calls) : Logs (modify f) :=
  fun s => .update ((same s).symm ▸ List.suffix_rfl)

theorem record (call : AllocCall) : Logs (C900.record call) := fun _ =>
  .update (List.suffix_cons _ _)

theorem foldlM {ι : Type} {body : β → ι → WriteM β} (each : ∀ b i, Logs (body b i))
    (items : List ι) (start : β) : Logs (items.foldlM body start) := by
  induction items generalizing start with
  | nil => exact value start
  | cons i rest inductionHypothesis =>
    rw [List.foldlM_cons]
    exact bind (each start i) inductionHypothesis

theorem caught {body : WriteM α} {handler : FsError → WriteM α} (first : Logs body)
    (next : ∀ e, Logs (handler e)) : Logs (tryCatch body handler) := fun s =>
  .caught ((first s).mono (fun _ _ => id) fun e t more =>
    (next e t).mono (fun _ _ => more.trans) fun _ _ => more.trans)

theorem onFsError {body : WriteM α} {handler : WriteM Unit} (first : Logs body)
    (next : Logs handler) : Logs (C900.onFsError body handler) :=
  caught first fun e => ite (bind next fun _ => raise e) (raise e)

theorem onParent (parent : OpenInode) {x : WriteM Unit} (logs : Logs x) :
    Logs (C900.onParent parent x) := by
  intro s
  have run := logs { s with inode := parent }
  unfold Ends at run ⊢
  unfold C900.onParent
  cases ran : x { s with inode := parent } with
  | ok a t =>
    rw [ran] at run
    exact run
  | error e t =>
    rw [ran] at run
    exact run

variable (fs : CoherentFs)

theorem giveBlock (b : Nat) : Logs (fs.giveBlock b) :=
  bind timeNow fun _ => bind (onImage _) fun _ => record _

theorem giveInode (ino : Nat) : Logs (fs.giveInode ino) :=
  bind timeNow fun _ => bind (onImage _) fun _ => record _

theorem writeInode : Logs fs.writeInode :=
  bind state fun _ => bind (onImage _) fun _ => onImage _

theorem dropEntry (p : Pruning) (slot entry : Nat) : Logs (fs.dropEntry p slot entry) :=
  bind (giveBlock fs entry) fun _ => bind (lifted _) fun _ => value _

theorem shrinkIndirect (depth b keep : Nat) : Logs (fs.shrinkIndirect depth b keep) := by
  induction depth generalizing b keep with
  | zero => exact value true
  | succ depth inductionHypothesis =>
    refine bind (onImage _) fun work => bind (foldlM (fun p slot => ?_) _ _) fun p => ?_
    · refine ite (value p) (ite (ite (value _) (dropEntry fs p slot _)) (ite (value _) ?_))
      exact bind (inductionHypothesis _ _) fun _ => ite (dropEntry fs p slot _) (value _)
    · exact ite (bind (onImage _) fun _ => value _) (bind (value _) fun _ => value _)

theorem shrinkTree (d cut : Nat) : Logs (fs.shrinkTree d cut) := by
  refine bind (of_onlyTakes (.addrAt _)) fun root => ite (value _) ?_
  refine bind (shrinkIndirect fs _ _ _) fun empty => ite (bind (giveBlock fs root) fun _ => ?_)
    (value _)
  exact of_onlyTakes (.setAddr _ _)

theorem shrinkToNBlocks (n : Nat) : Logs (fs.shrinkToNBlocks n) := by
  refine bind (foldlM (fun _ i => ?_) _ _) fun _ => bind (shrinkTree fs _ _) fun _ =>
    bind (shrinkTree fs _ _) fun _ => shrinkTree fs _ _
  refine bind (of_onlyTakes (.addrAt _)) fun b => ite (bind (giveBlock fs b) fun _ => ?_) (value _)
  exact of_onlyTakes (.setAddr _ _)

theorem growToNBlocks (n : Nat) : Logs (fs.growToNBlocks n) :=
  foldlM (fun _ i => bind (of_onlyTakes (.ensureDataBlock fs i)) fun _ => value _) _ _

theorem addDirEntry (name : PosixPath) (childIno : Nat) : Logs (fs.addDirEntry name childIno) := by
  have rest : ∀ s : Session, Logs (do
      let reuseOff ← ofExcept (scanDir (fs.readFile s.image s.inode.toInode) name)
      let entry ← ofExcept (encodeDirent childIno name)
      let newOff := reuseOff.getD s.inode.size
      let size := if reuseOff = none then s.inode.size + direntSize else s.inode.size
      modify fun s => { s with inode := { s.inode with size := size } }
      let blocks ← fs.growToNBlocks (blocksOf size)
      C900.onImage (fs.writeBytes (blocks.getD (newOff / blockSize) 0) (newOff % blockSize) entry)
      let now ← C900.timeNow
      modify fun s => { s with inode := { s.inode with mtime := now, ctime := now } }
      fs.writeInode) := fun _ =>
    bind (lifted _) fun _ => bind (lifted _) fun _ => bind (update fun _ => rfl) fun _ =>
      bind (growToNBlocks fs _) fun _ => bind (onImage _) fun _ => bind timeNow fun _ =>
        bind (update fun _ => rfl) fun _ => writeInode fs
  exact bind (lifted _) fun _ => bind state fun s => ite (bind (raise _) fun _ => rest s) (rest s)

end Logs

/-! ## Free blocks -/

/-- The calls have taken as many blocks as were free on an open list. -/
def Spent (last : Option Nat) (list : List Nat) (s t : Session) : Prop :=
  last ≠ none ∧ ∃ log, t.calls = log ++ s.calls ∧ list.length ≤ log.countP AllocCall.isTookBlock

/-- The calls have taken the last block of an open list, which had no more blocks than the step
needs. -/
structure Overdrawn (last : Option Nat) (need : Nat) (list : List Nat) (s t : Session) : Prop where
  spent : Spent last list s t
  most : list.length ≤ need

/-- The calls have taken fewer blocks than were free. -/
def TakesFewer (list : List Nat) (s t : Session) : Prop :=
  ∃ log, t.calls = log ++ s.calls ∧ log.countP AllocCall.isTookBlock < list.length

/-- The calls from `s` to `t` account for the free blocks: `list` before and `list'` afterwards. -/
def Balanced (list : List Nat) (s : Session) (list' : List Nat) (t : Session) : Prop :=
  ∃ log, t.calls = log ++ s.calls ∧
    list'.length + log.countP AllocCall.isTookBlock = list.length + log.countP AllocCall.isGaveBlock

section Spent

variable {s t u : Session} {list list' rest : List Nat} {last : Option Nat}

theorem Spent.not_takesFewer (spent : Spent last list s t) : ¬ TakesFewer list s t := by
  rintro ⟨log, calls, fewer⟩
  obtain ⟨-, log', calls', enough⟩ := spent
  rw [List.append_cancel_right (calls.symm.trans calls')] at fewer
  omega

theorem Spent.mono (spent : Spent last list s t) (more : t.calls <:+ u.calls) :
    Spent last list s u := by
  obtain ⟨isOpen, log, calls, enough⟩ := spent
  obtain ⟨log', calls'⟩ := more
  refine ⟨isOpen, log' ++ log, by rw [List.append_assoc, ← calls, calls'], ?_⟩
  rw [List.countP_append]
  omega

/-- The calls of a growth take blocks. -/
theorem countP_tookBlock (taken : List Nat) :
    (taken.map AllocCall.tookBlock).countP AllocCall.isTookBlock = taken.length := by
  rw [List.countP_map]
  exact List.countP_eq_length.mpr fun _ _ => rfl

theorem countP_gaveBlock (given : List Nat) :
    (given.map AllocCall.gaveBlock).countP AllocCall.isGaveBlock = given.length := by
  rw [List.countP_map]
  exact List.countP_eq_length.mpr fun _ _ => rfl

theorem countP_gave_tookBlock (taken : List Nat) :
    (taken.map AllocCall.tookBlock).countP AllocCall.isGaveBlock = 0 := by
  rw [List.countP_map]
  exact List.countP_eq_zero.mpr fun _ _ => Bool.false_ne_true

theorem countP_took_gaveBlock (given : List Nat) :
    (given.map AllocCall.gaveBlock).countP AllocCall.isTookBlock = 0 := by
  rw [List.countP_map]
  exact List.countP_eq_zero.mpr fun _ _ => Bool.false_ne_true

theorem Balanced.refl (list : List Nat) (s : Session) : Balanced list s list s :=
  ⟨[], rfl, rfl⟩

theorem Balanced.trans (first : Balanced list s rest t) (second : Balanced rest t list' u) :
    Balanced list s list' u := by
  obtain ⟨log, calls, count⟩ := first
  obtain ⟨log', calls', count'⟩ := second
  refine ⟨log' ++ log, by rw [calls', calls, List.append_assoc], ?_⟩
  rw [List.countP_append, List.countP_append]
  omega

/-- A handler gives blocks back, and last the inode. -/
theorem Balanced.given {ino : Nat} {dropped : List Nat}
    (calls : t.calls = .gaveInode ino :: (dropped.map AllocCall.gaveBlock ++ s.calls)) :
    Balanced rest s (dropped ++ rest) t := by
  refine ⟨.gaveInode ino :: dropped.map AllocCall.gaveBlock, calls, ?_⟩
  rw [List.countP_cons_of_neg Bool.false_ne_true, List.countP_cons_of_neg Bool.false_ne_true,
    countP_took_gaveBlock, countP_gaveBlock, List.length_append]
  omega

/-- The calls say how many blocks are free. -/
theorem Balanced.length_eq (balanced : Balanced list s rest t) (other : Balanced list s list' t) :
    rest.length = list'.length := by
  obtain ⟨log, calls, count⟩ := balanced
  obtain ⟨log', calls', count'⟩ := other
  obtain rfl := List.append_cancel_right (calls.symm.trans calls')
  omega

/-- The blocks that were taken before count too. -/
theorem Spent.after (spent : Spent last rest t u) (balanced : Balanced list s rest t) :
    Spent last list s u := by
  obtain ⟨isOpen, log', calls', enough⟩ := spent
  obtain ⟨log, calls, count⟩ := balanced
  refine ⟨isOpen, log' ++ log, by rw [calls', calls, List.append_assoc], ?_⟩
  rw [List.countP_append]
  omega

theorem Overdrawn.mono {need : Nat} (overdrawn : Overdrawn last need list s t)
    (more : t.calls <:+ u.calls) : Overdrawn last need list s u :=
  ⟨overdrawn.spent.mono more, overdrawn.most⟩

theorem Overdrawn.le {need need' : Nat} (overdrawn : Overdrawn last need list s t)
    (le : need ≤ need') : Overdrawn last need' list s t :=
  ⟨overdrawn.spent, Nat.le_trans overdrawn.most le⟩

theorem Overdrawn.after {need count : Nat} (overdrawn : Overdrawn last need rest t u)
    (balanced : Balanced list s rest t) (length : list.length = count + rest.length) :
    Overdrawn last (count + need) list s u := by
  refine ⟨overdrawn.spent.after balanced, ?_⟩
  rw [length]
  exact Nat.add_le_add_left overdrawn.most count

theorem Drained.spent (drained : Drained last list s t) : Spent last list s t := by
  obtain ⟨isOpen, taken, calls, enough⟩ := drained
  exact ⟨isOpen, _, calls, (countP_tookBlock taken).symm ▸ enough⟩

end Spent

/-! ## Inodes -/

/-- The inodes that the calls, newest first, have taken and not given back. -/
def heldInodes : List AllocCall → List Nat
  | [] => []
  | .tookInode ino :: calls => ino :: heldInodes calls
  | .gaveInode ino :: calls => (heldInodes calls).filter (· ≠ ino)
  | .tookBlock _ :: calls => heldInodes calls
  | .gaveBlock _ :: calls => heldInodes calls

/-- No inode is taken again before it is given back. -/
def TakenOnce : List AllocCall → Prop
  | [] => True
  | .tookInode ino :: calls => ino ∉ heldInodes calls ∧ TakenOnce calls
  | .gaveInode _ :: calls => TakenOnce calls
  | .tookBlock _ :: calls => TakenOnce calls
  | .gaveBlock _ :: calls => TakenOnce calls

/-- A call of the block allocator. -/
def AllocCall.ofBlock (call : AllocCall) : Bool := call.isTookBlock || call.isGaveBlock

theorem ofBlock_tookBlocks (taken : List Nat) :
    ∀ call ∈ taken.map AllocCall.tookBlock, call.ofBlock = true := by
  intro call member
  obtain ⟨b, -, rfl⟩ := List.mem_map.mp member
  rfl

theorem ofBlock_gaveBlocks (given : List Nat) :
    ∀ call ∈ given.map AllocCall.gaveBlock, call.ofBlock = true := by
  intro call member
  obtain ⟨b, -, rfl⟩ := List.mem_map.mp member
  rfl

/-- Only the block allocator was called. -/
def BlockCalls (s t : Session) : Prop :=
  ∃ log, t.calls = log ++ s.calls ∧ ∀ call ∈ log, call.ofBlock = true

section Blocks

variable {s t u : Session} {log calls : List AllocCall}

theorem BlockCalls.refl (s : Session) : BlockCalls s s := ⟨[], rfl, fun _ none => by cases none⟩

theorem BlockCalls.trans (first : BlockCalls s t) (second : BlockCalls t u) : BlockCalls s u := by
  obtain ⟨log, here, blocks⟩ := first
  obtain ⟨log', here', blocks'⟩ := second
  refine ⟨log' ++ log, by rw [here', here, List.append_assoc], fun call member => ?_⟩
  exact (List.mem_append.mp member).elim (blocks' call) (blocks call)

theorem heldInodes_blocks (blocks : ∀ call ∈ log, call.ofBlock = true) :
    heldInodes (log ++ calls) = heldInodes calls := by
  induction log with
  | nil => rfl
  | cons call log inductionHypothesis =>
    have rest := inductionHypothesis fun call member => blocks call (List.mem_cons_of_mem _ member)
    have here := blocks call List.mem_cons_self
    cases call with
    | tookBlock b => exact rest
    | gaveBlock b => exact rest
    | tookInode ino => cases here
    | gaveInode ino => cases here

theorem takenOnce_blocks (blocks : ∀ call ∈ log, call.ofBlock = true) :
    TakenOnce (log ++ calls) ↔ TakenOnce calls := by
  induction log with
  | nil => rfl
  | cons call log inductionHypothesis =>
    have rest := inductionHypothesis fun call member => blocks call (List.mem_cons_of_mem _ member)
    have here := blocks call List.mem_cons_self
    cases call with
    | tookBlock b => exact rest
    | gaveBlock b => exact rest
    | tookInode ino => cases here
    | gaveInode ino => cases here

theorem BlockCalls.heldInodes (only : BlockCalls s t) :
    C900.heldInodes t.calls = C900.heldInodes s.calls := by
  obtain ⟨log, here, blocks⟩ := only
  rw [here, heldInodes_blocks blocks]

theorem BlockCalls.takenOnce (only : BlockCalls s t) : TakenOnce t.calls ↔ TakenOnce s.calls := by
  obtain ⟨log, here, blocks⟩ := only
  rw [here, takenOnce_blocks blocks]

end Blocks

end C900
