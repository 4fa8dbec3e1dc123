import C900.Fs.Holes
import C900.Fs.Stock

/-!
# Growing a file

`_ensure_data_block` fills the places on the way to a data block that are holes, each with a free
block, from the root down. A growth ends with the list exhausted, or with the blocks that it took
at places that were holes; nothing else in the map changes.
-/

namespace C900

open PointerTree

/-! ## The log of the calls -/

/-- The calls since the session `s` have all taken blocks. -/
def OnlyTook (s t : Session) : Prop :=
  ∃ taken : List Nat, t.calls = taken.map AllocCall.tookBlock ++ s.calls

theorem OnlyTook.refl (s : Session) : OnlyTook s s := ⟨[], rfl⟩

theorem OnlyTook.trans {s t u : Session} (first : OnlyTook s t) (second : OnlyTook t u) :
    OnlyTook s u := by
  obtain ⟨taken, calls⟩ := first
  obtain ⟨taken', calls'⟩ := second
  exact ⟨taken' ++ taken, by rw [calls', calls, List.map_append, List.append_assoc]⟩

/-- The program makes no calls but to take blocks. -/
def OnlyTakes {α : Type} (x : WriteM α) : Prop :=
  ∀ s, Ends x s (fun _ t => OnlyTook s t) fun _ t => OnlyTook s t

namespace OnlyTakes

variable {α β : Type}

theorem value (a : α) : OnlyTakes (pure a) := fun s => Ends.value (.refl s)

theorem bind {x : WriteM α} {f : α → WriteM β} (first : OnlyTakes x)
    (next : ∀ a, OnlyTakes (f a)) : OnlyTakes (x >>= f) := fun s =>
  .bind ((first s).mono (fun a t grown => (next a t).mono (fun _ _ => grown.trans)
    fun _ _ => grown.trans) fun _ _ => id)

theorem ite {p : Prop} [Decidable p] {x y : WriteM α} (yes : OnlyTakes x) (no : OnlyTakes y) :
    OnlyTakes (if p then x else y) := by
  by_cases holds : p
  · rw [if_pos holds]
    exact yes
  · rw [if_neg holds]
    exact no

theorem onImage (x : FsM α) : OnlyTakes (C900.onImage x) := by
  intro s
  unfold Ends C900.onImage
  cases x s.image with
  | ok a image => exact .refl s
  | error e image => exact .refl s

theorem lifted (result : Except FsError α) : OnlyTakes (ofExcept result) := fun s =>
  .lifted (fun _ _ => .refl s) fun _ _ => .refl s

theorem timeNow : OnlyTakes C900.timeNow := fun s =>
  .of_ok (t := { s with clock := fun i => s.clock (i + 1) }) rfl (.refl s)

theorem took (b : Nat) : OnlyTakes (record (.tookBlock b)) := fun _ => .update ⟨[b], rfl⟩

theorem addrAt (slot : Nat) : OnlyTakes (C900.addrAt slot) := fun s =>
  .of_ok (addrAt_eq slot s) (.refl s)

theorem setAddr (slot b : Nat) : OnlyTakes (C900.setAddr slot b) := fun s => .update (.refl s)

theorem foldlM {ι : Type} {body : β → ι → WriteM β} (each : ∀ b i, OnlyTakes (body b i))
    (items : List ι) (start : β) : OnlyTakes (items.foldlM body start) := by
  induction items generalizing start with
  | nil => exact value start
  | cons i rest inductionHypothesis =>
    rw [List.foldlM_cons]
    exact bind (each start i) inductionHypothesis

theorem takeBlock (fs : CoherentFs) : OnlyTakes fs.takeBlock :=
  bind timeNow fun _ => bind (onImage _) fun b => bind (took b) fun _ => value _

theorem zeroBlock (fs : CoherentFs) (rel : Nat) : OnlyTakes (fs.zeroBlock rel) := onImage _

end OnlyTakes

/-! ## A place is filled -/

section Places

variable {fs : CoherentFs} {image after : Image} {inode inode' : Inode} {p q : BlockPlace}

/-- The pointer at a slot is an entry of the pointer block. -/
theorem CoherentFs.pointer_slot (fs : CoherentFs) (image : Image) (inode : Inode) (q : BlockPlace)
    (j : Nat) :
    fs.pointer image inode (q.slot j) =
      if fs.pointer image inode q = 0 then 0
      else fs.entry image (fs.pointer image inode q) j := by
  unfold CoherentFs.pointer BlockPlace.slot
  rw [follow_append]
  by_cases hole : follow (fs.entry image) (inode.addrs.getD q.root 0) q.path = 0
  · rw [if_pos hole, hole]
    exact follow_zero _
  · rw [if_neg hole, follow_cons hole, follow_nil]

theorem BlockPlace.slot_ne_root (q : BlockPlace) (j root : Nat) : q.slot j ≠ ⟨root, []⟩ := by
  intro same
  exact List.concat_ne_nil j q.path (congrArg BlockPlace.path same)

theorem BlockPlace.slot_inj {j i : Nat} (same : q.slot j = p.slot i) : q = p ∧ j = i := by
  obtain ⟨root, path⟩ := q
  obtain ⟨root', path'⟩ := p
  injection same with roots paths
  obtain ⟨rfl, last⟩ := List.append_inj' paths rfl
  exact ⟨congrArg (BlockPlace.mk · path) roots, List.head_eq_of_cons_eq last⟩

/-- A valid place below a root is the slot of a valid place. -/
theorem BlockPlace.Valid.of_slot {j : Nat} (valid : (q.slot j).Valid) :
    q.Valid ∧ q.height ≠ 0 ∧ j < indirectCount := by
  obtain ⟨inside, short, small⟩ := valid
  unfold BlockPlace.slot at inside short small
  rw [List.length_append, List.length_singleton] at short
  dsimp only at inside short small
  refine ⟨⟨inside, by omega, fun slot member => small slot (List.mem_append_left _ member)⟩, ?_,
    small j (List.mem_append_right _ List.mem_cons_self)⟩
  unfold BlockPlace.height
  omega

theorem BlockPlace.height_slot (q : BlockPlace) (j : Nat) :
    (q.slot j).height = q.height - 1 := by
  unfold BlockPlace.height BlockPlace.slot
  rw [List.length_append, List.length_singleton]
  dsimp only
  omega

/-- The induction along the path to a place. -/
theorem BlockPlace.Valid.induct {P : BlockPlace → Prop}
    (root : ∀ root, root < rootCount → P ⟨root, []⟩)
    (slot : ∀ q j, q.Valid → q.height ≠ 0 → j < indirectCount → P q → P (q.slot j))
    (valid : p.Valid) : P p := by
  obtain ⟨r, path⟩ := p
  induction path using List.reverseRecOn with
  | nil => exact root r valid.1
  | append_singleton path j inductionHypothesis =>
    obtain ⟨valid', tall, small⟩ := BlockPlace.Valid.of_slot (q := ⟨r, path⟩) valid
    exact slot ⟨r, path⟩ j valid' tall small (inductionHypothesis valid')

/-- A block `x` that is put at one place, a hole below a pointer that is there, changes no other
place. -/
theorem CoherentFs.pointer_fill {x : Nat} (hole : fs.pointer image inode p = 0) (nonzero : x ≠ 0)
    (roots : ∀ root < rootCount,
      inode'.addrs.getD root 0 = if p = ⟨root, []⟩ then x else inode.addrs.getD root 0)
    (parent : ∀ q j, p = q.slot j → fs.pointer image inode q ≠ 0)
    (entries : ∀ q j, q.Valid → q.height ≠ 0 → j < indirectCount → fs.pointer image inode q ≠ 0 →
      fs.entry after (fs.pointer image inode q) j =
        if p = q.slot j then x else fs.entry image (fs.pointer image inode q) j)
    (clear : p.height ≠ 0 → ∀ j < indirectCount, fs.entry after x j = 0) (valid : q.Valid) :
    fs.pointer after inode' q = if p = q then x else fs.pointer image inode q := by
  refine BlockPlace.Valid.induct
    (P := fun q => fs.pointer after inode' q = if p = q then x else fs.pointer image inode q) roots
    (fun q j valid tall small found => ?_) valid
  rw [fs.pointer_slot, fs.pointer_slot, found]
  by_cases here : p = q
  · subst here
    have other : p ≠ p.slot j := fun same => List.concat_ne_nil j []
      (List.append_cancel_left ((List.append_nil p.path).trans (congrArg BlockPlace.path same))).symm
    rw [if_pos rfl, if_neg nonzero, if_neg other, if_pos hole]
    exact clear tall j small
  · rw [if_neg here]
    by_cases absent : fs.pointer image inode q = 0
    · rw [if_pos absent, if_neg fun same => parent q j same absent, if_pos absent]
    · rw [if_neg absent, if_neg absent]
      exact entries q j valid tall small absent

/-- A map depends on the pointer blocks that it has. -/
theorem CoherentFs.pointer_same (addrs : inode'.addrs = inode.addrs)
    (entries : ∀ {q : BlockPlace}, q.Valid → q.height ≠ 0 → fs.pointer image inode q ≠ 0 →
      fs.entry after (fs.pointer image inode q) = fs.entry image (fs.pointer image inode q))
    (valid : q.Valid) : fs.pointer after inode' q = fs.pointer image inode q := by
  refine BlockPlace.Valid.induct
    (P := fun q => fs.pointer after inode' q = fs.pointer image inode q) (fun root _ => ?_)
    (fun q j valid tall _ found => ?_) valid
  · unfold CoherentFs.pointer
    dsimp only
    rw [addrs]
    rfl
  · rw [fs.pointer_slot, fs.pointer_slot, found]
    by_cases absent : fs.pointer image inode q = 0
    · rw [if_pos absent, if_pos absent]
    · rw [if_neg absent, if_neg absent, entries valid tall absent]

end Places

/-! ## Growth -/

/-- An inode whose blocks and the free blocks are apart. -/
structure CoherentFs.Growable (fs : CoherentFs) (isize fsize : Nat) (last : Option Nat)
    (s : Session) (list : List Nat) : Prop where
  map : fs.OwnMap (DataArea isize fsize) s.image s.inode.toInode
  stock : fs.Stock isize fsize last s.image list
  apart : ∀ {p : BlockPlace}, p.Valid → fs.pointer s.image s.inode.toInode p ≠ 0 →
    fs.pointer s.image s.inode.toInode p ∉ list

/-- The blocks `taken` are at places before data block `n` that were holes, `rest` is still free,
and everything else is as it was. -/
structure CoherentFs.Grown (fs : CoherentFs) (isize fsize : Nat) (last : Option Nat) (n : Nat)
    (s : Session) (list taken rest : List Nat) (t : Session) : Prop where
  growable : fs.Growable isize fsize last t rest
  split : list = taken ++ rest
  calls : t.calls = taken.reverse.map AllocCall.tookBlock ++ s.calls
  inode : t.inode = { s.inode with addrs := t.inode.addrs }
  old : ∀ {p : BlockPlace}, p.Valid → fs.pointer s.image s.inode.toInode p ≠ 0 →
    fs.pointer t.image t.inode.toInode p = fs.pointer s.image s.inode.toInode p
  new : ∀ {p : BlockPlace}, p.Valid → fs.pointer s.image s.inode.toInode p = 0 →
    fs.pointer t.image t.inode.toInode p ≠ 0 →
    p.first < n ∧ fs.pointer t.image t.inode.toInode p ∈ taken
  used : ∀ b ∈ taken, b ≠ 0 ∧ ∃ p : BlockPlace, p.Valid ∧
    fs.pointer s.image s.inode.toInode p = 0 ∧ fs.pointer t.image t.inode.toInode p = b
  frame : Image.AgreeExcept (fun bno => bno = fs.partOff + 1 ∨ ∃ x, bno = fs.partOff + x ∧
    (x ∈ taken ∨ ∃ p : BlockPlace, p.Valid ∧ p.height ≠ 0 ∧ x ≠ 0 ∧
      fs.pointer s.image s.inode.toInode p = x)) s.image t.image
  kept : fs.CacheKept s.image t.image

/-- The last block of an open list is taken. -/
def Drained (last : Option Nat) (list : List Nat) (s t : Session) : Prop :=
  last ≠ none ∧ ∃ taken : List Nat,
    t.calls = taken.map AllocCall.tookBlock ++ s.calls ∧ list.length ≤ taken.length

/-- A growth before data block `n` takes the last block of an open list: there were at least as many
holes as blocks. -/
def CoherentFs.Exhausts (fs : CoherentFs) (last : Option Nat) (n : Nat) (s : Session)
    (list : List Nat) (t : Session) : Prop :=
  Drained last list s t ∧ list.length ≤ (fs.holes s.image s.inode.toInode n).length

/-- Why a growth to `n` data blocks stops with `rest` still free. -/
inductive CoherentFs.GrowthStops (fs : CoherentFs) (last : Option Nat) (n : Nat) (rest : List Nat)
    (t : Session) : FsError → Prop
  | exhausted {p : BlockPlace} (closed : last = none) (none : rest = []) (valid : p.Valid)
    (before : p.first < n) (hole : fs.pointer t.image t.inode.toInode p = 0) :
    fs.GrowthStops last n rest t .outOfFreeBlocks
  | badLink {b : Nat} {count : Int} {p : BlockPlace} (isOpen : last = some b) (alone : rest = [b])
    (valid : p.Valid) (before : p.first < n) (hole : fs.pointer t.image t.inode.toInode p = 0) :
    fs.GrowthStops last n rest t (.badChainNfree count)
  | large (above : maxBlocks < n)
    (whole : ∀ idx < maxBlocks, fs.pointer t.image t.inode.toInode (dataPlace idx) ≠ 0) :
    fs.GrowthStops last n rest t .fileTooLarge

/-- The program grows the file before data block `n`. -/
def CoherentFs.GrowEnds (fs : CoherentFs) (isize fsize : Nat) (last : Option Nat) (n : Nat)
    {α : Type} (x : WriteM α) (s : Session) (list : List Nat) (P : α → Session → Prop) : Prop :=
  Ends x s
    (fun a t => (∃ taken rest, fs.Grown isize fsize last n s list taken rest t ∧ P a t) ∨
      fs.Exhausts last n s list t)
    fun e t => (∃ taken rest, fs.Grown isize fsize last n s list taken rest t ∧
      fs.GrowthStops last n rest t e) ∨ fs.Exhausts last n s list t

section Growth

variable {fs : CoherentFs} {isize fsize n : Nat} {last : Option Nat} {s t u : Session}
  {list rest rest' taken taken' : List Nat} {p : BlockPlace} {x : Nat}

theorem CoherentFs.Grown.start (growable : fs.Growable isize fsize last s list) :
    fs.Grown isize fsize last n s list [] list s :=
  ⟨growable, rfl, rfl, rfl, fun _ _ => rfl, fun _ hole found => absurd hole found,
    fun _ none => absurd none List.not_mem_nil, .refl _ _, .refl fs _⟩

theorem CoherentFs.Grown.trans (first : fs.Grown isize fsize last n s list taken rest t)
    (second : fs.Grown isize fsize last n t rest taken' rest' u) :
    fs.Grown isize fsize last n s list (taken ++ taken') rest' u where
  growable := second.growable
  split := by rw [first.split, second.split, List.append_assoc]
  calls := by
    rw [second.calls, first.calls, List.reverse_append, List.map_append, List.append_assoc]
  inode := by rw [second.inode, first.inode]
  old valid found := by
    have same := first.old valid found
    rw [second.old valid (same ▸ found), same]
  new {p} valid hole found := by
    rw [List.mem_append]
    by_cases still : fs.pointer t.image t.inode.toInode p = 0
    · exact (second.new valid still found).imp_right Or.inr
    · rw [second.old valid still]
      exact (first.new valid hole still).imp_right Or.inl
  used b member := by
    rcases List.mem_append.mp member with before | after
    · obtain ⟨nonzero, p, valid, hole, here⟩ := first.used b before
      refine ⟨nonzero, p, valid, hole, ?_⟩
      rw [second.old valid (here ▸ nonzero), here]
    · obtain ⟨nonzero, p, valid, hole, here⟩ := second.used b after
      refine ⟨nonzero, p, valid, ?_, here⟩
      by_contra found
      exact found ((first.old valid found).symm.trans hole)
  frame := by
    refine (first.frame.mono ?_).trans (second.frame.mono ?_)
    · exact fun _ => Or.imp_right fun ⟨x, here, may⟩ =>
        ⟨x, here, may.imp_left fun member => List.mem_append_left _ member⟩
    · refine fun _ => Or.imp_right fun ⟨x, here, may⟩ => ⟨x, here, ?_⟩
      rcases may with member | ⟨p, valid, tall, nonzero, found⟩
      · exact Or.inl (List.mem_append_right _ member)
      · by_cases hole : fs.pointer s.image s.inode.toInode p = 0
        · obtain ⟨-, new⟩ := first.new valid hole (found ▸ nonzero)
          rw [found] at new
          exact Or.inl (List.mem_append_left _ new)
        · exact Or.inr ⟨p, valid, tall, nonzero, (first.old valid hole).symm.trans found⟩
  kept := first.kept.trans second.kept

theorem Drained.mono (drained : Drained last list s t) (more : OnlyTook t u) :
    Drained last list s u := by
  obtain ⟨isOpen, taken, calls, enough⟩ := drained
  obtain ⟨taken', calls'⟩ := more
  refine ⟨isOpen, taken' ++ taken, ?_, ?_⟩
  · rw [calls', calls, List.map_append, List.append_assoc]
  · rw [List.length_append]
    omega

theorem CoherentFs.Exhausts.mono (exhausts : fs.Exhausts last n s list t) (more : OnlyTook t u) :
    fs.Exhausts last n s list u :=
  ⟨exhausts.1.mono more, exhausts.2⟩

/-- The blocks of a growth lie at the holes that it has filled. -/
theorem CoherentFs.Grown.taken_perm (grown : fs.Grown isize fsize last n s list taken rest t)
    (nodup : list.Nodup) :
    taken.Perm (((fs.holes s.image s.inode.toInode n).filter
      fun p => fs.pointer t.image t.inode.toInode p ≠ 0).map
        (fs.pointer t.image t.inode.toInode)) := by
  have once : (((fs.holes s.image s.inode.toInode n).filter
      fun p => fs.pointer t.image t.inode.toInode p ≠ 0).map
        (fs.pointer t.image t.inode.toInode)).Nodup := by
    refine ((fs.holes_nodup _ _ n).filter _).map_on fun p inP q inQ same => ?_
    obtain ⟨holeP, foundP⟩ := List.mem_filter.mp inP
    obtain ⟨holeQ, -⟩ := List.mem_filter.mp inQ
    exact grown.growable.map.distinct (CoherentFs.mem_holes.mp holeP).1
      (CoherentFs.mem_holes.mp holeQ).1 (of_decide_eq_true foundP) same
  rw [grown.split] at nodup
  refine (List.perm_ext_iff_of_nodup (List.nodup_append.mp nodup).1 once).mpr fun x => ?_
  rw [List.mem_map]
  constructor
  · intro member
    obtain ⟨nonzero, p, valid, hole, here⟩ := grown.used x member
    have found := here.trans_ne nonzero
    exact ⟨p, List.mem_filter.mpr ⟨CoherentFs.mem_holes.mpr ⟨valid, (grown.new valid hole found).1,
      hole⟩, decide_eq_true found⟩, here⟩
  · rintro ⟨p, member, rfl⟩
    obtain ⟨inHoles, found⟩ := List.mem_filter.mp member
    obtain ⟨valid, -, hole⟩ := CoherentFs.mem_holes.mp inHoles
    exact (grown.new valid hole (of_decide_eq_true found)).2

/-- A growth takes a block for each hole that it fills. -/
theorem CoherentFs.Grown.holes_length (grown : fs.Grown isize fsize last n s list taken rest t)
    (nodup : list.Nodup) : (fs.holes s.image s.inode.toInode n).length =
      taken.length + (fs.holes t.image t.inode.toInode n).length := by
  have left : fs.holes t.image t.inode.toInode n = (fs.holes s.image s.inode.toInode n).filter
      fun p => !decide (fs.pointer t.image t.inode.toInode p ≠ 0) := by
    unfold CoherentFs.holes
    rw [List.filter_filter]
    refine List.filter_congr fun p member => ?_
    have valid := (mem_placesBelow.mp member).1
    by_cases hole : fs.pointer s.image s.inode.toInode p = 0
    · simp [hole]
    · simp [hole, grown.old valid hole]
  rw [(grown.taken_perm nodup).length_eq, List.length_map, left]
  exact List.length_eq_length_filter_add _

/-- A growth that goes on until the last block is taken. -/
theorem CoherentFs.Grown.exhausts (grown : fs.Grown isize fsize last n s list taken rest t)
    (nodup : list.Nodup) (exhausts : fs.Exhausts last n t rest u) : fs.Exhausts last n s list u := by
  obtain ⟨⟨isOpen, taken', calls, enough⟩, holes⟩ := exhausts
  have length : list.length = taken.length + rest.length := by
    rw [grown.split, List.length_append]
  refine ⟨⟨isOpen, taken' ++ taken.reverse, ?_, ?_⟩, ?_⟩
  · rw [calls, grown.calls, List.map_append, List.append_assoc]
  · rw [List.length_append, List.length_reverse]
    omega
  · rw [grown.holes_length nodup]
    omega

variable {α β : Type}

theorem CoherentFs.GrowEnds.value {P : α → Session → Prop} {a : α}
    (growable : fs.Growable isize fsize last s list) (holds : P a s) :
    fs.GrowEnds isize fsize last n (pure a) s list P :=
  Ends.value (Or.inl ⟨[], list, .start growable, holds⟩)

theorem CoherentFs.GrowEnds.mono {x : WriteM α} {P Q : α → Session → Prop}
    (ends : fs.GrowEnds isize fsize last n x s list P)
    (more : ∀ a t taken rest, fs.Grown isize fsize last n s list taken rest t → P a t → Q a t) :
    fs.GrowEnds isize fsize last n x s list Q :=
  Ends.mono ends (fun a t => Or.imp_left fun ⟨taken, rest, grown, holds⟩ =>
    ⟨taken, rest, grown, more a t taken rest grown holds⟩) fun _ _ => id

/-- A growth goes on from where another one has ended. -/
theorem CoherentFs.GrowEnds.after {x : WriteM α} {P : α → Session → Prop}
    (ends : fs.GrowEnds isize fsize last n x t rest P) (nodup : list.Nodup)
    (grown : fs.Grown isize fsize last n s list taken rest t) :
    Ends x t
      (fun a u => (∃ taken rest, fs.Grown isize fsize last n s list taken rest u ∧ P a u) ∨
        fs.Exhausts last n s list u)
      fun e u => (∃ taken rest, fs.Grown isize fsize last n s list taken rest u ∧
        fs.GrowthStops last n rest u e) ∨ fs.Exhausts last n s list u := by
  refine Ends.mono ends (fun a u => ?_) fun e u => ?_
  · rintro (⟨taken', rest', grown', holds⟩ | exhausts)
    · exact Or.inl ⟨taken ++ taken', rest', grown.trans grown', holds⟩
    · exact Or.inr (grown.exhausts nodup exhausts)
  · rintro (⟨taken', rest', grown', stops⟩ | exhausts)
    · exact Or.inl ⟨taken ++ taken', rest', grown.trans grown', stops⟩
    · exact Or.inr (grown.exhausts nodup exhausts)

/-- Once the last block is taken, nothing more is said. -/
theorem CoherentFs.Exhausts.after {x : WriteM α} {P : α → Session → Prop}
    (exhausts : fs.Exhausts last n s list t) (logs : OnlyTakes x) :
    Ends x t
      (fun a u => (∃ taken rest, fs.Grown isize fsize last n s list taken rest u ∧ P a u) ∨
        fs.Exhausts last n s list u)
      fun e u => (∃ taken rest, fs.Grown isize fsize last n s list taken rest u ∧
        fs.GrowthStops last n rest u e) ∨ fs.Exhausts last n s list u :=
  (logs t).mono (fun _ _ more => Or.inr (exhausts.mono more))
    fun _ _ more => Or.inr (exhausts.mono more)

theorem CoherentFs.GrowEnds.bind {x : WriteM α} {f : α → WriteM β} {P : α → Session → Prop}
    {Q : β → Session → Prop} (first : fs.GrowEnds isize fsize last n x s list P)
    (nodup : list.Nodup) (logs : ∀ a, OnlyTakes (f a))
    (next : ∀ a t taken rest, fs.Grown isize fsize last n s list taken rest t → P a t →
      fs.GrowEnds isize fsize last n (f a) t rest Q) :
    fs.GrowEnds isize fsize last n (x >>= f) s list Q := by
  refine Ends.bind (Ends.mono first (fun a t => ?_) fun _ _ => id)
  rintro (⟨taken, rest, grown, holds⟩ | exhausts)
  · exact (next a t taken rest grown holds).after nodup grown
  · exact exhausts.after (logs a)

/-- Only the superblock has changed. -/
theorem CoherentFs.Growable.sbOnly (growable : fs.Growable isize fsize last s list)
    (inode : t.inode = s.inode) (calls : t.calls = s.calls) (only : fs.SbOnly s.image t.image)
    (kept : fs.CacheKept s.image t.image) (stock : fs.Stock isize fsize last t.image list) :
    fs.Grown isize fsize last n s list [] list t := by
  have same : ∀ {p : BlockPlace}, p.Valid →
      fs.pointer t.image t.inode.toInode p = fs.pointer s.image s.inode.toInode p := by
    intro p valid
    rw [inode]
    refine CoherentFs.pointer_same rfl (fun {q} valid _ found => ?_) valid
    have low := (growable.map.area valid found).1
    have data := growable.stock.data
    funext j
    unfold CoherentFs.entry
    rw [only.block _ (by omega)]
  refine ⟨⟨⟨inode ▸ growable.map.addrs, ?_, ?_⟩, stock, ?_⟩, rfl, calls, ?_, ?_, ?_, ?_, ?_, kept⟩
  · intro p valid found
    rw [same valid] at found ⊢
    exact growable.map.area valid found
  · intro p q valid valid' found eq
    rw [same valid] at found eq
    rw [same valid'] at eq
    exact growable.map.distinct valid valid' found eq
  · intro p valid found
    rw [same valid] at found ⊢
    exact growable.apart valid found
  · rw [inode]
  · exact fun valid _ => same valid
  · exact fun valid hole found => absurd hole (same valid ▸ found)
  · exact fun _ none => absurd none List.not_mem_nil
  · exact only.mono fun _ => Or.inl

/-- The first free block is put at a hole. -/
theorem CoherentFs.Growable.fill (growable : fs.Growable isize fsize last s (x :: rest))
    (valid : p.Valid) (before : p.first < n)
    (hole : fs.pointer s.image s.inode.toInode p = 0)
    (stock : fs.Stock isize fsize last t.image rest) (calls : t.calls = .tookBlock x :: s.calls)
    (inode : t.inode = { s.inode with addrs := t.inode.addrs })
    (length : t.inode.addrs.length = rootCount)
    (frame : Image.AgreeExcept (fun bno => bno = fs.partOff + 1 ∨ ∃ y, bno = fs.partOff + y ∧
      (y ∈ [x] ∨ ∃ p : BlockPlace, p.Valid ∧ p.height ≠ 0 ∧ y ≠ 0 ∧
        fs.pointer s.image s.inode.toInode p = y)) s.image t.image)
    (kept : fs.CacheKept s.image t.image)
    (pointers : ∀ {q : BlockPlace}, q.Valid → fs.pointer t.image t.inode.toInode q =
      if p = q then x else fs.pointer s.image s.inode.toInode q) :
    fs.Grown isize fsize last n s (x :: rest) [x] rest t := by
  have member : x ∈ x :: rest := List.mem_cons_self
  have nonzero : x ≠ 0 := growable.stock.ne_zero x member
  have fresh : ∀ {q : BlockPlace}, q.Valid → fs.pointer s.image s.inode.toInode q ≠ x :=
    fun valid same => growable.apart valid (same ▸ nonzero) (same ▸ member)
  have others : ∀ {q : BlockPlace}, q.Valid → p ≠ q →
      fs.pointer t.image t.inode.toInode q = fs.pointer s.image s.inode.toInode q :=
    fun valid other => (pointers valid).trans (if_neg other)
  have here : fs.pointer t.image t.inode.toInode p = x := (pointers valid).trans (if_pos rfl)
  refine ⟨⟨⟨length, ?_, ?_⟩, stock, ?_⟩, rfl, calls, inode, ?_, ?_, ?_, frame, kept⟩
  · intro q valid' found
    by_cases same : p = q
    · rw [← same, here]
      exact growable.stock.inArea x member
    · rw [others valid' same] at found ⊢
      exact growable.map.area valid' found
  · intro q r valid' valid'' found eq
    by_cases first : p = q
    · by_cases second : p = r
      · rw [← first, second]
      · rw [← first, here, others valid'' second] at eq
        exact absurd eq.symm (fresh valid'')
    · rw [others valid' first] at found eq
      by_cases second : p = r
      · rw [← second, here] at eq
        exact absurd eq (fresh valid')
      · rw [others valid'' second] at eq
        exact growable.map.distinct valid' valid'' found eq
  · intro q valid' found
    by_cases same : p = q
    · rw [← same, here]
      exact (List.nodup_cons.mp growable.stock.nodup).1
    · rw [others valid' same] at found ⊢
      exact fun inRest => growable.apart valid' found (List.mem_cons_of_mem _ inRest)
  · intro q valid' found
    exact others valid' fun same => found (same ▸ hole)
  · intro q valid' hole' found
    by_cases same : p = q
    · rw [← same, here]
      exact ⟨before, List.mem_singleton_self x⟩
    · rw [others valid' same] at found
      exact absurd hole' found
  · intro b single
    rw [List.mem_singleton.mp single]
    exact ⟨nonzero, p, valid, hole, here⟩

/-- A block is taken off the list, or it was the last one of an open list. -/
theorem CoherentFs.Stock.takeBlock (stock : fs.Stock isize fsize last s.image list) :
    Ends fs.takeBlock s
      (fun b t => (∃ rest, list = b :: rest ∧ fs.Took s b t ∧
        fs.Stock isize fsize last t.image rest) ∨ (list.length = 1 ∧ Drained last list s t))
      fun e t => t.inode = s.inode ∧ t.calls = s.calls ∧ fs.SbOnly s.image t.image ∧
        fs.CacheKept s.image t.image ∧ fs.Stock isize fsize last t.image list ∧
        ((last = none ∧ list = [] ∧ e = .outOfFreeBlocks) ∨
          ∃ b count, last = some b ∧ list = [b] ∧ e = .badChainNfree count) := by
  obtain ⟨nfree, tfree, -, _, -, chain⟩ := id stock.holds
  cases list with
  | nil =>
    cases last with
    | none =>
      refine stock.take_nil.mono (fun _ _ => False.elim) ?_
      rintro e t ⟨rfl, inode, calls, only, kept, stock'⟩
      exact ⟨inode, calls, only, kept, stock', Or.inl ⟨rfl, rfl, rfl⟩⟩
    | some c => cases chain.open_getLast
  | cons b rest =>
    by_cases isLast : last = some b
    · subst isLast
      have alone : rest = [] := by
        cases rest with
        | nil => rfl
        | cons next rest =>
          have found := chain.open_getLast
          rw [List.getLast?_cons_cons] at found
          exact absurd (List.mem_of_getLast? found) (List.nodup_cons.mp stock.nodup).1
      subst alone
      refine stock.take_last.mono (fun b' t calls => ?_) fun e t => ?_
      · exact Or.inr ⟨rfl, Option.some_ne_none b, [b'], calls, Nat.le_refl _⟩
      · rintro ⟨⟨count, rfl⟩, inode, calls, image⟩
        rw [image]
        exact ⟨inode, calls, .refl _ _, .refl fs _, stock, Or.inr ⟨b, count, rfl, rfl, rfl⟩⟩
    · refine (stock.take isLast).mono (fun b' t => ?_) fun _ _ => False.elim
      rintro ⟨rfl, took, stock'⟩
      exact Or.inl ⟨rest, rfl, took, stock'⟩

/-- A block is taken for a hole: it is put there, or none is left. -/
theorem CoherentFs.Growable.takeInto {f : Nat → WriteM α} {P : α → Session → Prop}
    (growable : fs.Growable isize fsize last s list) (logs : ∀ b, OnlyTakes (f b))
    (valid : p.Valid) (before : p.first < n) (hole : fs.pointer s.image s.inode.toInode p = 0)
    (put : ∀ b rest t, list = b :: rest → fs.Took s b t →
      fs.Stock isize fsize last t.image rest → Ends (f b) t
        (fun a u => fs.Grown isize fsize last n s list [b] rest u ∧ P a u) noRaise) :
    fs.GrowEnds isize fsize last n (fs.takeBlock >>= f) s list P := by
  refine Ends.bind (growable.stock.takeBlock.mono (fun b t => ?_) fun e t => ?_)
  · rintro (⟨rest, taken, took, stock⟩ | ⟨single, drained⟩)
    · exact (put b rest t taken took stock).mono
        (fun a u ⟨grown, holds⟩ => Or.inl ⟨[b], rest, grown, holds⟩) fun _ _ => False.elim
    · have exhausts : fs.Exhausts last n s list t :=
        ⟨drained, single ▸ List.length_pos_of_mem (CoherentFs.mem_holes.mpr ⟨valid, before, hole⟩)⟩
      exact exhausts.after (logs b)
  · rintro ⟨inode, calls, only, kept, stock, why⟩
    have grown : fs.Grown isize fsize last n s list [] list t :=
      growable.sbOnly inode calls only kept stock
    have still : fs.pointer t.image t.inode.toInode p = 0 := by
      by_contra found
      exact List.not_mem_nil (grown.new valid hole found).2
    refine Or.inl ⟨[], list, grown, ?_⟩
    rcases why with ⟨closed, none, rfl⟩ | ⟨b, count, isOpen, alone, rfl⟩
    · exact .exhausted closed none valid before still
    · exact .badLink isOpen alone valid before still

end Growth

/-! ## The two ways to put a block -/

section Put

variable {fs : CoherentFs} {isize fsize n b root : Nat} {last : Option Nat} {s t u : Session}
  {rest : List Nat} {q : BlockPlace}

/-- A block that was cleared holds no pointer. -/
theorem CoherentFs.entry_cleared {image : Image} (inside : image.hasBlock (fs.partOff + b) = true)
    (j : Nat) : fs.entry (image.setBlock (fs.partOff + b) fun _ => 0) b j = 0 := by
  have zeros : (image.setBlock (fs.partOff + b) fun _ => 0).readBlock (fs.partOff + b) =
      fun _ => 0 := by
    funext i
    by_cases small : i < blockSize
    · exact Image.readBlock_setBlock_same _ inside small
    · unfold Image.readBlock
      rw [if_neg fun both => small both.2]
  unfold CoherentFs.entry
  rw [zeros]
  rfl

/-- A block is put at a root. -/
theorem CoherentFs.Growable.fillRoot (growable : fs.Growable isize fsize last s (b :: rest))
    (inside : root < rootCount) (before : BlockPlace.first ⟨root, []⟩ < n)
    (hole : s.inode.addrs.getD root 0 = 0) (took : fs.Took s b t)
    (inode : u.inode = t.inode.setAddr root b) (calls : u.calls = t.calls)
    (only : Image.AgreeExcept (· = fs.partOff + b) t.image u.image)
    (stock : fs.Stock isize fsize last u.image rest)
    (clear : rootHeight root ≠ 0 → ∀ j < indirectCount, fs.entry u.image b j = 0) :
    fs.Grown isize fsize last n s (b :: rest) [b] rest u ∧
      fs.pointer u.image u.inode.toInode ⟨root, []⟩ = b ∧ b ≠ 0 := by
  have nonzero : b ≠ 0 := growable.stock.ne_zero b List.mem_cons_self
  have length : s.inode.addrs.length = rootCount := growable.map.addrs
  have valid : (⟨root, []⟩ : BlockPlace).Valid := ⟨inside, IsPath.nil _⟩
  have addrs : u.inode.addrs = s.inode.addrs.set root b := by
    rw [inode]
    dsimp only [OpenInode.setAddr]
    rw [took.inode]
  have pointers : ∀ {q : BlockPlace}, q.Valid → fs.pointer u.image u.inode.toInode q =
      if ⟨root, []⟩ = q then b else fs.pointer s.image s.inode.toInode q := by
    refine fun valid => CoherentFs.pointer_fill hole nonzero (fun other _ => ?_)
      (fun q j same => absurd same.symm (q.slot_ne_root j root)) (fun q j valid _ _ found => ?_)
      clear valid
    · rw [addrs]
      by_cases same : other = root
      · rw [if_pos (by rw [same]), same]
        exact getD_set_same (by omega) b
      · rw [if_neg fun eq => same (congrArg BlockPlace.root eq).symm]
        exact getD_set_other same b
    · rw [if_neg fun same => q.slot_ne_root j root same.symm]
      have low := (growable.map.area valid found).1
      have data := growable.stock.data
      have apart : fs.pointer s.image s.inode.toInode q ≠ b := fun same =>
        growable.apart valid found (same ▸ List.mem_cons_self)
      unfold CoherentFs.entry
      rw [only.block _ (by omega), took.only.block _ (by omega)]
  have area := growable.stock.inArea b List.mem_cons_self
  have data := growable.stock.data
  have low := area.1
  refine ⟨growable.fill valid before hole stock (calls.trans took.calls) ?_ ?_ ?_
    (took.kept.trans (only.cacheKept (by omega))) pointers,
    (pointers valid).trans (if_pos rfl), nonzero⟩
  · rw [inode]
    dsimp only [OpenInode.setAddr]
    rw [took.inode]
  · rw [addrs, List.length_set, length]
  · refine (took.only.mono fun _ => Or.inl).trans (only.mono fun _ here => Or.inr ?_)
    exact ⟨b, here, Or.inl (List.mem_singleton_self b)⟩

/-- A block is put at a slot of a pointer block. -/
theorem CoherentFs.Growable.fillSlot (growable : fs.Growable isize fsize last s (b :: rest))
    (valid : q.Valid) (tall : q.height ≠ 0)
    (present : fs.pointer s.image s.inode.toInode q ≠ 0) {j : Nat} (small : j < indirectCount)
    (before : (q.slot j).first < n) (hole : fs.pointer s.image s.inode.toInode (q.slot j) = 0)
    (took : fs.Took s b t)
    (inode : u.inode = t.inode) (calls : u.calls = t.calls)
    (only : Image.AgreeExcept (fun bno => bno = fs.partOff + b ∨
      bno = fs.partOff + fs.pointer s.image s.inode.toInode q) t.image u.image)
    (entries : ∀ i < indirectCount, fs.entry u.image (fs.pointer s.image s.inode.toInode q) i =
      if i = j then b else fs.entry s.image (fs.pointer s.image s.inode.toInode q) i)
    (stock : fs.Stock isize fsize last u.image rest)
    (clear : (q.slot j).height ≠ 0 → ∀ i < indirectCount, fs.entry u.image b i = 0) :
    fs.Grown isize fsize last n s (b :: rest) [b] rest u ∧
      fs.pointer u.image u.inode.toInode (q.slot j) = b ∧ b ≠ 0 := by
  have nonzero : b ≠ 0 := growable.stock.ne_zero b List.mem_cons_self
  have valid' : (q.slot j).Valid := valid.slot tall small
  have same : u.inode = s.inode := inode.trans took.inode
  have pointers : ∀ {r : BlockPlace}, r.Valid → fs.pointer u.image u.inode.toInode r =
      if q.slot j = r then b else fs.pointer s.image s.inode.toInode r := by
    refine fun valid'' => CoherentFs.pointer_fill hole nonzero (fun root _ => ?_)
      (fun r i eq => ?_) (fun r i validR _ smallR found => ?_) clear valid''
    · rw [if_neg (q.slot_ne_root j root), same]
    · rw [← (BlockPlace.slot_inj eq).1]
      exact present
    · by_cases here : r = q
      · subst here
        rw [entries i smallR]
        by_cases slot : i = j
        · rw [if_pos slot, if_pos (by rw [slot])]
        · rw [if_neg slot, if_neg fun eq => slot (BlockPlace.slot_inj eq).2.symm]
      · rw [if_neg fun eq => here (BlockPlace.slot_inj eq).1.symm]
        have low := (growable.map.area validR found).1
        have data := growable.stock.data
        have apart : fs.pointer s.image s.inode.toInode r ≠ b := fun eq =>
          growable.apart validR found (eq ▸ List.mem_cons_self)
        have other : fs.pointer s.image s.inode.toInode r ≠
            fs.pointer s.image s.inode.toInode q :=
          fun eq => here (growable.map.distinct validR valid found eq)
        unfold CoherentFs.entry
        rw [only.block _ (by omega), took.only.block _ (by omega)]
  have area := growable.stock.inArea b List.mem_cons_self
  have data := growable.stock.data
  have low := area.1
  have low' := (growable.map.area valid present).1
  refine ⟨growable.fill valid' before hole stock (calls.trans took.calls) (by rw [same]) ?_ ?_
    (took.kept.trans (only.cacheKept (by omega))) pointers,
    (pointers valid').trans (if_pos rfl), nonzero⟩
  · rw [same]
    exact growable.map.addrs
  · refine (took.only.mono fun _ => Or.inl).trans (only.mono fun _ here => Or.inr ?_)
    rcases here with own | parent
    · exact ⟨b, own, Or.inl (List.mem_singleton_self b)⟩
    · exact ⟨_, parent, Or.inr ⟨q, valid, tall, present, rfl⟩⟩

end Put

/-! ## The programs -/

/-- One level of `_ensure_indirect_child`: the entry at a slot, filled where it is a hole. -/
def CoherentFs.ensureEntry (fs : CoherentFs) (inner : Bool) (b slot : Nat) : WriteM Nat := do
  let blk ← onImage (readBlock (fs.partOff + b))
  let cur := blk.get32 (slot * 4)
  if cur = 0 then do
    let cur ← fs.takeBlock
    if inner then fs.zeroBlock cur
    let blk ← ofExcept (writeIndirectEntry blk slot cur)
    onImage (writeBlock (fs.partOff + b) blk)
    pure cur
  else pure cur

theorem CoherentFs.ensureIndirectChild_succ (fs : CoherentFs) (depth b : Nat) (coords : List Nat) :
    fs.ensureIndirectChild (depth + 1) b coords =
      fs.ensureEntry (decide (depth ≠ 0)) b (coords.headD 0) >>= fun cur =>
        fs.ensureIndirectChild depth cur coords.tail := by
  rw [CoherentFs.ensureIndirectChild, CoherentFs.ensureEntry, bind_assoc]
  congr 1
  funext blk
  dsimp only
  by_cases leaf : depth = 0
  · subst leaf
    by_cases hole : blk.get32 (coords.headD 0 * 4) = 0
    · rw [if_pos rfl, if_pos hole, if_pos hole]
      simp [CoherentFs.ensureIndirectChild]
    · rw [if_pos rfl, if_neg hole, if_neg hole]
      rfl
  · by_cases hole : blk.get32 (coords.headD 0 * 4) = 0
    · rw [if_neg leaf, if_pos hole, if_pos hole]
      simp [leaf]
    · rw [if_neg leaf, if_neg hole, if_neg hole]
      rfl

theorem OnlyTakes.ensureEntry (fs : CoherentFs) (inner : Bool) (b slot : Nat) :
    OnlyTakes (fs.ensureEntry inner b slot) := by
  refine bind (onImage _) fun blk => ite (bind (takeBlock fs) fun cur => ?_) (value _)
  refine ite (bind (zeroBlock fs _) fun _ => ?_) ?_
  · exact bind (lifted _) fun _ => bind (onImage _) fun _ => value _
  · exact bind (lifted _) fun _ => bind (onImage _) fun _ => value _

theorem OnlyTakes.ensureIndirectChild (fs : CoherentFs) (depth b : Nat) (coords : List Nat) :
    OnlyTakes (fs.ensureIndirectChild depth b coords) := by
  induction depth generalizing b coords with
  | zero => exact value _
  | succ depth inductionHypothesis =>
    rw [fs.ensureIndirectChild_succ]
    exact bind (ensureEntry fs _ _ _) fun cur => inductionHypothesis cur _

theorem OnlyTakes.ensureRoot (fs : CoherentFs) (root : Nat) : OnlyTakes (fs.ensureRoot root) :=
  bind (addrAt _) fun _ => ite
    (bind (takeBlock fs) fun _ => bind (setAddr _ _) fun _ => zeroBlock fs _) (value _)

theorem OnlyTakes.ensureDataBlock (fs : CoherentFs) (idx : Nat) : OnlyTakes (fs.ensureDataBlock idx) :=
  bind (lifted _) fun _ => ite
    (bind (addrAt _) fun _ => ite
      (bind (takeBlock fs) fun _ => bind (setAddr _ _) fun _ => value _) (value _))
    (bind (ensureRoot fs _) fun _ => bind (addrAt _) fun _ => ensureIndirectChild fs _ _ _)

section Programs

variable {fs : CoherentFs} {isize fsize n root : Nat} {last : Option Nat} {s : Session}
  {list : List Nat} {q : BlockPlace}

/-- The root of a tree is there afterwards. -/
theorem CoherentFs.Growable.ensureRoot (growable : fs.Growable isize fsize last s list)
    (inside : root < rootCount) (before : BlockPlace.first ⟨root, []⟩ < n) :
    fs.GrowEnds isize fsize last n (fs.ensureRoot root) s list
      fun _ t => fs.pointer t.image t.inode.toInode ⟨root, []⟩ ≠ 0 := by
  refine Ends.bind (.of_ok (addrAt_eq root s) (Ends.ite (fun hole => ?_) fun present => ?_))
  · refine growable.takeInto (fun b => .bind (.setAddr _ _) fun _ => .zeroBlock fs _)
      (p := ⟨root, []⟩) ⟨inside, IsPath.nil _⟩ before hole ?_
    rintro b rest t rfl took stock
    have known := growable.stock.inArea b List.mem_cons_self
    have fits := stock.inside b known
    have cleared : onImage (writeBlock (fs.partOff + b) fun _ => 0)
        { t with inode := t.inode.setAddr root b } =
        .ok () { t with
          inode := t.inode.setAddr root b
          image := t.image.setBlock (fs.partOff + b) fun _ => 0 } := by
      unfold onImage
      rw [writeBlock_inside fits]
    refine .bind (.update (.of_ok cleared ?_))
    obtain ⟨grown, here, nonzero⟩ := growable.fillRoot inside before hole took (u := { t with
      inode := t.inode.setAddr root b
      image := t.image.setBlock (fs.partOff + b) fun _ => 0 }) rfl rfl
      (t.image.setBlock_agreeExcept _ _)
      (stock.write known (List.nodup_cons.mp growable.stock.nodup).1 _)
      fun _ j _ => CoherentFs.entry_cleared fits j
    exact ⟨grown, by rw [here]; exact nonzero⟩
  · exact CoherentFs.GrowEnds.value growable present

/-- A direct block is there afterwards. -/
theorem CoherentFs.Growable.ensureDirect (growable : fs.Growable isize fsize last s list)
    (direct : root < nDirect) (before : BlockPlace.first ⟨root, []⟩ < n) :
    fs.GrowEnds isize fsize last n (do
      let cur ← addrAt root
      if cur = 0 then do
        let b ← fs.takeBlock
        setAddr root b
        pure b
      else pure cur) s list
      fun b t => b = fs.pointer t.image t.inode.toInode ⟨root, []⟩ ∧ b ≠ 0 := by
  refine Ends.bind (.of_ok (addrAt_eq root s) (Ends.ite (fun hole => ?_) fun present => ?_))
  · have inside : root < rootCount := Nat.lt_trans direct (by decide)
    refine growable.takeInto (fun b => .bind (.setAddr _ _) fun _ => .value _)
      (p := ⟨root, []⟩) ⟨inside, IsPath.nil _⟩ before hole ?_
    rintro b rest t rfl took stock
    have flat : rootHeight root = 0 := Nat.sub_eq_zero_of_le direct
    obtain ⟨grown, here, nonzero⟩ := growable.fillRoot inside before hole took
      (u := { t with inode := t.inode.setAddr root b }) rfl rfl (.refl _ _) stock
      fun tall => absurd flat tall
    exact .bind (.update (.value ⟨grown, here.symm, nonzero⟩))
  · exact CoherentFs.GrowEnds.value growable ⟨rfl, present⟩

/-- The pointer block is written with the new entry, on an image that has the new block cleared
where that is a pointer block. -/
theorem CoherentFs.Growable.putSlot {b c slot : Nat} {rest : List Nat} {t : Session} {image : Image}
    (growable : fs.Growable isize fsize last s (b :: rest)) (valid : q.Valid) (tall : q.height ≠ 0)
    (here : fs.pointer s.image s.inode.toInode q = c) (present : c ≠ 0)
    (small : slot < indirectCount) (before : (q.slot slot).first < n)
    (hole : fs.entry s.image c slot = 0) (took : fs.Took s b t)
    (only : Image.AgreeExcept (· = fs.partOff + b) t.image image)
    (clear : (q.slot slot).height ≠ 0 → ∀ i < indirectCount, fs.entry image b i = 0)
    (stock : fs.Stock isize fsize last image rest) :
    Ends (do
      let blk ← ofExcept (writeIndirectEntry (s.image.readBlock (fs.partOff + c)) slot b)
      onImage (writeBlock (fs.partOff + c) blk)
      pure b) { t with image := image }
      (fun a u => fs.Grown isize fsize last n s (b :: rest) [b] rest u ∧
        a = fs.pointer u.image u.inode.toInode (q.slot slot) ∧ a ≠ 0) noRaise := by
  have found : fs.pointer s.image s.inode.toInode q ≠ 0 := here ▸ present
  have known := growable.stock.inArea b List.mem_cons_self
  have knownQ : DataArea isize fsize c := here ▸ growable.map.area valid found
  have fitsQ := stock.inside c knownQ
  have apart : c ≠ b := fun eq =>
    growable.apart valid found (here.trans eq ▸ List.mem_cons_self)
  refine .bind (.lifted (fun blk written => ?_) fun e failed => ?_)
  swap
  · rw [writeIndirectEntry, if_neg (Nat.not_le.mpr small)] at failed
    cases failed
  rw [writeIndirectEntry, if_neg (Nat.not_le.mpr small)] at written
  have block := (Except.ok.inj written).symm
  have ran : onImage (writeBlock (fs.partOff + c) blk) { t with image := image } =
      .ok () { t with image := image.setBlock (fs.partOff + c) blk } := by
    unfold onImage
    rw [writeBlock_inside fitsQ]
  refine .bind (.of_ok ran (.value ?_))
  have empty : fs.pointer s.image s.inode.toInode (q.slot slot) = 0 := by
    rw [fs.pointer_slot, if_neg found, here, hole]
  have used : c ∉ rest := fun member =>
    growable.apart valid found (here ▸ List.mem_cons_of_mem _ member)
  have entries : ∀ i < indirectCount,
      fs.entry (image.setBlock (fs.partOff + c) blk) (fs.pointer s.image s.inode.toInode q) i =
        if i = slot then b else fs.entry s.image (fs.pointer s.image s.inode.toInode q) i := by
    intro i smallI
    have field : fs.entry (image.setBlock (fs.partOff + c) blk) c i = blk.get32 (i * 4) := by
      refine Buffer.get32_congr _ fun n near => Image.readBlock_setBlock_same _ fitsQ ?_
      unfold indirectCount at smallI
      unfold blockSize
      omega
    rw [here, field, block]
    by_cases same : i = slot
    · rw [if_pos same, same]
      refine Buffer.get32_set32_same.trans (Nat.mod_eq_of_lt ?_)
      obtain ⟨_, _, _, _, sees, _⟩ := growable.stock.holds
      have bound := (s.image.readBlock (fs.partOff + 1)).get32_lt sbFsize
      have fsizeEq := sees.view.fsize
      have high := known.2
      omega
    · rw [if_neg same]
      exact Buffer.get32_set32_apart (by omega)
  have cleared : (q.slot slot).height ≠ 0 → ∀ i < indirectCount,
      fs.entry (image.setBlock (fs.partOff + c) blk) b i = 0 := by
    intro tall' i smallI
    have other : fs.partOff + b ≠ fs.partOff + c := fun eq => apart (Nat.add_left_cancel eq).symm
    have kept := image.readBlock_setBlock_other blk other
    unfold CoherentFs.entry at clear ⊢
    rw [kept]
    exact clear tall' i smallI
  obtain ⟨grown, there, nonzero⟩ := growable.fillSlot valid tall found small before empty took
    (u := { t with image := image.setBlock (fs.partOff + c) blk }) rfl rfl
    ((only.mono fun _ => Or.inl).trans
      ((image.setBlock_agreeExcept _ _).mono fun _ eq => Or.inr (here.symm ▸ eq)))
    entries (stock.write knownQ used _) cleared
  exact ⟨grown, there.symm, nonzero⟩

/-- The block at a slot is there afterwards. -/
theorem CoherentFs.Growable.ensureEntry (growable : fs.Growable isize fsize last s list)
    (valid : q.Valid) (tall : q.height ≠ 0)
    (present : fs.pointer s.image s.inode.toInode q ≠ 0) {slot : Nat}
    (small : slot < indirectCount) (before : (q.slot slot).first < n) :
    fs.GrowEnds isize fsize last n
      (fs.ensureEntry (decide ((q.slot slot).height ≠ 0)) (fs.pointer s.image s.inode.toInode q)
        slot) s list
      fun b t => b = fs.pointer t.image t.inode.toInode (q.slot slot) ∧ b ≠ 0 := by
  have found : fs.pointer s.image s.inode.toInode (q.slot slot) =
      fs.entry s.image (fs.pointer s.image s.inode.toInode q) slot := by
    rw [fs.pointer_slot, if_neg present]
  refine Ends.bind (.of_ok (readBlock_session _ s) (Ends.ite (fun hole => ?_) fun there => ?_))
  swap
  · exact CoherentFs.GrowEnds.value growable ⟨found.symm, there⟩
  refine growable.takeInto (fun b => ?_) (valid.slot tall small) before (found.trans hole) ?_
  · refine .ite (.bind (.zeroBlock fs _) fun _ => ?_) ?_
    · exact .bind (.lifted _) fun _ => .bind (.onImage _) fun _ => .value _
    · exact .bind (.lifted _) fun _ => .bind (.onImage _) fun _ => .value _
  rintro b rest t rfl took stock
  have known := growable.stock.inArea b List.mem_cons_self
  have fits := stock.inside b known
  have unlisted : b ∉ rest := (List.nodup_cons.mp growable.stock.nodup).1
  refine .ite (fun inner => ?_) fun leaf => ?_
  · have cleared : onImage (writeBlock (fs.partOff + b) fun _ => 0) t =
        .ok () { t with image := t.image.setBlock (fs.partOff + b) fun _ => 0 } := by
      unfold onImage
      rw [writeBlock_inside fits]
    refine .bind (.of_ok cleared ?_)
    exact growable.putSlot valid tall rfl present small before hole took (t.image.setBlock_agreeExcept _ _)
      (fun _ i _ => CoherentFs.entry_cleared fits i) (stock.write known unlisted _)
  · exact growable.putSlot valid tall rfl present small before hole took (.refl _ _)
      (fun tall' => absurd (decide_eq_true tall') leaf) stock

/-- The blocks along a path are there afterwards. -/
theorem CoherentFs.Growable.ensureChild {coords : List Nat}
    (growable : fs.Growable isize fsize last s list)
    (valid : BlockPlace.Valid ⟨q.root, q.path ++ coords⟩) (whole : coords.length = q.height)
    (present : fs.pointer s.image s.inode.toInode q ≠ 0)
    (before : BlockPlace.first ⟨q.root, q.path ++ coords⟩ < n) :
    fs.GrowEnds isize fsize last n
      (fs.ensureIndirectChild coords.length (fs.pointer s.image s.inode.toInode q) coords) s list
      fun b t => b = fs.pointer t.image t.inode.toInode ⟨q.root, q.path ++ coords⟩ ∧ b ≠ 0 := by
  induction coords generalizing q s list with
  | nil =>
    rw [List.append_nil]
    exact CoherentFs.GrowEnds.value growable ⟨rfl, present⟩
  | cons slot rest inductionHypothesis =>
    have regroup : q.path ++ slot :: rest = (q.slot slot).path ++ rest :=
      (List.append_assoc q.path [slot] rest).symm
    have tall : q.height ≠ 0 := by
      rw [← whole]
      exact Nat.succ_ne_zero _
    have small : slot < indirectCount :=
      valid.2.2 slot (List.mem_append_right _ List.mem_cons_self)
    have above : q.Valid := by
      refine ⟨valid.1, ?_, fun i member => valid.2.2 i (List.mem_append_left _ member)⟩
      unfold BlockPlace.height at tall
      omega
    have height : (q.slot slot).height = rest.length := by
      rw [BlockPlace.height_slot, ← whole]
      rfl
    rw [List.length_cons, fs.ensureIndirectChild_succ]
    have first : (q.slot slot).first < n := by
      rw [regroup] at valid before
      exact Nat.lt_of_le_of_lt (BlockPlace.first_le valid) before
    have entry := growable.ensureEntry above tall present small first
    rw [height] at entry
    refine entry.bind growable.stock.nodup (fun _ => .ensureIndirectChild fs _ _ _)
      fun cur t taken left grown found => ?_
    obtain ⟨rfl, nonzero⟩ := found
    have below := inductionHypothesis grown.growable (regroup ▸ valid) height.symm nonzero
      (regroup ▸ before)
    rw [regroup]
    exact below

/-- The data block at an index is there afterwards. -/
theorem CoherentFs.Growable.ensureDataBlock (growable : fs.Growable isize fsize last s list)
    {idx : Nat} (before : idx < n) (small : idx < maxBlocks) :
    fs.GrowEnds isize fsize last n (fs.ensureDataBlock idx) s list fun b t =>
      b = fs.pointer t.image t.inode.toInode (dataPlace idx) ∧ b ≠ 0 := by
  obtain ⟨depth, slot, classified, length, root⟩ := classifyIndex_eq small
  obtain ⟨valid, leaf, first⟩ := dataPlace_spec small
  rw [← first] at before
  unfold CoherentFs.ensureDataBlock
  rw [classified]
  change fs.GrowEnds isize fsize last n (if depth = 0 then _ else _ : WriteM Nat) s list _
  clear first
  generalize dataPlace idx = p at *
  obtain ⟨r, path⟩ := p
  dsimp only at length root
  by_cases direct : depth = 0
  · have none : path = [] := List.eq_nil_of_length_eq_zero (length.trans direct)
    subst none
    rw [if_pos direct] at root ⊢
    subst root
    have low : slot.getD 0 < nDirect := by
      unfold BlockPlace.height rootHeight at leaf
      dsimp only [List.length_nil] at leaf
      omega
    exact growable.ensureDirect low before
  · rw [if_neg direct] at root ⊢
    subst root
    rw [← List.nil_append path] at valid before
    have root : BlockPlace.first ⟨nDirect + depth - 1, []⟩ < n :=
      Nat.lt_of_le_of_lt (BlockPlace.first_le (p := ⟨nDirect + depth - 1, []⟩) valid) before
    refine (growable.ensureRoot valid.1 root).bind growable.stock.nodup
      (fun _ => .bind (.addrAt _) fun _ => .ensureIndirectChild fs _ _ _)
      fun _ t taken rest grown present => ?_
    refine Ends.bind (.of_ok (addrAt_eq _ t) ?_)
    have whole : path.length = BlockPlace.height ⟨nDirect + depth - 1, []⟩ := by
      have short := valid.2.1
      unfold BlockPlace.height at leaf ⊢
      dsimp only [List.length_nil, List.nil_append] at leaf short ⊢
      omega
    have child := grown.growable.ensureChild valid whole present before
    rw [length, List.nil_append] at child
    exact child

/-- `_grow_to_n_blocks` fills the holes below index `n` and returns the data blocks. -/
theorem CoherentFs.Growable.growToNBlocks (growable : fs.Growable isize fsize last s list)
    (n : Nat) :
    fs.GrowEnds isize fsize last n (fs.growToNBlocks n) s list fun blocks t =>
      n ≤ maxBlocks ∧
      blocks = (List.range n).map
        (fun idx => fs.pointer t.image t.inode.toInode (dataPlace idx)) ∧
      ∀ idx < n, fs.pointer t.image t.inode.toInode (dataPlace idx) ≠ 0 := by
  let P : Nat → List Nat → Session → Prop := fun i blocks t =>
    i ≤ maxBlocks ∧
    blocks = (List.range i).map (fun idx => fs.pointer t.image t.inode.toInode (dataPlace idx)) ∧
    ∀ idx < i, fs.pointer t.image t.inode.toInode (dataPlace idx) ≠ 0
  have round : ∀ i blocks t taken rest, i < n → fs.Grown isize fsize last n s list taken rest t →
      P i blocks t →
      fs.GrowEnds isize fsize last n (do
        let b ← fs.ensureDataBlock i
        pure (blocks ++ [b])) t rest (P (i + 1)) := by
    rintro i blocks t taken rest below grown ⟨few, rfl, present⟩
    by_cases small : i < maxBlocks
    swap
    · have large := Nat.not_lt.mp small
      refine Ends.bind (.of_error (fs.ensureDataBlock_large large t) (Or.inl
        ⟨[], rest, .start grown.growable, .large (Nat.lt_of_le_of_lt large below) fun idx inside => ?_⟩))
      exact present idx (Nat.lt_of_lt_of_le inside large)
    refine (grown.growable.ensureDataBlock below small).bind grown.growable.stock.nodup
      (fun _ => .value _) ?_
    rintro b u taken' rest' grown' ⟨rfl, nonzero⟩
    have kept : ∀ idx < i, fs.pointer u.image u.inode.toInode (dataPlace idx) =
        fs.pointer t.image t.inode.toInode (dataPlace idx) := fun idx less =>
      grown'.old (dataPlace_spec (Nat.lt_trans less small)).1 (present idx less)
    refine CoherentFs.GrowEnds.value grown'.growable ⟨small, ?_, fun idx less => ?_⟩
    · rw [List.range_succ, List.map_append, List.map_singleton]
      congr 1
      exact List.map_congr_left fun idx member => (kept idx (List.mem_range.mp member)).symm
    · by_cases here : idx = i
      · rw [here]
        exact nonzero
      · have before : idx < i := by omega
        rw [kept idx before]
        exact present idx before
  refine Ends.foldlM_range (fun i blocks t =>
    (∃ taken rest, fs.Grown isize fsize last n s list taken rest t ∧ P i blocks t) ∨
      fs.Exhausts last n s list t) n (Or.inl ⟨[], list, .start growable, Nat.zero_le _, rfl, nofun⟩) ?_
  rintro i blocks t below (⟨taken, rest, grown, holds⟩ | exhausts)
  · exact (round i blocks t taken rest below grown holds).after growable.stock.nodup grown
  · exact exhausts.after (.bind (.ensureDataBlock fs i) fun _ => .value _)

end Programs

end C900
