import C900.Fs.NewInode

/-!
# The ways a creation ends

`create_file` and `create_dir` end with the new file in its parent, or one of their steps raises.
The handlers run after an `FSError` only; after another exception the new inode stays where it is.
-/

namespace C900

/-- The handler has run, if the exception is one that it catches. -/
def CoherentFs.Handled (fs : CoherentFs) (isize fsize : Nat) (e : FsError) (image₀ : Image)
    (list₀ : List Nat) (s : Session) (list : List Nat) (t : Session) : Prop :=
  if e.isFsError then fs.Dismissed isize fsize image₀ list₀ s list t else t = s

/-- `create_file` has returned. -/
structure CoherentFs.FileMade (fs : CoherentFs) (isize fsize : Nat) (last : Option Nat)
    (name : PosixPath) (data : List (BitVec 8)) (s : Session) (list : List Nat) (t : Session) (list' : List Nat) :
    Prop where
  steps : ∃ s₁ s₂ list₂ parent, fs.Begun isize fsize last s list s₁ list ∧
    fs.Filled isize fsize last data s₁ list s₂ list₂ ∧
    fs.Linked isize fsize last s.inode s₂ list₂ parent t list' ∧
    fs.EntryMade isize fsize last name s.inode s₂ list₂ parent t list' ∧
    s₁.inode.isFile = true ∧ s₁.inode.nlinks = 1

/-- How `create_file` raises. -/
inductive CoherentFs.FileRaises (fs : CoherentFs) (isize fsize : Nat) (last : Option Nat)
    (name : PosixPath) (data : List (BitVec 8)) (s : Session) (list : List Nat) (e : FsError) :
    Session → Prop
  | refused (invalid : validateName name = .error e) : fs.FileRaises isize fsize last name data s list e s
  | missed {t : Session} (calls : t.calls = s.calls)
    (missed : fs.MissedInode isize fsize last s.image list e t.image) :
    fs.FileRaises isize fsize last name data s list e t
  | full {s₁ s₂ t : Session} {taken rest : List Nat}
    (begun : fs.Begun isize fsize last s list s₁ list)
    (grown : fs.Grown isize fsize last (blocksOf data.length) s₁ list taken rest s₂)
    (stops : fs.GrowthStops last (blocksOf data.length) rest s₂ e)
    (dismissed : fs.Dismissed isize fsize s₁.image list s₂ rest t) :
    fs.FileRaises isize fsize last name data s list e t
  | entry {s₁ s₂ t : Session} {list₂ : List Nat}
    (begun : fs.Begun isize fsize last s list s₁ list)
    (filled : fs.Filled isize fsize last data s₁ list s₂ list₂)
    (refused : fs.EntryRefused { s₂ with inode := s.inode } name s₁.inode.ino e)
    (handled : fs.Handled isize fsize e s₂.image list₂ s₂ list₂ t) :
    fs.FileRaises isize fsize last name data s list e t
  | parent {s₁ s₂ s₃ t : Session} {list₂ taken rest : List Nat}
    (begun : fs.Begun isize fsize last s list s₁ list)
    (filled : fs.Filled isize fsize last data s₁ list s₂ list₂)
    (half : fs.HalfGrown isize fsize last name s.inode e s₂ list₂ taken s₃ rest)
    (handled : fs.Handled isize fsize e s₃.image rest s₃ rest t) :
    fs.FileRaises isize fsize last name data s list e t

/-- `create_dir` has returned: the parent is written once more, with its new link. -/
structure CoherentFs.DirMade (fs : CoherentFs) (isize fsize : Nat) (last : Option Nat)
    (name : PosixPath) (s : Session) (list : List Nat) (t : Session) (list' : List Nat) : Prop where
  narrow : s.inode.ino ≤ 65535
  steps : ∃ s₁ s₂ b rest entered parent, list = b :: rest ∧
    fs.Begun isize fsize last s list s₁ rest ∧
    fs.Linked isize fsize last s.inode s₁ rest entered s₂ list' ∧
    fs.EntryMade isize fsize last name s.inode s₁ rest entered s₂ list' ∧
    fs.Linked isize fsize last entered s₂ list' parent t list' ∧
    fs.EmptyDir s₁.image s₁.inode ∧ parent.nlinks = entered.nlinks + 1 ∧
    parent.toInode = entered.toInode ∧
    Image.AgreeExcept (· = fs.inodeBlock s.inode.ino) s₂.image t.image

/-- How `create_dir` raises. -/
inductive CoherentFs.DirRaises (fs : CoherentFs) (isize fsize : Nat) (last : Option Nat)
    (name : PosixPath) (s : Session) (list : List Nat) (e : FsError) : Session → Prop
  | refused (invalid : validateName name = .error e) : fs.DirRaises isize fsize last name s list e s
  | missed {t : Session} (calls : t.calls = s.calls)
    (missed : fs.MissedInode isize fsize last s.image list e t.image) :
    fs.DirRaises isize fsize last name s list e t
  | full {t : Session} {ino : Nat} (slot : fs.FreeSlot isize s.image ino)
    (left : fs.InodeLeft s.image)
    (alone : (last = none ∧ list = [] ∧ e = .outOfFreeBlocks) ∨
      ∃ b count, last = some b ∧ list = [b] ∧ e = .badChainNfree count)
    (sound : fs.Sound isize fsize last t.image list)
    (rewrites : fs.Rewrites isize ino list s.image t.image)
    (unused : fs.stat t.image ino = none)
    (calls : t.calls = .gaveInode ino :: .tookInode ino :: s.calls) :
    fs.DirRaises isize fsize last name s list e t
  | wide {t : Session} {ino b : Nat} {rest : List Nat} (slot : fs.FreeSlot isize s.image ino)
    (left : fs.InodeLeft s.image) (split : list = b :: rest) (large : 65535 < s.inode.ino)
    (raised : e = .packOutside) (only : fs.SbOnly s.image t.image)
    (stock : fs.Stock isize fsize last t.image rest)
    (calls : t.calls = .tookBlock b :: .tookInode ino :: s.calls) :
    fs.DirRaises isize fsize last name s list e t
  | entry {s₁ t : Session} {b : Nat} {rest : List Nat} (split : list = b :: rest)
    (begun : fs.Begun isize fsize last s list s₁ rest) (narrow : s.inode.ino ≤ 65535)
    (refused : fs.EntryRefused { s₁ with inode := s.inode } name s₁.inode.ino e)
    (handled : fs.Handled isize fsize e s₁.image rest s₁ rest t) :
    fs.DirRaises isize fsize last name s list e t
  | parent {s₁ s₂ t : Session} {b : Nat} {rest taken rest' : List Nat} (split : list = b :: rest)
    (begun : fs.Begun isize fsize last s list s₁ rest) (narrow : s.inode.ino ≤ 65535)
    (half : fs.HalfGrown isize fsize last name s.inode e s₁ rest taken s₂ rest')
    (handled : fs.Handled isize fsize e s₂.image rest' s₂ rest' t) :
    fs.DirRaises isize fsize last name s list e t

/-- The blocks that `create_file` takes if there are enough: those of the file, and those for the
holes of the directory. -/
def CoherentFs.fileNeeds (fs : CoherentFs) (image : Image) (parent : Inode) (data : List (BitVec 8)) :
    Nat :=
  (placesBelow (blocksOf data.length)).length + (fs.entryHoles image parent).length

/-- The blocks that `create_dir` takes if there are enough. -/
def CoherentFs.dirNeeds (fs : CoherentFs) (image : Image) (parent : Inode) : Nat :=
  1 + (fs.entryHoles image parent).length

section Rules

variable {fs : CoherentFs} {isize fsize : Nat} {last : Option Nat} {s t : Session}
  {list : List Nat} {e : FsError} {α : Type}

/-- The handler runs for an `FSError`, which is then raised again. -/
theorem Ends.onFsError {body : WriteM α} {handler : WriteM Unit} {Q : α → Session → Prop}
    {E : FsError → Session → Prop}
    (ends : Ends body s Q fun e t =>
      if e.isFsError then Ends handler t (fun _ => E e) E else E e t) :
    Ends (C900.onFsError body handler) s Q E := by
  refine .caught (ends.mono (fun _ _ => id) fun e t holds => ?_)
  by_cases caught : e.isFsError = true
  · rw [if_pos caught] at holds
    refine .ite (fun _ => .bind (holds.mono ?_ fun _ _ => id)) (absurd caught)
    exact fun _ _ after => .raise after
  · rw [if_neg caught] at holds
    exact .ite (fun yes => absurd yes caught) fun _ => .raise holds

/-- A block of the image is written. -/
theorem Ends.writeBlock {bno : Nat} {data : Buffer} {Q : Unit → Session → Prop}
    {E : FsError → Session → Prop} (inside : s.image.hasBlock bno = true)
    (holds : Q () { s with image := s.image.setBlock bno data }) :
    Ends (onImage (C900.writeBlock bno data)) s Q E := by
  refine .of_ok ?_ holds
  unfold onImage
  rw [writeBlock_inside inside]

/-- The growth stops with an `FSError`. -/
theorem CoherentFs.GrowthStops.isFsError {n : Nat} {rest : List Nat}
    (stops : fs.GrowthStops last n rest t e) : e.isFsError = true := by
  cases stops with
  | exhausted => rfl
  | badLink => rfl
  | large => rfl

theorem CoherentFs.EntryStops.isFsError {off n : Nat} {rest : List Nat}
    (stops : fs.EntryStops last off n rest t e) : e.isFsError = true := by
  rcases stops with stops | ⟨-, -, bno, len, rfl⟩
  · exact stops.isFsError
  · rfl

/-- A handler takes no calls back. -/
theorem Overdrawn.handled {need : Nat} {handler : WriteM Unit}
    (overdrawn : Overdrawn last need list s t) (logs : Logs handler) (e : FsError)
    {E : FsError → Session → Prop} (holds : ∀ e u, Overdrawn last need list s u → E e u) :
    if e.isFsError then Ends handler t (fun _ => E e) E else E e t := by
  split
  · exact (logs t).mono (fun _ _ more => holds e _ (overdrawn.mono more))
      fun e _ more => holds e _ (overdrawn.mono more)
  · exact holds e t overdrawn

/-- The handler gives the new inode up, if it runs. -/
theorem CoherentFs.handled {handler : WriteM Unit} {image₀ : Image} {list₀ : List Nat}
    {P : Session → Prop} {E : FsError → Session → Prop}
    (dismissed : Ends handler s (fun _ t => fs.Dismissed isize fsize image₀ list₀ s list t) noRaise)
    (e : FsError) (holds : ∀ t, fs.Handled isize fsize e image₀ list₀ s list t → P t) :
    if e.isFsError then Ends handler s (fun _ => P) E else P s := by
  split
  · next caught =>
    exact dismissed.mono (fun _ t gone => holds t ((if_pos caught).mpr gone)) fun _ _ => False.elim
  · next uncaught => exact holds s ((if_neg uncaught).mpr rfl)

end Rules

section File

variable {fs : CoherentFs} {isize fsize : Nat} {last : Option Nat} {s t : Session}
  {list list' : List Nat} {name : PosixPath} {data : List (BitVec 8)} {mode : Nat}

/-- `create_file` in a directory. -/
theorem CoherentFs.Sound.createFile (sound : fs.Sound isize fsize last s.image list)
    (owner : fs.Owner isize s.image s.inode.ino s.inode.toInode) :
    Ends (fs.createFile name data mode) s
      (fun _ t => (∃ list', fs.FileMade isize fsize last name data s list t list') ∨
        Overdrawn last (fs.fileNeeds s.image s.inode.toInode data) list s t)
      fun e t => fs.FileRaises isize fsize last name data s list e t ∨
        Overdrawn last (fs.fileNeeds s.image s.inode.toInode data) list s t := by
  refine .bind (.lifted (fun _ _ => ?_) fun e invalid => Or.inl (.refused invalid))
  refine .bind (.state (.bind (sound.takeInode.mono ?_ ?_)))
  swap
  · rintro e t ⟨-, calls, missed⟩
    exact Or.inl (.missed calls missed)
  rintro ino t ⟨-, calls, left, took⟩
  refine .bind (.of_ok (t := { t with clock := fun i => t.clock (i + 1) }) rfl (.bind (.update ?_)))
  have kind : (mode &&& 0xFFF ||| sIfreg) &&& 0xF000 = sIfreg := newMode_kind (by decide)
  refine Ends.onFsError (.bind (Ends.mono (sound.consistent.begin [] left took.slot took.hand
    (Image.AgreeExcept.mono took.only fun _ => Or.inl) took.stock (fun _ => id) calls
    (fun _ none => by cases none) rfl ?_ ?_ ?_ ?_ ?_) ?_ fun _ _ => False.elim))
  · exact newMode_lt (by decide)
  · exact Or.inl (beq_iff_eq.mpr kind)
  · exact Nat.two_pow_pos 32
  · exact fun image => newInode_ownMap fs _ image _ _ _ _ _
  · refine fun image x => (or_iff_left ?_).symm
    rintro ⟨nonzero, p, -, here⟩
    exact nonzero (here.symm.trans (newInode_pointer fs image _ _ _ _ _ p))
  rintro - s₁ ⟨same, -, begun⟩
  have file : s₁.inode.isFile = true := by
    rw [same]
    exact beq_iff_eq.mpr kind
  have empty : s₁.inode.size = 0 := by rw [same]; rfl
  obtain rfl : s₁.inode.ino = ino := by rw [same]; rfl
  have there := begun.parent sound.consistent owner
  have ne := begun.slot.ne_owner owner
  have handler : Logs (do
      fs.shrinkToNBlocks 0
      fs.giveInode s₁.inode.ino) :=
    .bind (.shrinkToNBlocks fs 0) fun _ => .giveInode fs _
  have first : ∀ {u}, Overdrawn last
      (fs.holes s₁.image s₁.inode.toInode (blocksOf data.length)).length list s₁ u →
      Overdrawn last (fs.fileNeeds s.image s.inode.toInode data) list s u := by
    intro u overdrawn
    rw [CoherentFs.holes_empty begun.blank] at overdrawn
    refine (overdrawn.after begun.balanced (Nat.zero_add _).symm).le ?_
    rw [Nat.zero_add]
    exact Nat.le_add_right _ _
  refine .bind ((begun.child.writeFile data file
    (by rw [empty]; exact Nat.zero_le _)).mono ?_ ?_)
  swap
  · rintro e s₂ (⟨taken, rest, grown, stops⟩ | overdrawn)
    · have ino : s₂.inode.ino = s₁.inode.ino := by rw [grown.inode]
      rw [if_pos stops.isFsError, ← ino]
      refine (begun.child.pending_grown grown).dismiss.mono ?_ fun _ _ => False.elim
      exact fun _ t dismissed => Or.inl (.full begun grown stops dismissed)
    · exact (first overdrawn).handled handler _ fun _ _ => Or.inr
  rintro - s₂ (⟨list₂, filled⟩ | overdrawn)
  swap
  · refine .bind (Ends.mono (Logs.onParent s.inode (.addDirEntry fs name s₁.inode.ino) s₂) ?_ ?_)
    · exact fun _ _ more => .value (Or.inr ((first overdrawn).mono more))
    · exact fun e _ more => ((first overdrawn).mono more).handled handler _ fun _ _ => Or.inr
  have holding := begun.filled sound.consistent filled
  have second : ∀ {u}, Overdrawn last (fs.entryHoles s₂.image s.inode.toInode).length list₂ s₂ u →
      Overdrawn last (fs.fileNeeds s.image s.inode.toInode data) list s u := by
    intro u overdrawn
    rw [(holding.others owner).entryHoles] at overdrawn
    exact overdrawn.after holding.balanced holding.length
  have ino := filled.ino
  rw [← ino] at ne ⊢
  refine .bind ((filled.child.addDirEntry name
    (filled.parent begun.child (ino ▸ ne.symm) there) ne).mono ?_ ?_)
  · rintro parent t (⟨list', linked, made⟩ | overdrawn)
    · exact .value (Or.inl ⟨list', ⟨s₁, s₂, list₂, parent, begun, filled, linked, made, file, by rw [same]; rfl⟩⟩)
    · exact .value (Or.inr (second overdrawn))
  rintro e s₃ (⟨rfl, refused⟩ | ⟨taken, rest, half⟩ | overdrawn)
  · refine CoherentFs.handled filled.child.pending.dismiss e fun t handled => ?_
    exact Or.inl (.entry begun filled (ino ▸ refused) handled)
  · rw [← half.same]
    refine CoherentFs.handled half.child.pending.dismiss e fun t handled => ?_
    exact Or.inl (.parent begun filled half handled)
  · exact (second overdrawn).handled (ino ▸ handler) _ fun _ _ => Or.inr

end File

section Directory

variable {fs : CoherentFs} {isize fsize : Nat} {last : Option Nat} {s t : Session}
  {list list' : List Nat} {name : PosixPath} {mode : Nat}

/-- The link count of the parent is written after its entry. -/
theorem CoherentFs.Begun.relink {s₁ s₂ : Session} {b now : Nat} {rest : List Nat}
    {entered : OpenInode} (begun : fs.Begun isize fsize last s list s₁ rest)
    (linked : fs.Linked isize fsize last s.inode s₁ rest entered s₂ list')
    (made : fs.EntryMade isize fsize last name s.inode s₁ rest entered s₂ list')
    (split : list = b :: rest) (ne : s₁.inode.ino ≠ s.inode.ino) (narrow : s.inode.ino ≤ 65535)
    (empty : fs.EmptyDir s₁.image s₁.inode) :
    Ends (do
      let _ ← onParent { entered with nlinks := entered.nlinks + 1, mtime := now, ctime := now }
        fs.writeInode) s₂
      (fun _ t => (∃ list', fs.DirMade isize fsize last name s list t list') ∨
        Overdrawn last (fs.dirNeeds s.image s.inode.toInode) list s t) noRaise := by
  have ino : entered.ino = s.inode.ino := linked.revised.ino
  have there : fs.Owner isize s₂.image entered.ino entered.toInode := ino ▸ linked.owner
  have writes := linked.child.consistent.writeInode (s := { s₂ with inode := entered }) there
    ({ entered with nlinks := entered.nlinks + 1, mtime := now, ctime := now }) rfl rfl rfl
  refine .bind ((Ends.onParent (s := s₂) writes).mono ?_ ?_)
  · rintro parent t ⟨same, wrote, -, only, revised⟩
    have small : parent.size < 2 ^ 32 := by
      have size := congrArg (fun inode : OpenInode => inode.toInode.size) wrote
      change parent.size = entered.size at size
      rw [size]
      exact linked.narrow
    have again := linked.child.linked there (by rw [linked.same, ino]; exact ne) revised small same
    have links : parent.nlinks = entered.nlinks + 1 := congrArg OpenInode.nlinks wrote
    have fields := congrArg OpenInode.toInode wrote
    change parent.toInode = entered.toInode at fields
    exact .value (Or.inl ⟨list', narrow, s₁, s₂, b, rest, entered, parent, split, begun, linked, made,
      again, empty, links, fields, ino ▸ only⟩)
  · rintro e t ⟨-, inode, impossible⟩
    exact impossible

/-- `create_dir` in a directory. -/
theorem CoherentFs.Sound.createDir (sound : fs.Sound isize fsize last s.image list)
    (owner : fs.Owner isize s.image s.inode.ino s.inode.toInode) :
    Ends (fs.createDir name mode) s
      (fun _ t => (∃ list', fs.DirMade isize fsize last name s list t list') ∨
        Overdrawn last (fs.dirNeeds s.image s.inode.toInode) list s t)
      fun e t => fs.DirRaises isize fsize last name s list e t ∨
        Overdrawn last (fs.dirNeeds s.image s.inode.toInode) list s t := by
  refine .bind (.lifted (fun _ _ => ?_) fun e invalid => Or.inl (.refused invalid))
  refine .bind (.state (.bind (sound.takeInode.mono ?_ ?_)))
  swap
  · rintro e t ⟨-, calls, missed⟩
    exact Or.inl (.missed calls missed)
  rintro ino t ⟨inode, calls, left, took⟩
  refine .bind (Ends.onFsError (took.stock.takeBlock.mono ?_ ?_))
  swap
  · rintro e u ⟨-, calls', only, kept, stock, alone⟩
    have caught : e.isFsError = true := by
      rcases alone with ⟨-, -, rfl⟩ | ⟨_, _, -, -, rfl⟩
      · rfl
      · rfl
    rw [if_pos caught]
    have hand := took.hand.keep kept fun other _ => only.stat other
    have frame : Image.AgreeExcept (· = fs.partOff + 1) s.image u.image :=
      Image.AgreeExcept.trans took.only only
    have rewrites := (CoherentFs.Rewrites.refl fs isize ino list s.image).trans_data
      (frame.mono fun _ => Or.inl)
    refine (hand.dismiss sound.consistent rewrites stock Or.inl).mono ?_ fun _ _ => False.elim
    rintro - v ⟨-, calls'', sound', rewrites', unused⟩
    exact Or.inl (.full took.slot left alone sound' rewrites' unused (by rw [calls'', calls', calls]))
  rintro b u (⟨rest, split, took', stock⟩ | ⟨single, drained⟩)
  swap
  · -- The last free block is taken, and only the log counts.
    have overdrawn : Overdrawn last (fs.dirNeeds s.image s.inode.toInode) list s u :=
      ⟨drained.spent.after ⟨[.tookInode ino], calls, rfl⟩, single ▸ Nat.le_add_right _ _⟩
    refine Ends.mono (Q := fun _ t => u.calls <:+ t.calls) (E := fun _ t => u.calls <:+ t.calls)
      ?_ (fun _ _ more => Or.inr (overdrawn.mono more)) fun _ _ more => Or.inr (overdrawn.mono more)
    refine Logs.bind (.lifted _) (fun dot => .bind (.lifted _) fun dotDot => .bind .timeNow
      fun now => .bind (.update ?_) fun _ => .bind (.onFsError ?_ ?_) fun parent => ?_) u
    · exact fun _ => rfl
    · exact .bind (.onImage _) fun _ => .bind (.writeInode fs) fun _ =>
        .onParent _ (.addDirEntry fs _ _)
    · exact .bind (.giveBlock fs _) fun _ => .giveInode fs _
    · exact .bind (.onParent _ (.writeInode fs)) fun _ => .value _
  have calls' : u.calls = .tookBlock b :: .tookInode ino :: s.calls := by rw [took'.calls, calls]
  have only : fs.SbOnly s.image u.image := Image.AgreeExcept.trans took.only took'.only
  refine .bind (.lifted (fun dot self => ?_) fun e failed => ?_)
  swap
  · rcases encodeDirent_error failed with ⟨wide, -⟩ | ⟨⟨c, member, wide⟩, -⟩
    · exact absurd took.small (by omega)
    · rw [List.mem_singleton.mp member] at wide
      exact absurd wide (by decide)
  refine .bind (.lifted (fun dotDot encoded => ?_) fun e failed => ?_)
  swap
  · rcases encodeDirent_error failed with ⟨wide, raised⟩ | ⟨⟨c, member, wide⟩, -⟩
    · exact Or.inl (.wide took.slot left split wide raised only stock calls')
    · have dot : c = '.' := by
        unfold PosixPath.dotDot at member
        rcases List.mem_cons.mp member with here | here
        · exact here
        · exact List.mem_singleton.mp here
      rw [dot] at wide
      exact absurd wide (by decide)
  have narrow := (encodeDirent_ok encoded).1
  refine .bind (.of_ok (t := { u with clock := fun i => u.clock (i + 1) }) rfl (.bind (.update ?_)))
  have known : DataArea isize fsize b := took.stock.inArea b (split ▸ List.mem_cons_self)
  have fresh := (List.nodup_cons.mp (split ▸ took.stock.nodup)).1
  have nonzero : b ≠ 0 := took.stock.ne_zero b (split ▸ List.mem_cons_self)
  have kind : (mode &&& 0xFFF ||| sIfdir) &&& 0xF000 = sIfdir := newMode_kind (by decide)
  have hand := took.hand.keep took'.kept fun other _ => took'.only.stat other
  have inside : u.image.hasBlock (fs.partOff + b) = true := stock.inside b known
  have agree := fun data => u.image.setBlock_agreeExcept (fs.partOff + b) data
  -- The first block of the directory is a data block that nothing else uses.
  have hand' : ∀ data, fs.InHand isize (u.image.setBlock (fs.partOff + b) data) ino := by
    intro data
    have apart : fs.partOff + 1 ≠ fs.partOff + b := by
      have low := known.1
      have area := stock.data
      omega
    refine hand.keep ((agree data).cacheKept apart) fun other member => ?_
    have slot := hand.cache.free other member
    rw [← fs.openStat_toInode, ← fs.openStat_toInode, CoherentFs.openStat_data
      ((agree data).mono fun _ here => Or.inr ⟨b, here, known.1⟩) slot.real slot.last]
  have frame : ∀ data, Image.AgreeExcept (fun bno => bno = fs.partOff + 1 ∨
      ∃ x, bno = fs.partOff + x ∧ x ∈ list) s.image (u.image.setBlock (fs.partOff + b) data) :=
    fun data => (Image.AgreeExcept.mono only fun _ => Or.inl).trans ((agree data).mono
      fun _ here => Or.inr ⟨b, here, split ▸ List.mem_cons_self⟩)
  refine .bind (Ends.onFsError (.bind (Ends.writeBlock inside (.bind (Ends.mono
    (sound.consistent.begin [.tookBlock b] left took.slot (hand' _) (frame _)
      (stock.write known fresh _) ?_ calls' ?_ ?_ ?_ ?_ ?_ ?_ ?_) ?_ fun _ _ => False.elim)))))
  · exact fun x member => split ▸ List.mem_cons_of_mem b member
  · exact fun call member => List.mem_singleton.mp member ▸ rfl
  · rw [split]
    rfl
  · exact newMode_lt (by decide)
  · exact Or.inr (beq_iff_eq.mpr kind)
  · change 2 * direntSize < 2 ^ 32
    decide
  · exact fun image => newInode_ownMap_block fs image _ _ _ _ _ ⟨split ▸ List.mem_cons_self, fresh⟩
  · intro image x
    rw [newInode_maps fs image _ _ _ _ _ nonzero, split, List.mem_cons, or_comm]
  rintro - s₁ ⟨same, rest', begun⟩
  have empty : fs.EmptyDir s₁.image s₁.inode := by
    rw [same]
    refine fs.newDir_empty kind nonzero self encoded fun k small => ?_
    have low := fs.inodeBlock_lt took.slot.real took.slot.last
    have high := known.1
    have apart : fs.partOff + b ≠ fs.inodeBlock ino := by omega
    exact (congrFun (rest'.block _ apart) k).trans (Image.readBlock_setBlock_same _ inside small)
  have own : ∀ {image x}, fs.Maps image s₁.inode.toInode x ↔ x = b := by
    intro image x
    rw [same]
    exact newInode_maps fs image _ _ _ _ _ nonzero
  have spent : ∀ {u}, Overdrawn last (fs.entryHoles s₁.image s.inode.toInode).length rest s₁ u →
      Overdrawn last (fs.dirNeeds s.image s.inode.toInode) list s u := by
    intro u overdrawn
    have holding := begun.holding sound.consistent (by rw [split, Nat.add_comm]; rfl)
    rw [(holding.others owner).entryHoles] at overdrawn
    exact overdrawn.after holding.balanced holding.length
  have ino₁ : s₁.inode.ino = ino := congrArg OpenInode.ino same
  rw [← ino₁]
  have there := begun.parent sound.consistent owner
  have ne := begun.slot.ne_owner owner
  refine (begun.child.addDirEntry name there ne).mono ?_ ?_
  · rintro entered s₂ (⟨list', linked, made⟩ | overdrawn)
    · exact (begun.relink linked made split ne narrow empty).mono (fun _ _ => id) fun _ _ => False.elim
    · refine Ends.mono (Logs.bind (.onParent _ (.writeInode fs)) (fun _ => .value _) s₂) ?_ ?_
      · exact fun _ _ more => Or.inr ((spent overdrawn).mono more)
      · exact fun _ _ more => Or.inr ((spent overdrawn).mono more)
  · rintro e s₂ (⟨rfl, refused⟩ | ⟨taken, rest', half⟩ | overdrawn)
    · refine CoherentFs.handled (begun.child.dismiss own) e fun t handled => ?_
      exact Or.inl (.entry split begun narrow refused handled)
    · rw [← half.same]
      refine CoherentFs.handled (half.child.dismiss (half.same ▸ own)) e fun t handled => ?_
      exact Or.inl (.parent split begun narrow half handled)
    · refine (spent overdrawn).handled ?_ _ fun _ _ => Or.inr
      exact .bind (.giveBlock fs _) fun _ => .giveInode fs _

end Directory

end C900
