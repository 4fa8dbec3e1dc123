import C900.Fs.CopyEnds
import C900.Fs.Directory
import C900.Fs.Consistent

/-!
# Lookups by number

`lookup` goes from one inode number to the next. The numbers that a path leads through stay the
same when a directory gets one more entry, on the partition of that directory and on those that
lie apart from it.
-/

namespace C900

/-- An inode by its partition and its number. -/
structure Located where
  owner : CoherentFs
  ino : Nat

/-- `stat`. -/
def Located.node (place : Located) (image : Image) : Option Node :=
  (place.owner.stat image place.ino).map (Node.mk place.owner)

/-- The entry of a directory under a name, where the inode that it names is allocated. -/
def Located.entry (place : Located) (image : Image) (part : PosixPath) : Option Located := do
  let node ← place.node image
  if node.inode.isDir then
    let (ino, _) ← (place.owner.readDir image node.inode).find? fun entry => entry.2 = part
    if (place.owner.stat image ino).isSome then some ⟨place.owner, ino⟩ else none
  else none

/-- The step across a mount point. -/
def Volume.crossTo (v : Volume) (path : PosixPath) (place : Located) : Located :=
  match v.mountAt path with
  | some sub => ⟨sub.fs, sub.rootIno⟩
  | none => place

/-- The loop of `lookup`. -/
def Volume.walk (v : Volume) (image : Image) : List PosixPath → PosixPath → Located → Option Located
  | [], _, place => some place
  | part :: rest, path, place => do
    let next ← place.entry image part
    v.walk image rest (path ++ '/' :: part) (v.crossTo (path ++ '/' :: part) next)

/-- `lookup`, up to the last `stat`. -/
def Volume.locate (v : Volume) (image : Image) (path : PosixPath) : Option Located := do
  let _ ← v.root.rootNode image
  v.walk image path.parts [] (v.crossTo [] ⟨v.root.fs, v.root.rootIno⟩)

section Locate

variable {v : Volume} {image after : Image} {place next found : Located} {part : PosixPath}
  {parts : List PosixPath} {path : PosixPath}

theorem Located.node_entry (part : PosixPath) (node : Node) (here : place.node image = some node) :
    (if node.inode.isDir then node.entry image part else none) =
      (place.entry image part).bind (·.node image) := by
  obtain ⟨inode, -, rfl⟩ := Option.map_eq_some_iff.mp here
  unfold Located.entry Node.entry
  rw [here]
  dsimp only [Option.bind_eq_bind, Option.bind_some]
  split
  · cases (place.owner.readDir image inode).find? fun entry => entry.2 = part with
    | none => rfl
    | some entry =>
      dsimp only [Option.bind_some]
      cases stat : place.owner.stat image entry.1 with
      | none => rfl
      | some child =>
        rw [if_pos Option.isSome_some, Option.bind_some, Located.node, stat]
  · rfl

theorem Volume.cross_node (v : Volume) (image : Image) (path : PosixPath) (place : Located) :
    (place.node image).bind (v.cross image path) =
      (place.node image).bind fun _ => (v.crossTo path place).node image := by
  cases here : place.node image with
  | none => rfl
  | some node =>
    rw [Option.bind_some, Option.bind_some]
    unfold Volume.cross Volume.crossTo
    cases v.mountAt path with
    | none => exact here.symm
    | some sub => rfl

/-- An entry is an allocated inode. -/
theorem Located.entry_node (entered : place.entry image part = some next) :
    (next.node image).isSome := by
  unfold Located.entry at entered
  obtain ⟨node, -, entered⟩ := Option.bind_eq_some_iff.mp entered
  split at entered
  · obtain ⟨⟨ino, _⟩, -, entered⟩ := Option.bind_eq_some_iff.mp entered
    dsimp only at entered
    split at entered
    · next allocated =>
      rw [← Option.some.inj entered, Located.node, Option.isSome_map]
      exact allocated
    · cases entered
  · cases entered

theorem Volume.descend_eq (parts : List PosixPath) (path : PosixPath) (place : Located) :
    v.descend image parts path (place.node image) =
      (v.walk image parts path place).bind (·.node image) := by
  induction parts generalizing path place with
  | nil =>
    rw [Volume.walk, Option.bind_some]
    cases place.node image <;> rfl
  | cons part rest inductionHypothesis =>
    rw [Volume.walk, Option.bind_eq_bind, Option.bind_assoc]
    cases here : place.node image with
    | none =>
      have none : place.entry image part = none := by
        unfold Located.entry
        rw [here]
        rfl
      rw [none]
      rfl
    | some node =>
      have step := Located.node_entry part node here
      rw [descend_cons]
      cases entered : place.entry image part with
      | none =>
        rw [entered, Option.bind_none] at step
        rw [Option.bind_none]
        by_cases dir : node.inode.isDir = true
        · rw [if_pos dir] at step ⊢
          rw [step, Option.bind_none, descend_none]
        · rw [if_neg dir]
      | some next =>
        have allocated := Located.entry_node entered
        rw [entered, Option.bind_some] at step
        rw [Option.bind_some, ← inductionHypothesis]
        by_cases dir : node.inode.isDir = true
        · rw [if_pos dir] at step ⊢
          rw [step, Volume.cross_node]
          obtain ⟨child, here⟩ := Option.isSome_iff_exists.mp allocated
          rw [here, Option.bind_some]
        · rw [if_neg dir] at step
          rw [← step] at allocated
          cases allocated

/-- `lookup` is `stat` of the inode that is located. -/
theorem Volume.lookup_locate (v : Volume) (image : Image) (path : PosixPath) :
    v.lookup image path = (v.locate image path).bind (·.node image) := by
  have cross := Volume.cross_node v image [] ⟨v.root.fs, v.root.rootIno⟩
  change (v.root.rootNode image).bind _ = (v.root.rootNode image).bind _ at cross
  rw [Volume.lookup_eq]
  unfold Volume.resolve Volume.locate
  cases rooted : v.root.rootNode image with
  | none => rfl
  | some root =>
    rw [rooted, Option.bind_some, Option.bind_some] at cross
    dsimp only [Option.bind_eq_bind, Option.bind_some]
    rw [cross, Volume.descend_eq]

/-- The walk along a path and one part more. -/
theorem Volume.walk_append (parts : List PosixPath) (path : PosixPath) (place : Located) :
    v.walk image (parts ++ [part]) path place =
      (v.walk image parts path place).bind fun here =>
        (here.entry image part).map
          (v.crossTo (path ++ parts.flatMap ('/' :: ·) ++ '/' :: part)) := by
  induction parts generalizing path place with
  | nil =>
    rw [List.nil_append, Volume.walk, Volume.walk, List.flatMap_nil, List.append_nil,
      Option.bind_some]
    cases place.entry image part <;> rfl
  | cons first rest inductionHypothesis =>
    rw [List.cons_append, Volume.walk, Volume.walk]
    cases place.entry image first with
    | none => rfl
    | some next =>
      dsimp only [Option.bind_eq_bind, Option.bind_some]
      rw [inductionHypothesis, List.flatMap_cons]
      simp only [List.append_assoc, List.cons_append]

/-- A walk stays when every step of it stays. -/
theorem Volume.walk_kept {Good : Located → Prop}
    (crossed : ∀ path place, Good place → Good (v.crossTo path place))
    (step : ∀ place part next, Good place → place.entry image part = some next →
      Good next ∧ place.entry after part = some next)
    (good : Good place) (walked : v.walk image parts path place = some found) :
    v.walk after parts path place = some found := by
  induction parts generalizing path place with
  | nil => exact walked
  | cons part rest inductionHypothesis =>
    obtain ⟨next, entered, walked⟩ := Option.bind_eq_some_iff.mp walked
    obtain ⟨good', entered'⟩ := step place part next good entered
    rw [Volume.walk, entered']
    exact inductionHypothesis (crossed _ _ good') walked

end Locate

/-! ## A directory with one more entry -/

/-- A consistent partition whose directories name inodes of the table. -/
structure CoherentFs.Tree (fs : CoherentFs) (isize fsize : Nat) (image : Image) : Prop where
  consistent : ∃ last list, fs.Consistent isize fsize last image list
  whole : isize ≤ fsize
  named : ∀ {ino inode}, fs.Owner isize image ino inode → ∀ entry ∈ fs.readDir image inode,
    entry.1 ≤ (isize - 2) * inodesPerBlock

/-- An inode of the partition, or of one that lies apart from it. -/
def CoherentFs.Near (fs : CoherentFs) (isize fsize : Nat) (image : Image) (place : Located) : Prop :=
  1 ≤ place.ino ∧ ((place.owner = fs ∧ place.ino ≤ (isize - 2) * inodesPerBlock) ∨
    ∃ isize' fsize', place.owner.Tree isize' fsize' image ∧
      place.ino ≤ (isize' - 2) * inodesPerBlock ∧
      (place.owner.partOff + fsize' ≤ fs.partOff ∨ fs.partOff + fsize ≤ place.owner.partOff))

/-- Every mounted partition is the partition itself or lies apart from it. -/
def Volume.Around (v : Volume) (fs : CoherentFs) (isize fsize : Nat) (image : Image) : Prop :=
  ∀ handle ∈ v.root :: v.mounts.map Prod.snd,
    fs.Near isize fsize image ⟨handle.fs, handle.rootIno⟩

/-- Inode `ino`, a directory, has one more entry, and the partition keeps everything else. -/
structure CoherentFs.EntryAdded (fs : CoherentFs) (isize fsize ino : Nat) (list : List Nat)
    (image after : Image) (added : Nat × PosixPath) : Prop where
  tree : fs.Tree isize fsize image
  consistent : ∃ last, fs.Consistent isize fsize last image list
  rewrites : fs.Rewrites isize ino list image after
  fresh : ∀ {inode}, fs.Owner isize image ino inode →
    ∀ entry ∈ fs.readDir image inode, entry.2 ≠ added.2
  directory : ∃ inode inode' front back, fs.Owner isize image ino inode ∧
    fs.Owner isize after ino inode' ∧ inode.isDir = true ∧ inode'.isDir = true ∧
    fs.readDir image inode = front ++ back ∧ fs.readDir after inode' = front ++ added :: back

section EntryAdded

variable {fs : CoherentFs} {isize fsize ino : Nat} {list : List Nat} {image after : Image}
  {added : Nat × PosixPath} {v : Volume} {place next found : Located} {part path : PosixPath}

/-- All changes lie in the partition. -/
theorem CoherentFs.EntryAdded.frame
    (entry : fs.EntryAdded isize fsize ino list image after added) :
    Image.AgreeExcept (fun bno => fs.partOff < bno ∧ bno < fs.partOff + fsize) image after := by
  obtain ⟨last, consistent⟩ := entry.consistent
  obtain ⟨_, _, _, _, owner, -⟩ := entry.directory
  have low := fs.inodeBlock_lt owner.real owner.last
  have whole := entry.tree.whole
  have data := consistent.stock.data
  refine entry.rewrites.frame.mono fun bno => ?_
  rintro (sb | inode | ⟨x, rfl, either⟩)
  · omega
  · omega
  · have inArea : DataArea isize fsize x := either.elim (consistent.stock.inArea x)
      fun ⟨_, owner, maps⟩ => (consistent.map owner).inArea maps
    have first := inArea.1
    have last := inArea.2
    omega

/-- A partition that lies apart stays. -/
theorem CoherentFs.EntryAdded.apart {other : CoherentFs} {isize' fsize' : Nat}
    (entry : fs.EntryAdded isize fsize ino list image after added)
    (tree : other.Tree isize' fsize' image)
    (apart : other.partOff + fsize' ≤ fs.partOff ∨ fs.partOff + fsize ≤ other.partOff) :
    (∀ {n}, 1 ≤ n → n ≤ (isize' - 2) * inodesPerBlock → other.stat after n = other.stat image n) ∧
    ∀ {n inode}, other.Owner isize' image n inode →
      other.readDir after inode = other.readDir image inode := by
  obtain ⟨last, list', consistent⟩ := tree.consistent
  have whole := tree.whole
  have block : ∀ {x}, x < fsize' → after.readBlock (other.partOff + x) =
      image.readBlock (other.partOff + x) := fun inside => entry.frame.block _ (by omega)
  refine ⟨fun {n} real table => CoherentFs.stat_congr real fun i _ _ => ?_, fun {n inode} owner => ?_⟩
  · have low := other.inodeBlock_lt real table
    have same := block (x := other.inodeBlock n - other.partOff) (by omega)
    rw [Nat.add_sub_cancel' (by omega)] at same
    rw [same]
  · have content := (CoherentFs.readFile_untouched (CoherentFs.stat_addrs owner.stat)
      fun valid found => block ((consistent.map owner).area valid found).2).2
    unfold CoherentFs.readDir
    rw [content]

/-- The new entry is not taken for another one. -/
theorem find_inserted {front back : List (Nat × PosixPath)} (other : part ≠ added.2) :
    (front ++ added :: back).find? (fun entry => entry.2 = part) =
      (front ++ back).find? fun entry => entry.2 = part := by
  rw [List.find?_append, List.find?_append, List.find?_cons_of_neg]
  exact fun eq => other (of_decide_eq_true eq).symm

/-- A step of a walk that succeeds stays. -/
theorem CoherentFs.EntryAdded.step
    (entry : fs.EntryAdded isize fsize ino list image after added)
    (near : fs.Near isize fsize image place) (entered : place.entry image part = some next) :
    fs.Near isize fsize image next ∧ place.entry after part = some next := by
  obtain ⟨last, consistent⟩ := entry.consistent
  obtain ⟨inode, inode', front, back, owner, owner', dir, dir', before, behind⟩ := entry.directory
  have fresh := entry.fresh owner
  rw [before] at fresh
  obtain ⟨node, here, entered⟩ := Option.bind_eq_some_iff.mp entered
  obtain ⟨inode₀, stat, rfl⟩ := Option.map_eq_some_iff.mp here
  split at entered
  case isFalse => cases entered
  rename_i isDir
  obtain ⟨⟨n, m⟩, search, entered⟩ := Option.bind_eq_some_iff.mp entered
  dsimp only at entered isDir search
  split at entered
  case isFalse => cases entered
  rename_i allocated
  obtain rfl := Option.some.inj entered
  have member := List.mem_of_find?_eq_some search
  have matched : m = part := by
    have eq := List.find?_some search
    exact of_decide_eq_true eq
  have real : 1 ≤ n := by
    rw [CoherentFs.readDir_eq isDir] at member
    obtain ⟨k, -, read⟩ := List.mem_filterMap.mp member
    rw [readDirent_eq] at read
    split at read
    · cases read
    · next used =>
      obtain ⟨rfl, -⟩ := Prod.mk.inj (Option.some.inj read)
      exact Nat.one_le_iff_ne_zero.mpr fun zero => used (Or.inl zero)
  -- The entry is found again and names an allocated inode.
  have again : ∀ inode₁, place.owner.stat after place.ino = some inode₁ → inode₁.isDir = true →
      (place.owner.readDir after inode₁).find? (fun entry => entry.2 = part) = some (n, m) →
      (place.owner.stat after n).isSome →
      place.entry after part = some ⟨place.owner, n⟩ := by
    intro inode₁ stat₁ dir₁ search₁ allocated₁
    unfold Located.entry Located.node
    rw [stat₁, Option.map_some]
    dsimp only [Option.bind_eq_bind, Option.bind_some]
    rw [if_pos dir₁, search₁]
    dsimp only [Option.bind_some]
    rw [if_pos allocated₁]
  obtain ⟨realP, ⟨rfl, tableP⟩ | ⟨isize', fsize', tree, tableP, apart⟩⟩ := near
  · have ownerP : place.owner.Owner isize image place.ino inode₀ :=
      ⟨realP, tableP, stat, Or.inr isDir⟩
    have tableN := entry.tree.named ownerP _ member
    have allocated' : (place.owner.stat after n).isSome := by
      by_cases same : n = ino
      · rw [same, owner'.stat]
        rfl
      · rw [entry.rewrites.stat real tableN same]
        exact allocated
    refine ⟨⟨real, Or.inl ⟨rfl, tableN⟩⟩, ?_⟩
    by_cases same : place.ino = ino
    · rw [same] at ownerP
      obtain rfl : inode₀ = inode := Option.some.inj (ownerP.stat.symm.trans owner.stat)
      refine again inode' (same.symm ▸ owner'.stat) dir' ?_ allocated'
      rw [before] at search member
      rw [behind, find_inserted (matched ▸ fresh _ member)]
      exact search
    · obtain ⟨kept, -, content⟩ := consistent.keeps entry.rewrites owner.real owner.last ownerP same
      refine again inode₀ kept.stat isDir ?_ allocated'
      unfold CoherentFs.readDir at search ⊢
      rw [content]
      exact search
  · have ownerP : place.owner.Owner isize' image place.ino inode₀ :=
      ⟨realP, tableP, stat, Or.inr isDir⟩
    have tableN := tree.named ownerP _ member
    obtain ⟨stats, dirs⟩ := entry.apart tree apart
    refine ⟨⟨real, Or.inr ⟨isize', fsize', tree, tableN, apart⟩⟩, ?_⟩
    refine again inode₀ ((stats realP tableP).trans stat) isDir ?_ ?_
    · rw [dirs ownerP]
      exact search
    · rw [stats real tableN]
      exact allocated

/-- The path of the directory leads there as before, and from there the new name leads to the
child. -/
theorem CoherentFs.EntryAdded.locate
    (entry : fs.EntryAdded isize fsize ino list image after added)
    (around : v.Around fs isize fsize image) (located : v.locate image path = some ⟨fs, ino⟩)
    (allocated : (fs.stat after added.1).isSome) (name : PosixPath.parts added.2 = [added.2]) :
    v.locate after (path ++ '/' :: added.2) = some (v.crossTo
      (path.parts.flatMap ('/' :: ·) ++ '/' :: added.2) ⟨fs, added.1⟩) := by
  obtain ⟨inode, inode', front, back, owner, owner', dir, dir', before, behind⟩ := entry.directory
  obtain ⟨root, rooted, walked⟩ := Option.bind_eq_some_iff.mp located
  have rootNear := around v.root List.mem_cons_self
  have crossed : ∀ path place, fs.Near isize fsize image place →
      fs.Near isize fsize image (v.crossTo path place) := by
    intro path place near
    unfold Volume.crossTo
    split
    · next sub mounted =>
      obtain ⟨mount, listed, rfl⟩ := Option.map_eq_some_iff.mp mounted
      exact around _ (List.mem_cons_of_mem _
        (List.mem_map_of_mem (List.mem_of_find?_eq_some listed)))
    · exact near
  have still : v.walk after _ _ _ = _ := Volume.walk_kept crossed (fun _ _ _ => entry.step)
    (crossed [] _ rootNear) walked
  -- The root inode is still allocated.
  have rooted' : (v.root.rootNode after).isSome := by
    obtain ⟨rootInode, stat, -⟩ := Option.map_eq_some_iff.mp rooted
    unfold Handle.rootNode
    rw [Option.isSome_map]
    obtain ⟨real, ⟨same, table⟩ | ⟨isize', fsize', tree, table, apart⟩⟩ := rootNear
    · dsimp only at same table real
      rw [same] at stat ⊢
      by_cases here : v.root.rootIno = ino
      · rw [here, owner'.stat]
        rfl
      · rw [entry.rewrites.stat real table here, stat]
        rfl
    · rw [(entry.apart tree apart).1 real table]
      exact Option.isSome_iff_exists.mpr ⟨_, stat⟩
  obtain ⟨root', rooted'⟩ := Option.isSome_iff_exists.mp rooted'
  have fresh := entry.fresh owner
  rw [before] at fresh
  have search : (fs.readDir after inode').find? (fun entry => entry.2 = added.2) = some added := by
    rw [behind, List.find?_append, List.find?_eq_none.mpr, Option.none_or]
    · exact List.find?_cons_of_pos (decide_eq_true rfl)
    · exact fun entry member eq => fresh entry (List.mem_append_left _ member) (of_decide_eq_true eq)
  have entered : Located.entry ⟨fs, ino⟩ after added.2 = some ⟨fs, added.1⟩ := by
    unfold Located.entry Located.node
    dsimp only
    rw [owner'.stat, Option.map_some]
    dsimp only [Option.bind_eq_bind, Option.bind_some]
    rw [if_pos dir', search]
    dsimp only [Option.bind_some]
    rw [if_pos allocated]
  unfold Volume.locate
  rw [PosixPath.parts_append_slash, name, rooted']
  dsimp only [Option.bind_eq_bind, Option.bind_some]
  rw [Volume.walk_append, still, Option.bind_some, entered, Option.map_some]
  rfl

end EntryAdded

end C900
