import C900.Fs.Shapes

/-!
# Inserting a file

`ensure_dirs` and `insert_one` on an orderly volume. Where a path leads nowhere there is a first name
of it that is missing, in a directory that is there: the directories and the file are made below that
name, and nothing else in the volume changes.
-/

namespace C900

/-- The path with the parts `names` leads to a new item, and the rest of the volume is as it was but
for the name `m` in `e`. -/
structure Volume.Placed (v : Volume) (parts : List Partition) (e : Located) (m : PosixPath)
    (names : List PosixPath) (item : FileTree.Item Nat PosixPath (List (BitVec 8)))
    (image after : Image) : Prop where
  orderly : v.Orderly parts after
  grows : VolumeGrows parts image after fun place name => place = e ∧ name = m
  place : ∃ place : Located, v.reach after names = some place ∧ place.Free parts image ∧
    place.Has parts after item
  shape : v.Single → ∀ path, v.shape after path =
    if path.parts = names then some (Shape.of item)
    else if path.parts <+: names then some .dir else v.shape image path

section Inserting

variable {v : Volume} {parts : List Partition} {image after last : Image} {e place : Located}
  {m name path : PosixPath} {names front back : List PosixPath}
  {item other : FileTree.Item Nat PosixPath (List (BitVec 8))} {s t : Tool} {creation : Creation}
  {data : List (BitVec 8)} {mkdirs : Bool} {mode : Option Nat}

/-! ## Lookups -/

/-- The inode of a path that leads somewhere. -/
theorem Volume.Orderly.lookupOpen (orderly : v.Orderly parts image)
    (reached : v.reach image path.parts = some place) :
    ∃ node, v.lookupOpen image path = some node ∧ place.openNode image = some node := by
  obtain ⟨node, here⟩ := (orderly.reach_used reached).openNode orderly
  refine ⟨node, ?_, here⟩
  rw [Volume.lookupOpen, Volume.locate_reach, reached, Option.bind_some, here]

/-- A path that leads nowhere is not found. -/
theorem Volume.lookupOpen_nowhere (nowhere : v.reach image path.parts = none) :
    v.lookupOpen image path = none := by
  rw [Volume.lookupOpen, Volume.locate_reach, nowhere, Option.bind_none]

/-- Both ways of a lookup. -/
theorem Volume.reach_of_lookup {node : OpenNode}
    (found : v.lookupOpen image path = some node) :
    ∃ place, v.reach image path.parts = some place ∧ place.openNode image = some node :=
  Option.bind_eq_some_iff.mp found

/-! ## New items -/

/-- One creation below the last directory that is there. -/
theorem Volume.Missing.placed (missing : v.Missing image e m front)
    (created : v.Created parts e m item image after) (orderly : v.Orderly parts image)
    (plain : ∀ n ∈ front ++ [m], PosixPath.parts n = [n]) (empty : item.entries = []) :
    v.Placed parts e m (front ++ [m]) item image after := by
  refine ⟨created.orderly, created.grows, created.reach orderly missing.reached plain,
    fun single path => ?_⟩
  rw [created.shape orderly single empty missing.reached plain]
  refine ite_congr rfl (fun _ => rfl) fun other => ?_
  split
  · next above =>
    exact orderly.shape_above missing.reached
      (created.parent_dir orderly (orderly.reach_used missing.reached))
      ((List.prefix_concat_iff.mp above).resolve_left other)
  · rfl

/-- Two changes in a row change what both of them do. -/
theorem VolumeGrows.trans {spot spot' : Located → PosixPath → Prop}
    (first : VolumeGrows parts image after spot) (second : VolumeGrows parts after last spot')
    (inside : ∀ place name, place.Used parts image → spot' place name → spot place name) :
    VolumeGrows parts image last spot := fun part member =>
  (first part member).trans (second part member) fun ino name used =>
    inside ⟨part.fs, ino⟩ name ⟨part, member, rfl, used⟩

/-- One more name below the directory that came last. -/
theorem Volume.Placed.grow (placed : v.Placed parts e m names item image after)
    {at' : Located} (free : at'.Free parts image) (orderly : v.Orderly parts image)
    (created : v.Created parts at' name other after last)
    (reached : v.reach after names = some at')
    (plain : ∀ n ∈ names ++ [name], PosixPath.parts n = [n]) (empty : other.entries = []) :
    v.Placed parts e m (names ++ [name]) other image last := by
  obtain ⟨new, reached', fresh, has⟩ := created.reach placed.orderly reached plain
  refine ⟨created.orderly, placed.grows.trans created.grows ?_, ⟨new, reached', ?_, has⟩,
    fun single path => ?_⟩
  · rintro _ _ used ⟨rfl, -⟩
    exact absurd used (free.not_used orderly)
  · obtain ⟨part, member, owner, none⟩ := fresh
    refine ⟨part, member, owner, ?_⟩
    by_contra used
    have still := (placed.grows part member).used (Option.isSome_iff_ne_none.mpr used)
    rw [none] at still
    cases still
  · have parent := created.parent_dir placed.orderly (placed.orderly.reach_used reached)
    rw [created.shape placed.orderly single empty reached plain]
    refine ite_congr rfl (fun _ => rfl) fun other => ?_
    split
    · next above =>
      exact placed.orderly.shape_above reached parent
        ((List.prefix_concat_iff.mp above).resolve_left other)
    · next away =>
      have away' : ¬ path.parts <+: names := fun above => away (above.trans (List.prefix_append _ _))
      have ne : path.parts ≠ names := fun same => away' (same ▸ List.prefix_rfl)
      rw [placed.shape single, if_neg ne, if_neg away']

/-! ## Going forward -/

/-- A lookup makes no calls. -/
theorem Volume.find_forward (v : Volume) (path : PosixPath) : sparing.Forward (v.find path) :=
  .bind .state fun _ => .value _

/-- A check makes no calls. -/
theorem raising_forward {α : Type} (result : Except FsError α) :
    sparing.Forward (raising result) := by
  cases result with
  | ok a => exact .value a
  | error e => exact .raise _

/-- A creation makes its one call or fails before it. -/
theorem createIn_forward (parent : Option OpenNode) (creation : Creation) (name : PosixPath) :
    sparing.Forward (createIn parent creation name) := by
  cases parent with
  | none => exact .bind (raising_forward _) fun _ => .raise _
  | some node => exact .bind (node.call_forward _) fun _ => .value _

/-- One component is there or is created. -/
theorem ensureFound_forward (parent found : Option OpenNode) (cur comp : PosixPath) :
    sparing.Forward (ensureFound parent found cur comp) := by
  cases found with
  | none => exact createIn_forward _ _ _
  | some node => exact .ite (.value _) (.raise _)

/-- The loop body of `--mkdirs`. -/
theorem Volume.ensureDir_forward (v : Volume) (curPath comp : PosixPath) :
    sparing.Forward (v.ensureDir curPath comp) :=
  .bind (v.find_forward _) fun _ => .bind (v.find_forward _) fun _ =>
    .bind (ensureFound_forward _ _ _ _) fun _ => .value _

/-- All the components of a path. -/
theorem Volume.ensureDirs_forward (v : Volume) (path : PosixPath) (mkdirs : Bool) :
    sparing.Forward (v.ensureDirs path mkdirs) := by
  refine .bind (v.find_forward _) fun found => ?_
  cases found with
  | none => exact .ite (.bind (.foldlM (fun _ _ => v.ensureDir_forward _ _) _ _) fun _ =>
      v.find_forward _) (.raise _)
  | some node => exact .ite (.value _) (.raise _)

/-- A lookup leaves the volume alone. -/
theorem Volume.find_returns (v : Volume) (path : PosixPath) (s : Tool) :
    sparing.Returns (v.find path) s fun node t => t = s ∧ node = v.lookupOpen s.image path := by
  intro node t ran _
  cases ran
  exact ⟨rfl, rfl⟩

/-! ## `ensure_dirs` -/

/-- A creation in the inode that a path leads to. -/
theorem Volume.Orderly.createIn (orderly : v.Orderly parts s.image) {cur : PosixPath}
    (creation : Creation) (name : PosixPath) (reached : v.reach s.image cur.parts = some place) :
    sparing.Returns (createIn (v.lookupOpen s.image cur) creation name) s fun _ t =>
      v.Created parts place creation.name creation.item s.image t.image := by
  obtain ⟨node, found, here⟩ := orderly.lookupOpen reached
  rw [found]
  exact .bind (orderly.create (orderly.reach_used reached) here) (fun _ => .value _)
    fun _ _ created => .value created

/-- The path before a component. -/
theorem parts_cur (path : PosixPath) :
    PosixPath.parts (if path = [] then ['/'] else path) = path.parts := by
  split
  · next empty =>
    rw [empty]
    rfl
  · rfl

/-- A component is looked up before it is created. -/
theorem Volume.ensureDir_returns (v : Volume) (path name : PosixPath) {Q : Unit → Tool → Prop}
    (rest : sparing.Returns (ensureFound (v.lookupOpen s.image (if path = [] then ['/'] else path))
      (v.lookupOpen s.image (path ++ '/' :: name)) (path ++ '/' :: name) name) s Q) :
    sparing.Returns (v.ensureDir path name) s fun cur t => cur = path ++ '/' :: name ∧ Q () t := by
  refine .bind (v.find_returns _ s) (fun _ => .bind (v.find_forward _) fun _ =>
    .bind (ensureFound_forward _ _ _ _) fun _ => .value _) ?_
  rintro _ _ ⟨rfl, rfl⟩
  refine .bind (v.find_returns _ _) (fun _ => .bind (ensureFound_forward _ _ _ _) fun _ => .value _) ?_
  rintro _ _ ⟨rfl, rfl⟩
  exact .bind rest (fun _ => .value _) fun _ _ holds => .value ⟨rfl, holds⟩

/-- A component that is there. -/
theorem Volume.Orderly.ensureDir_there (orderly : v.Orderly parts s.image)
    (reached : v.reach s.image (PosixPath.parts (path ++ '/' :: name)) = some place) :
    sparing.Returns (v.ensureDir path name) s fun cur t =>
      cur = path ++ '/' :: name ∧ t.image = s.image := by
  obtain ⟨node, found, -⟩ := orderly.lookupOpen reached
  refine Volume.ensureDir_returns (Q := fun _ t => t.image = s.image) v path name ?_
  rw [found]
  exact .ite (fun _ => .value rfl) fun _ => .raise _

/-- A component that is missing is made. -/
theorem Volume.Orderly.ensureDir_missing (orderly : v.Orderly parts s.image)
    (reached : v.reach s.image path.parts = some place)
    (nowhere : v.reach s.image (PosixPath.parts (path ++ '/' :: name)) = none) :
    sparing.Returns (v.ensureDir path name) s fun cur t =>
      cur = path ++ '/' :: name ∧ v.Created parts place name (.dir 2 []) s.image t.image := by
  refine Volume.ensureDir_returns (Q := fun _ t => v.Created parts place name (.dir 2 []) s.image
    t.image) v path name ?_
  rw [Volume.lookupOpen_nowhere nowhere]
  exact orderly.createIn (.dir name 0x1ED) name ((parts_cur path).symm ▸ reached)

/-- The loop of `ensure_dirs` on a path with a missing name. -/
theorem Volume.Missing.ensureLoop (missing : v.Missing s.image e m front)
    (orderly : v.Orderly parts s.image)
    (plain : ∀ n ∈ front ++ m :: back, PosixPath.parts n = [n]) :
    sparing.Returns ((front ++ m :: back).foldlM (fun cur comp => v.ensureDir cur comp) []) s
      fun _ t => v.Placed parts e m (front ++ m :: back) (.dir 2 []) s.image t.image := by
  have walked : sparing.Returns
      ((front ++ m :: back).foldlM (fun cur comp => v.ensureDir cur comp) []) s
      fun cur t => cur = (front ++ m :: back).flatMap ('/' :: ·) ∧
        (((front ++ m :: back) <+: front ∧ t.image = s.image) ∨
          ((front ++ [m]) <+: (front ++ m :: back) ∧
            v.Placed parts e m (front ++ m :: back) (.dir 2 []) s.image t.image)) := by
    refine .foldlM (fun before cur t => cur = before.flatMap ('/' :: ·) ∧
      ((before <+: front ∧ t.image = s.image) ∨ ((front ++ [m]) <+: before ∧
        v.Placed parts e m before (.dir 2 []) s.image t.image))) _ (fun _ _ => v.ensureDir_forward _ _)
      ⟨rfl, Or.inl ⟨List.nil_prefix, rfl⟩⟩ ?_
    rintro before i after cur t split ⟨rfl, here⟩
    have plain' : ∀ n ∈ before ++ [i], PosixPath.parts n = [n] := fun n member => plain n (by
      rw [split]
      rw [List.append_cons]
      exact List.mem_append_left _ member)
    have path : (before ++ [i]).flatMap ('/' :: ·) = before.flatMap ('/' :: ·) ++ '/' :: i := by
      rw [List.flatMap_append, List.flatMap_singleton]
    have names : PosixPath.parts (before.flatMap ('/' :: ·) ++ '/' :: i) = before ++ [i] := by
      rw [← path, PosixPath.parts_flatMap plain']
    have names' : PosixPath.parts (before.flatMap ('/' :: ·)) = before :=
      PosixPath.parts_flatMap fun n member => plain' n (List.mem_append_left _ member)
    rcases here with ⟨⟨rest, rfl⟩, same⟩ | ⟨beyond, placed⟩
    · rw [List.append_assoc, List.append_cancel_left_eq] at split
      cases rest with
      | nil =>
        -- The first component that is missing.
        rw [List.nil_append] at split
        obtain ⟨rfl, -⟩ := List.cons.inj split
        rw [List.append_nil] at missing ⊢
        rw [← same] at missing orderly ⊢
        refine (orderly.ensureDir_missing (names'.symm ▸ missing.reached)
          (names.symm ▸ missing.reach [])).mono fun cur u made => ?_
        exact ⟨path ▸ made.1, Or.inr ⟨List.prefix_rfl, missing.placed made.2 orderly plain' rfl⟩⟩
      | cons next rest =>
        obtain ⟨rfl, -⟩ := List.cons.inj split
        have reached := missing.reached
        rw [← same] at orderly reached
        rw [List.append_cons] at reached
        obtain ⟨there, reached⟩ := Volume.reach_front reached
        refine (orderly.ensureDir_there (names.symm ▸ reached)).mono fun cur u found => ?_
        exact ⟨path ▸ found.1, Or.inl ⟨⟨rest, by rw [List.append_assoc]; rfl⟩, found.2.trans same⟩⟩
    · obtain ⟨there, reached, free, has⟩ := placed.place
      have nowhere : v.reach t.image (before ++ [i]) = none := by
        rw [Volume.reach_append, reached, Option.bind_some, has.entry_none placed.orderly rfl,
          Option.map_none]
      refine (placed.orderly.ensureDir_missing (names'.symm ▸ reached)
        (names.symm ▸ nowhere)).mono fun cur u made => ?_
      exact ⟨path ▸ made.1, Or.inr ⟨beyond.trans (List.prefix_append _ _),
        placed.grow free orderly made.2 reached plain' rfl⟩⟩
  refine walked.mono fun _ t here => ?_
  rcases here.2 with ⟨short, -⟩ | ⟨-, placed⟩
  · have length := short.length_le
    simp at length
  · exact placed

/-- `ensure_dirs` on a path that is there. -/
theorem Volume.Orderly.ensureDirs_there (orderly : v.Orderly parts s.image)
    (reached : v.reach s.image path.parts = some place) :
    sparing.Returns (v.ensureDirs path mkdirs) s fun node t =>
      node = v.lookupOpen t.image path ∧ t.image = s.image ∧
        ∃ links entries, place.Has parts s.image (.dir links entries) := by
  obtain ⟨node, found, here⟩ := orderly.lookupOpen reached
  unfold Volume.ensureDirs
  refine .bind (v.find_returns _ s) (fun found => ?_) ?_
  · cases found with
    | none => exact .ite (.bind (.foldlM (fun _ _ => v.ensureDir_forward _ _) _ _) fun _ =>
        v.find_forward _) (.raise _)
    | some node => exact .ite (.value _) (.raise _)
  rintro _ _ ⟨rfl, rfl⟩
  rw [found]
  refine .ite (fun dir => .value ⟨found.symm, rfl, ?_⟩) fun _ => .raise _
  obtain ⟨-, -, -, has⟩ := (orderly.reach_used reached).opened orderly here
  exact ⟨_, _, CoherentFs.item_dir dir ▸ has⟩

/-- `ensure_dirs` on a path with a missing name makes the directories from there on. -/
theorem Volume.Missing.ensureDirs (missing : v.Missing s.image e m front)
    (orderly : v.Orderly parts s.image) (split : path.parts = front ++ m :: back) :
    sparing.Returns (v.ensureDirs path mkdirs) s fun node t =>
      node = v.lookupOpen t.image path ∧ v.Placed parts e m path.parts (.dir 2 []) s.image t.image := by
  have nowhere := Volume.lookupOpen_nowhere (split ▸ missing.reach back)
  unfold Volume.ensureDirs
  refine .bind (v.find_returns _ s) (fun found => ?_) ?_
  · cases found with
    | none => exact .ite (.bind (.foldlM (fun _ _ => v.ensureDir_forward _ _) _ _) fun _ =>
        v.find_forward _) (.raise _)
    | some node => exact .ite (.value _) (.raise _)
  rintro _ _ ⟨rfl, rfl⟩
  rw [nowhere]
  refine .ite (fun _ => ?_) fun _ => .raise _
  have loop := missing.ensureLoop orderly fun n member => PosixPath.parts_of_mem (split ▸ member)
  rw [← split] at loop
  refine .bind loop (fun _ => v.find_forward _) fun cur t placed => ?_
  exact (v.find_returns _ t).mono fun node u ⟨same, found⟩ => ⟨same ▸ found, same ▸ placed⟩

/-! ## `insert_one` -/

/-- The path before and behind its last slash. -/
theorem rpartition_normal (p : PosixPath) :
    normalPath p = (rpartition (normalPath p)).1 ++ '/' :: (rpartition (normalPath p)).2 := by
  have whole : (normalPath p).rdropWhile (· ≠ '/') ++ (normalPath p).rtakeWhile (· ≠ '/') =
      normalPath p := List.rdropWhile_append_rtakeWhile
  unfold rpartition
  dsimp only
  rcases PosixPath.rdropWhile_slash (normalPath p) with none | ⟨start, head⟩
  · rw [none, List.nil_append] at whole
    have slash : '/' ∈ (normalPath p).rtakeWhile (· ≠ '/') := by
      rw [whole]
      exact List.mem_cons_self
    have other := List.mem_rtakeWhile_imp slash
    simp at other
  · rw [head, List.append_assoc] at whole
    rw [head, List.dropLast_concat]
    exact whole.symm

/-- A path has the parts of its normal form. -/
theorem parts_normal (p : PosixPath) : (normalPath p).parts = p.parts := PosixPath.parts_intercalate p

/-- An overwritten file is written, then its mode changed. -/
theorem OpenNode.overwrite_forward (node : OpenNode) (data : List (BitVec 8)) (path : PosixPath)
    (mode : Option Nat) : sparing.Forward (node.overwrite data path mode) := by
  refine .ite (.raise _) (.ite (.bind (node.call_forward _) fun inode => ?_) (.raise _))
  cases mode with
  | none => exact .value _
  | some mode => exact .bind (OpenNode.call_forward _ _) fun _ => .value _

/-- A file that is there is overwritten. -/
theorem Volume.Orderly.overwrite (orderly : v.Orderly parts s.image) {node : OpenNode}
    (used : place.Used parts s.image) (here : place.openNode s.image = some node) :
    sparing.Returns (node.overwrite data path mode) s fun _ t =>
      v.Overwritten parts place data s.image t.image := by
  refine .ite (fun _ => .raise _) fun _ => .ite (fun _ => ?_) fun _ => .raise _
  refine .bind (orderly.write used here) (fun inode => ?_) fun inode t written => ?_
  · cases mode with
    | none => exact .value _
    | some mode => exact .bind (OpenNode.call_forward _ _) fun _ => .value _
  obtain ⟨written, part, member, owner, number, owned, links, content, table⟩ := written
  cases mode with
  | none => exact .value written
  | some mode =>
    obtain ⟨owner', -⟩ := used.opened orderly here
    rw [show node.owner = part.fs from owner'.trans owner]
    refine .bind (written.orderly.save member owned links (content.symm ▸ table)) (fun _ => .value _)
      fun _ u ⟨orderly', same⟩ => .value ?_
    have has : ∀ (other : Located) item, other.Has parts t.image item → other.Has parts u.image item := by
      rintro other item ⟨part', member', there, found⟩
      exact ⟨part', member', there, (same part' member').symm ▸ found⟩
    obtain ⟨n, holds⟩ := written.content
    refine ⟨orderly', fun part' member' => ?_, written.before, ⟨n, has _ _ holds⟩,
      fun other item ne before => has _ _ (written.others other item ne before)⟩
    rw [same part' member']
    exact written.keeps part' member'

/-- The calls of an insertion come one behind the other. -/
theorem Volume.insertOne_forward (v : Volume) (data : List (BitVec 8)) (path : PosixPath)
    (mode : Option Nat) (mkdirs : Bool) : sparing.Forward (v.insertOne data path mode mkdirs) := by
  refine .bind (raising_forward _) fun _ => .bind (v.find_forward _) fun found => ?_
  cases found with
  | none => exact .bind (v.ensureDirs_forward _ _) fun _ => createIn_forward _ _ _
  | some node => exact node.overwrite_forward _ _ _

/-- A check that passes leaves its value. -/
theorem raising_returns {α : Type} (result : Except FsError α) (s : Tool) :
    sparing.Returns (raising result) s fun a t => result = .ok a ∧ t = s := by
  cases result with
  | ok a => exact .value ⟨rfl, rfl⟩
  | error e => exact .raise _

/-- `insert_one` on a path with a missing name. -/
theorem Volume.Missing.insertOne (missing : v.Missing s.image e m front)
    (orderly : v.Orderly parts s.image) (split : path.parts = front ++ m :: back) :
    sparing.Returns (v.insertOne data path mode mkdirs) s fun _ t =>
      v.Placed parts e m path.parts (.file 1 data) s.image t.image := by
  have whole := rpartition_normal path
  unfold Volume.insertOne
  dsimp only
  refine .bind (raising_returns _ s) (fun _ => .bind (v.find_forward _) fun found => ?_) ?_
  · cases found with
    | none => exact .bind (v.ensureDirs_forward _ _) fun _ => createIn_forward _ _ _
    | some node => exact node.overwrite_forward _ _ _
  rintro ⟨⟩ _ ⟨valid, rfl⟩
  refine .bind (v.find_returns _ _) (fun found => ?_) ?_
  · cases found with
    | none => exact .bind (v.ensureDirs_forward _ _) fun _ => createIn_forward _ _ _
    | some node => exact node.overwrite_forward _ _ _
  rintro _ _ ⟨rfl, rfl⟩
  rw [Volume.lookupOpen_nowhere ((parts_normal path).symm ▸ split ▸ missing.reach back)]
  generalize rpartition (normalPath path) = cut at *
  obtain ⟨dir, name⟩ := cut
  dsimp only at *
  have names : path.parts = dir.parts ++ [name] := by
    rw [← parts_normal, whole, PosixPath.parts_append_slash, parts_validateName valid]
  have plain : ∀ n ∈ dir.parts ++ [name], PosixPath.parts n = [n] :=
    fun n member => PosixPath.parts_of_mem (names ▸ member)
  rw [names] at split ⊢
  have path' := parts_cur dir
  generalize (if dir = [] then ['/'] else dir) = dirPath at *
  rw [← path'] at split plain ⊢
  cases back using List.reverseRecOn with
  | nil =>
    obtain ⟨rfl, last⟩ := List.append_inj' split rfl
    obtain rfl := List.cons.inj last |>.1
    refine .bind (orderly.ensureDirs_there missing.reached) (fun _ => createIn_forward _ _ _) ?_
    rintro _ t ⟨rfl, same, -⟩
    rw [← same] at orderly missing ⊢
    exact (orderly.createIn (.file name data (mode.getD 0x1A4)) name missing.reached).mono
      fun _ _ created => missing.placed created orderly plain rfl
  | append_singleton init last =>
    rw [← List.cons_append, ← List.append_assoc] at split
    obtain ⟨front', last'⟩ := List.append_inj' split rfl
    obtain rfl := List.cons.inj last' |>.1
    refine .bind (missing.ensureDirs orderly front') (fun _ => createIn_forward _ _ _) ?_
    rintro _ t ⟨rfl, placed⟩
    obtain ⟨there, reached, free, -⟩ := placed.place
    exact (placed.orderly.createIn (.file name data (mode.getD 0x1A4)) name reached).mono
      fun _ _ created => placed.grow free orderly created reached plain rfl

/-- `insert_one` on a path that is there. -/
theorem Volume.Orderly.insertOne_there (orderly : v.Orderly parts s.image)
    (reached : v.reach s.image path.parts = some place) :
    sparing.Returns (v.insertOne data path mode mkdirs) s fun _ t =>
      v.Overwritten parts place data s.image t.image := by
  have reached' : v.reach s.image (normalPath path).parts = some place :=
    (parts_normal path).symm ▸ reached
  obtain ⟨node, found, here⟩ := orderly.lookupOpen reached'
  unfold Volume.insertOne
  dsimp only
  refine .bind (raising_returns _ s) (fun _ => .bind (v.find_forward _) fun found => ?_) ?_
  · cases found with
    | none => exact .bind (v.ensureDirs_forward _ _) fun _ => createIn_forward _ _ _
    | some node => exact node.overwrite_forward _ _ _
  rintro ⟨⟩ _ ⟨-, rfl⟩
  refine .bind (v.find_returns _ _) (fun found => ?_) ?_
  · cases found with
    | none => exact .bind (v.ensureDirs_forward _ _) fun _ => createIn_forward _ _ _
    | some node => exact node.overwrite_forward _ _ _
  rintro _ _ ⟨rfl, rfl⟩
  rw [found]
  exact orderly.overwrite (orderly.reach_used reached) here

/-! ## What the volume shows afterwards -/

/-- The file that a path leads to. -/
theorem Located.Has.lookup_file {links : Nat} (has : place.Has parts image (.file links data))
    (orderly : v.Orderly parts image) (located : v.locate image path = some place) :
    ∃ node, v.lookup image path = some node ∧ node.inode.isFile = true ∧
      node.owner.readFile image node.inode = data := by
  obtain ⟨node, here, file, content⟩ := has.openFile orderly
  refine ⟨⟨node.owner, node.inode.toInode⟩, ?_, file, content⟩
  rw [← Volume.lookupOpen_lookup, Volume.lookupOpen, located, Option.bind_some, here]
  rfl

/-- What the table has as a directory is looked up as one. -/
theorem Located.Has.lookup_dir {links : Nat} {entries : List (Nat × PosixPath)}
    (has : place.Has parts image (.dir links entries)) (orderly : v.Orderly parts image)
    (located : v.locate image path = some place) :
    ∃ node, v.lookup image path = some node ∧ node.inode.isDir = true := by
  obtain ⟨node, here, dir⟩ := has.openDir orderly
  refine ⟨⟨node.owner, node.inode.toInode⟩, ?_, dir⟩
  rw [← Volume.lookupOpen_lookup, Volume.lookupOpen, located, Option.bind_some, here]
  rfl

/-- The place of a path that leads somewhere, and what is there. -/
theorem Volume.Orderly.lookup_has (orderly : v.Orderly parts image) {node : Node}
    (found : v.lookup image path = some node) : ∃ place links, v.locate image path = some place ∧
      place.Has parts image (node.owner.item image links node.inode) := by
  rw [← Volume.lookupOpen_lookup] at found
  obtain ⟨opened, here, rfl⟩ := Option.map_eq_some_iff.mp found
  obtain ⟨place, located, here⟩ := Volume.reach_of_lookup here
  obtain ⟨owner, -, -, has⟩ := (orderly.reach_used located).opened orderly here
  exact ⟨place, opened.inode.nlinks, located, owner ▸ has⟩

/-- What the lookups of a volume keep: paths and directories, and the files away from a path. -/
structure Volume.Shows (v : Volume) (image after : Image) (spot : Option Located) : Prop where
  path : ∀ path place, v.locate image path = some place → v.locate after path = some place
  dir : ∀ path node, v.lookup image path = some node → node.inode.isDir = true →
    ∃ node', v.lookup after path = some node' ∧ node'.inode.isDir = true
  file : ∀ path node, v.lookup image path = some node → node.inode.isFile = true →
    v.locate after path ≠ spot →
      ∃ node', v.lookup after path = some node' ∧ node'.inode.isFile = true ∧
        node'.owner.readFile after node'.inode = node.owner.readFile image node.inode

/-- What stays in the partitions is still found. -/
theorem Volume.Orderly.shows {spot : Located → PosixPath → Prop} {target : Option Located}
    (orderly : v.Orderly parts image) (later : v.Orderly parts after)
    (keeps : VolumeKeeps parts image after spot)
    (free : ∀ place name, spot place name → place.entry image name = none)
    (files : ∀ place links content, some place ≠ target →
      place.Has parts image (.file links content) → place.Has parts after (.file links content)) :
    v.Shows image after target := by
  have path : ∀ path place, v.locate image path = some place → v.locate after path = some place :=
    fun path place located =>
      keeps.reach orderly (fun part member => later.wellFormed member) free located
  refine ⟨path, fun path' node found dir => ?_, fun path' node found file away => ?_⟩
  · obtain ⟨place, links, located, has⟩ := orderly.lookup_has found
    rw [CoherentFs.item_dir dir] at has
    obtain ⟨_, _, has'⟩ := keeps.dir has
    exact has'.lookup_dir later (path path' place located)
  · obtain ⟨place, links, located, has⟩ := orderly.lookup_has found
    have located' := path path' place located
    rw [CoherentFs.item_file file] at has
    rw [located'] at away
    exact (files place _ _ away has).lookup_file later located'

/-- `insert_one` that returns, each of its calls leaving a block free: its path leads to a regular
file with the bytes of the host file, every path leads where it led, to a directory where it was one,
and every other file has its content. -/
theorem Volume.insertOne_inserts (orderly : v.Orderly parts s.image)
    (ran : v.insertOne data path mode mkdirs s = .ok () t) (spares : ∀ call ∈ t.made, call.Spares) :
    v.Orderly parts t.image ∧
      (∃ node, v.lookup t.image path = some node ∧ node.inode.isFile = true ∧
        node.owner.readFile t.image node.inode = data) ∧
      v.Shows s.image t.image (v.locate t.image path) := by
  cases reached : v.reach s.image path.parts with
  | none =>
    obtain ⟨e, m, front, back, split, missing⟩ := Volume.missing_of_reach orderly.rooted reached
    have placed := missing.insertOne orderly split () t ran spares
    obtain ⟨place, here, -, has⟩ := placed.place
    refine ⟨placed.orderly, has.lookup_file placed.orderly here,
      orderly.shows placed.orderly placed.grows.keeps ?_ fun _ _ _ _ => placed.grows.file⟩
    rintro _ _ ⟨rfl, rfl⟩
    exact missing.missing
  | some place =>
    have written := orderly.insertOne_there reached () t ran spares
    obtain ⟨links, has⟩ := written.content
    have here : v.locate t.image path = some place :=
      written.keeps.reach orderly (fun part member => written.orderly.wellFormed member)
        (fun _ _ => False.elim) reached
    refine ⟨written.orderly, has.lookup_file written.orderly here,
      orderly.shows written.orderly written.keeps (fun _ _ => False.elim)
        fun other links content away => written.others other _ fun same => away ?_⟩
    rw [here, same]

end Inserting

/-- `ensure_dirs` of a directory that is there. -/
theorem Volume.ensureDirs_found {v : Volume} {path : PosixPath} {s : Tool} {node : OpenNode}
    (mkdirs : Bool) (found : v.lookupOpen s.image path = some node) (isDir : node.inode.isDir = true) :
    v.ensureDirs path mkdirs s = .ok (some node) s := by
  have here : v.find path s = .ok (some node) s := congrArg (EStateM.Result.ok · s) found
  unfold Volume.ensureDirs
  rw [EStateM.bind_ok here]
  dsimp only
  rw [if_pos isDir]
  rfl

/-- `insert_one` under a directory that is there is a creation. -/
theorem Volume.insertOne_new {v : Volume} {path dir name : PosixPath} {s : Tool} {node : OpenNode}
    (data : List (BitVec 8)) (mode : Option Nat) (mkdirs : Bool)
    (cut : rpartition (normalPath path) = (dir, name)) (valid : validateName name = .ok ())
    (missing : v.lookupOpen s.image (normalPath path) = none)
    (found : v.lookupOpen s.image (if dir = [] then ['/'] else dir) = some node)
    (isDir : node.inode.isDir = true) :
    v.insertOne data path mode mkdirs s =
      createIn (some node) (.file name data (mode.getD 0x1A4)) name s := by
  have first : v.find (normalPath path) s = .ok none s := congrArg (EStateM.Result.ok · s) missing
  have second := v.ensureDirs_found mkdirs found isDir
  unfold Volume.insertOne
  dsimp only
  rw [cut]
  dsimp only
  rw [valid]
  have raised : raising (.ok () : Except FsError Unit) s = .ok () s := rfl
  rw [EStateM.bind_ok raised, EStateM.bind_ok first]
  dsimp only
  rw [EStateM.bind_ok second]

/-- A creation that succeeds is one call in the record. -/
theorem OpenNode.createIn_eq {node : OpenNode} {creation : Creation} {name : PosixPath} {s : Tool}
    {after : Session}
    (ran : node.owner.create creation ⟨s.image, s.clock, node.inode, s.calls⟩ = .ok () after) :
    createIn (some node) creation name s = .ok () ⟨after.image, after.clock, after.calls,
      ⟨node.owner, .create creation, ⟨s.image, s.clock, node.inode, s.calls⟩, after⟩ :: s.made⟩ := by
  have called : node.call (.create creation) s = .ok after.inode ⟨after.image, after.clock, after.calls,
      ⟨node.owner, .create creation, ⟨s.image, s.clock, node.inode, s.calls⟩, after⟩ :: s.made⟩ := by
    unfold OpenNode.call CoherentFs.perform
    dsimp only
    rw [ran]
  unfold createIn
  dsimp only
  rw [EStateM.bind_ok called]
  rfl

/-! ## A volume with a mount -/

/-- A partition with a directory `m` in its root, and behind it one with an empty root. -/
def mountImage : Image where
  len := 12 * 512
  byte := fun i =>
    if 6 * 512 ≤ i then rootImage.byte (i - 6 * 512)
    else if i = 512 then 3 else if i = 516 then 6 else if i = 518 then 2 else if i = 526 then 5
    else if i = 988 then 1
    -- The inodes of the root and of `m`.
    else if i = 1089 then 0x40 else if i = 1090 then 3 else if i = 1098 then 48
    else if i = 1101 then 3 else if i = 1153 then 0x40 else if i = 1154 then 2
    else if i = 1162 then 32 else if i = 1165 then 4
    -- Their entries.
    else if i = 1536 then 2 else if i = 1538 then 0x2E else if i = 1552 then 2
    else if i = 1554 then 0x2E else if i = 1555 then 0x2E else if i = 1568 then 3
    else if i = 1570 then 0x6D else if i = 2048 then 3 else if i = 2050 then 0x2E
    else if i = 2064 then 2 else if i = 2066 then 0x2E else if i = 2067 then 0x2E else 0

/-- The directory `m`. -/
def mountDir : OpenInode :=
  { rootDir with addrs := [4, 0, 0, 0, 0, 0, 0, 0, 0, 0, 0, 0, 0], ino := 3 }

/-- The directories of the first partition. -/
theorem mountImage_directories : CoherentFs.Directories ⟨0⟩ 3 6 mountImage [5]
    [{ rootDir with nlinks := 3, size := 48 }, mountDir] :=
  ⟨by decide, by decide, by decide, by decide, by decide⟩

/-- The root of the second one. -/
theorem mountImage_mounted : CoherentFs.Directories ⟨6⟩ 3 6 mountImage [4, 5] [rootDir] :=
  ⟨by decide, by decide, by decide, by decide, by decide⟩

/-- The table of the first partition: `m` in an empty root. -/
theorem mountImage_table : CoherentFs.fileTable ⟨0⟩ 3 mountImage =
    FileTree.Table.insert (.onlyRoot 2) 3 (.dir 2 []) 2 3 [] ['m'] [] := by
  have root : CoherentFs.readDir ⟨0⟩ mountImage
      { rootDir with nlinks := 3, size := 48 }.toInode = [(3, ['m'])] := by decide
  have empty : CoherentFs.readDir ⟨0⟩ mountImage mountDir.toInode = [] := by decide
  rw [CoherentFs.Directories.fileTable_eq mountImage_directories]
  funext ino
  unfold FileTree.Table.insert FileTree.Table.onlyRoot
  by_cases first : ino = 2
  · subst first
    simpa [rootDir] using root
  · by_cases second : ino = 3
    · subst second
      simpa [rootDir, mountDir] using empty
    · simp [rootDir, mountDir, first, second, Ne.symm first, Ne.symm second]

/-- The first partition is in order. -/
theorem mountImage_orderly : CoherentFs.Orderly ⟨0⟩ 3 6 2 none mountImage [5] := by
  have inside : ∀ b < 6, mountImage.hasBlock (0 + b) = true := by decide
  have empty : cachedInodes (mountImage.readBlock (0 + 1)) = [] := by decide
  refine CoherentFs.Directories.orderly mountImage_directories ⟨by decide, ⟨2, 1, by decide,
      fun i => (mountImage.readBlock 1).get32 (sbFree + i * 4),
      ⟨by decide, by decide, by decide, by decide, fun _ _ => rfl, by decide⟩,
      .entry (by decide) (by decide) (by decide) (.sentinel rfl (by decide))⟩, by decide,
      fun b inArea => inside b inArea.2⟩ (by decide)
    (fun b low => inside b (Nat.lt_trans low (by decide)))
    ⟨by decide, empty.symm ▸ List.nodup_nil, fun ino member => ?_⟩ ?_
  · rw [empty] at member
    cases member
  · rw [mountImage_table]
    have bare : (FileTree.Table.onlyRoot 2 : FileTree.Table Nat PosixPath (List (BitVec 8))) 2 =
      some (.dir 2 ([] ++ [])) := rfl
    exact (FileTree.Step.dir bare (by decide) rfl List.not_mem_nil).wellFormed
      (FileTree.Table.onlyRoot_wellFormed (by decide))

/-- The second partition is in order. -/
theorem mountImage_mounted_orderly : CoherentFs.Orderly ⟨6⟩ 3 6 2 none mountImage [4, 5] := by
  have inside : ∀ b < 6, mountImage.hasBlock (6 + b) = true := by decide
  have empty : cachedInodes (mountImage.readBlock (6 + 1)) = [] := by decide
  refine CoherentFs.Directories.orderly mountImage_mounted ⟨by decide, ⟨3, 2, by decide,
      fun i => (mountImage.readBlock 7).get32 (sbFree + i * 4),
      ⟨by decide, by decide, by decide, by decide, fun _ _ => rfl, by decide⟩,
      .entry (by decide) (by decide) (by decide) (.entry (by decide) (by decide) (by decide)
        (.sentinel rfl (by decide)))⟩, by decide, fun b inArea => inside b inArea.2⟩ (by decide)
    (fun b low => inside b (Nat.lt_trans low (by decide)))
    ⟨by decide, empty.symm ▸ List.nodup_nil, fun ino member => ?_⟩ ?_
  · rw [empty] at member
    cases member
  · have nothing : CoherentFs.readDir ⟨6⟩ mountImage rootDir.toInode = [] := by decide
    rw [CoherentFs.Directories.fileTable_onlyRoot mountImage_mounted rfl nothing]
    exact FileTree.Table.onlyRoot_wellFormed (by decide)

/-- The second partition is mounted on the directory. -/
def mountVolume : Volume := ⟨⟨⟨0⟩, 2⟩, [(['/', 'm'], ⟨⟨6⟩, 2⟩)]⟩

/-- Its partitions. -/
def mountParts : List Partition := [⟨⟨0⟩, 3, 6, 2⟩, ⟨⟨6⟩, 3, 6, 2⟩]

/-- Both partitions are in order and the directory `m` is the mount point. -/
theorem mountVolume_orderly : mountVolume.Orderly mountParts mountImage := by
  have second : CoherentFs.fileTable ⟨6⟩ 3 mountImage = .onlyRoot 2 :=
    CoherentFs.Directories.fileTable_onlyRoot mountImage_mounted rfl (by decide)
  have both : ∀ {P : Partition → Prop}, P ⟨⟨0⟩, 3, 6, 2⟩ → P ⟨⟨6⟩, 3, 6, 2⟩ →
      ∀ part ∈ mountParts, P part := by
    intro P first second part member
    rcases List.mem_cons.mp member with rfl | last
    · exact first
    · exact List.mem_singleton.mp last ▸ second
  refine ⟨both ⟨none, [5], mountImage_orderly⟩ ⟨none, [4, 5], mountImage_mounted_orderly⟩,
    both ?_ ?_, both (fun d entry listed => ?_) (fun d entry listed => ?_),
    both (by decide) (by decide),
    both (both (Or.inl rfl) (Or.inr (Or.inl (by decide))))
      (both (Or.inr (Or.inr (by decide))) (Or.inl rfl)),
    fun handle member => ?_, fun mount listed => ?_⟩
  · rw [Partition.table, mountImage_table]
    rfl
  · rw [Partition.table, second]
    rfl
  · rw [Partition.table, mountImage_table] at listed
    by_cases root : d = 2
    · subst root
      rw [FileTree.Table.entries_of FileTree.Table.insert_parent] at listed
      rw [List.mem_singleton.mp listed]
      decide
    · by_cases here : d = 3
      · subst here
        cases listed
      · rw [FileTree.Table.entries, FileTree.Table.insert_other here root,
          FileTree.Table.onlyRoot, if_neg root] at listed
        cases listed
  · rw [Partition.table, second, FileTree.Table.onlyRoot_entries] at listed
    cases listed
  · rcases List.mem_cons.mp member with rfl | last
    · exact ⟨_, List.mem_cons_self, rfl⟩
    · exact ⟨_, List.mem_cons_of_mem _ List.mem_cons_self, List.mem_singleton.mp last⟩
  · obtain rfl := List.mem_singleton.mp listed
    decide

/-- A file is put into the mounted root by one creation. -/
theorem mountVolume_insert : ∃ t,
    mountVolume.insertOne [1, 2, 3] ['/', 'm', '/', 'f'] none false
        ⟨mountImage, fun _ => 0, [], []⟩ = .ok () t ∧ ∀ call ∈ t.made, call.Spares := by
  have run : returnedCalls (CoherentFs.create ⟨6⟩ (.file ['f'] [1, 2, 3] 0x1A4)
      ⟨mountImage, fun _ => 0, rootDir, []⟩) = some [.tookBlock 4, .tookInode 8] := by
    decide +kernel
  obtain ⟨after, ran, -⟩ := returnedCalls_eq run
  have found : mountVolume.lookupOpen mountImage ['/', 'm'] = some ⟨⟨6⟩, rootDir⟩ := by
    decide
  have missing : mountVolume.lookupOpen mountImage (normalPath ['/', 'm', '/', 'f']) = none := by
    decide
  have valid : validateName ['f'] = .ok () := by decide
  have isDir : rootDir.isDir = true := by decide
  have cut : rpartition (normalPath ['/', 'm', '/', 'f']) = (['/', 'm'], ['f']) := by decide
  have inserted := Volume.insertOne_new (s := ⟨mountImage, fun _ => 0, [], []⟩) [1, 2, 3] none false
    cut valid missing found isDir
  have closed : (mountImage.readBlock (6 + 1)).get32 sbFree = 0 := by decide
  refine ⟨_, inserted.trans (OpenNode.createIn_eq ran), fun call member => ?_⟩
  obtain rfl := List.mem_singleton.mp member
  exact fun isize fsize last list consistent => Or.inl (consistent.stock.closed closed)

/-- The file is inserted below the mount point. -/
theorem insertOne_inserts_mounted : ∃ t,
    mountVolume.insertOne [1, 2, 3] ['/', 'm', '/', 'f'] none false
        ⟨mountImage, fun _ => 0, [], []⟩ = .ok () t ∧
      mountVolume.Orderly mountParts t.image ∧
        (∃ node, mountVolume.lookup t.image ['/', 'm', '/', 'f'] = some node ∧
          node.inode.isFile = true ∧ node.owner.readFile t.image node.inode = [1, 2, 3]) ∧
        mountVolume.Shows mountImage t.image
          (mountVolume.locate t.image ['/', 'm', '/', 'f']) := by
  obtain ⟨t, ran, spares⟩ := mountVolume_insert
  exact ⟨t, ran, Volume.insertOne_inserts mountVolume_orderly ran spares⟩

end C900
