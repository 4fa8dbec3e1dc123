import C900.Fs.Inserting
import C900.Logic.Grafting

/-!
# Copying a tree in

`copy_in` grafts the tree of files that a path of the host shows onto an orderly volume, where it
overwrites no file. The host lists names of one part, each once; every partition is mounted at most
once.
-/

namespace C900

open Grafting

/-- What the names `rest` below a path of the host show: directories and regular files. -/
def HostFiles.shape (host : HostFiles) : PosixPath → List PosixPath → Option Shape
  | q, [] =>
    if host.isDir q then some .dir
    else if host.isFile q then (host.read q).map .file else none
  | q, name :: rest =>
    if host.isDir q ∧ name ∈ (host.listDir q).getD [] then host.shape (PosixPath.join q name) rest
    else none

/-- The host lists each name once, and a name is one part of a path in the image, too. -/
structure HostFiles.Plain (host : HostFiles) : Prop where
  nodup : ∀ {q names}, host.listDir q = some names → names.Nodup
  name : ∀ {q names name}, host.listDir q = some names → name ∈ names →
    (slashed name).parts = [name]

/-- No file of the host has the place of a file of the volume. -/
def Volume.Fresh (v : Volume) (image : Image) (host : HostFiles) (q path : PosixPath) : Prop :=
  ∀ p rest data old, p.parts = path.parts ++ rest → host.shape q rest = some (.file data) →
    v.shape image p ≠ some (.file old)

section CopyingIn

variable {v : Volume} {parts : List Partition} {image : Image} {place : Located}
  {path q name : PosixPath} {names : List PosixPath} {data : List (BitVec 8)} {s t : Tool}
  {mkdirs : Bool} {mode : Option Nat} {host : HostFiles} {depth : Nat}

/-- The calls of a copy come one behind the other. -/
theorem Volume.copyIn_forward (v : Volume) (host : HostFiles) (mode : Option Nat) (mkdirs : Bool)
    (depth : Nat) (q path : PosixPath) : sparing.Forward (v.copyIn host mode mkdirs depth q path) := by
  induction depth generalizing q path with
  | zero => exact .raise _
  | succ depth inductionHypothesis =>
    unfold Volume.copyIn
    refine .ite (.bind (v.ensureDirs_forward _ _) fun _ => ?_) (.ite ?_ (.value _))
    · cases host.listDir q with
      | none => exact .raise _
      | some names => exact .forM (fun name => inductionHypothesis _ _) _
    · cases host.read q with
      | none => exact .raise _
      | some data => exact v.insertOne_forward _ _ _ _

/-- `ensure_dirs` makes its path and what is above it directories, and changes nothing else. -/
theorem Volume.Orderly.ensureDirs (orderly : v.Orderly parts s.image) (single : v.Single) :
    sparing.Returns (v.ensureDirs path mkdirs) s fun _ t => v.Orderly parts t.image ∧
      ∀ p, v.shape t.image p =
        if p.parts <+: path.parts then some .dir else v.shape s.image p := by
  cases reached : v.reach s.image path.parts with
  | some place =>
    refine (orderly.ensureDirs_there reached).mono fun node t found => ?_
    obtain ⟨-, same, dir⟩ := found
    rw [same]
    refine ⟨orderly, fun p => ?_⟩
    split
    · next above => exact orderly.shape_above reached dir above
    · rfl
  | none =>
    obtain ⟨e, m, front, back, split, missing⟩ := Volume.missing_of_reach orderly.rooted reached
    refine (missing.ensureDirs orderly split).mono fun node t made => ?_
    obtain ⟨-, placed⟩ := made
    refine ⟨placed.orderly, fun p => ?_⟩
    rw [placed.shape single]
    by_cases here : p.parts = path.parts
    · rw [if_pos here, if_pos (here ▸ List.prefix_rfl)]
      rfl
    · rw [if_neg here]

/-- `insert_one` grafts a single file where it overwrites none. -/
theorem Volume.Orderly.insertOne (orderly : v.Orderly parts s.image) (single : v.Single)
    (fresh : ∀ p old, p.parts = path.parts → v.shape s.image p ≠ some (.file old)) :
    sparing.Returns (v.insertOne data path mode mkdirs) s fun _ t => v.Orderly parts t.image ∧
      ∀ p, v.shape t.image p =
        if p.parts = path.parts then some (.file data)
        else if p.parts <+: path.parts then some .dir else v.shape s.image p := by
  cases reached : v.reach s.image path.parts with
  | some place =>
    refine (orderly.insertOne_there reached).mono fun _ t written => ?_
    obtain ⟨links, old, has⟩ := written.before
    exact absurd (has.shape orderly reached) (fresh path old rfl)
  | none =>
    obtain ⟨e, m, front, back, split, missing⟩ := Volume.missing_of_reach orderly.rooted reached
    exact (missing.insertOne orderly split).mono fun _ t placed => ⟨placed.orderly, placed.shape single⟩

/-- A host directory is shown at its own place. -/
theorem HostFiles.shape_root (dir : host.isDir q = true) : host.shape q [] = some .dir :=
  if_pos dir

/-- What a host directory lists is shown below it. -/
theorem HostFiles.shape_below (dir : host.isDir q = true) (listed : host.listDir q = some names)
    (member : name ∈ names) (rest : List PosixPath) :
    host.shape q (name :: rest) = host.shape (PosixPath.join q name) rest :=
  if_pos ⟨dir, by rw [listed]; exact member⟩

/-- Nothing is shown below what is no directory. -/
theorem HostFiles.shape_plain (plain : host.isDir q ≠ true) (name : PosixPath) (rest : List PosixPath) :
    host.shape q (name :: rest) = none :=
  if_neg fun both => plain both.1

/-- A name that the host lists is one part. -/
theorem HostFiles.Plain.parts_below (plain : host.Plain) (listed : host.listDir q = some names)
    (member : name ∈ names) (path : PosixPath) :
    (normImg (normImg path ++ '/' :: name)).parts = (normImg path).parts ++ [name] := by
  rw [parts_child, plain.name listed member]

/-- `copy_in` that returns grafts what the host shows. -/
theorem Volume.Orderly.copyIn (single : v.Single) (plain : host.Plain) (depth : Nat)
    (orderly : v.Orderly parts s.image) (fresh : v.Fresh s.image host q (normImg path)) :
    sparing.Returns (v.copyIn host mode mkdirs depth q path) s fun _ t => v.Orderly parts t.image ∧
      ∀ p, v.shape t.image p =
        graft .dir (normImg path).parts (host.shape q) p.parts (v.shape s.image p) := by
  induction depth generalizing s q path with
  | zero => exact .raise _
  | succ depth inductionHypothesis =>
    unfold Volume.copyIn
    refine .ite (fun dir => ?_) fun notDir => .ite (fun file => ?_) fun notFile => .value ?_
    · refine .bind (orderly.ensureDirs single) (fun _ => ?_) fun _ t made => ?_
      · cases host.listDir q with
        | none => exact .raise _
        | some names => exact .forM (fun name => v.copyIn_forward _ _ _ _ _ _) _
      cases listed : host.listDir q with
      | none => exact .raise _
      | some names =>
        have sorted : (sortedNames names).Perm names := List.perm_insertionSort _ _
        have nodup : (sortedNames names).Nodup := sorted.nodup_iff.mpr (plain.nodup listed)
        have member : ∀ {name}, name ∈ sortedNames names ↔ name ∈ names := sorted.mem_iff
        have root := HostFiles.shape_root dir
        have all : only (host.shape q) (sortedNames names) = host.shape q :=
          only_all fun name rest other => if_neg fun both => other (member.mpr (by
            have listed' := both.2
            rwa [listed] at listed'))
        refine (Guard.Returns.forM (fun done u => v.Orderly parts u.image ∧ ∀ p, v.shape u.image p =
          graft .dir (normImg path).parts (only (host.shape q) done) p.parts (v.shape s.image p)) _
          (fun name => v.copyIn_forward _ _ _ _ _ _) ⟨made.1, fun p => ?_⟩ ?_).mono
          fun _ u holds => all ▸ holds
        · have start : only (host.shape q) [] [] = some .dir := root
          rw [made.2, graft_leaf start fun _ _ => only_new List.not_mem_nil _ _]
          by_cases here : p.parts = (normImg path).parts
          · rw [if_pos here, if_pos (here ▸ List.prefix_rfl)]
          · rw [if_neg here]
        · rintro before name after u split ⟨orderly'', shows'⟩
          have inside : name ∈ names :=
            member.mp (split ▸ List.mem_append_right _ List.mem_cons_self)
          have below := HostFiles.shape_below dir listed inside
          have new : name ∉ before := fun again =>
            (List.nodup_append.mp (split ▸ nodup)).2.2 name again name List.mem_cons_self rfl
          have at' := plain.parts_below listed inside path
          refine (inductionHypothesis orderly'' ?_).mono fun _ w holds => ⟨holds.1, fun p => ?_⟩
          · intro p rest data old place file
            rw [at', List.append_assoc, List.singleton_append] at place
            rw [shows', place, graft_below, only_new new, Option.none_or]
            exact fresh p (name :: rest) data old place (by rw [below]; exact file)
          · rw [holds.2, at', shows']
            have grafted := graft_only root new (normImg path).parts p.parts (v.shape s.image p)
            simp only [below] at grafted
            exact grafted
    · cases content : host.read q with
      | none => exact .raise _
      | some data =>
        have root : host.shape q [] = some (.file data) := by
          rw [HostFiles.shape, if_neg notDir, if_pos file, content]
          rfl
        refine (orderly.insertOne single fun p old here => ?_).mono fun _ t made =>
          ⟨made.1, fun p => ?_⟩
        · exact fresh p [] data old (by rw [here, List.append_nil]) root
        · rw [made.2, graft_leaf root (HostFiles.shape_plain notDir)]
    · refine ⟨orderly, fun p => (graft_nothing (fun rest => ?_) _ _ _ _).symm⟩
      cases rest with
      | nil => rw [HostFiles.shape, if_neg notDir, if_neg notFile]
      | cons name rest => exact HostFiles.shape_plain notDir name rest

/-- `copy_in` that returns, each of its calls leaving a block free, on an orderly volume where it
overwrites no file: each path below the target shows what the host shows there, and where the host
shows nothing what it showed before; the directories above the target are there; all else shows what
it showed. -/
theorem Volume.copyIn_grafts (orderly : v.Orderly parts s.image) (single : v.Single)
    (plain : host.Plain) (fresh : v.Fresh s.image host q (normImg path))
    (ran : v.copyIn host mode mkdirs depth q path s = .ok () t)
    (spares : ∀ call ∈ t.made, call.Spares) :
    v.Orderly parts t.image ∧ ∀ p, v.shape t.image p =
      graft .dir (normImg path).parts (host.shape q) p.parts (v.shape s.image p) :=
  Volume.Orderly.copyIn single plain depth orderly fresh () t ran spares

/-- `copy_in` of a directory. -/
theorem Volume.copyIn_dir (v : Volume) (mode : Option Nat) (mkdirs : Bool) (depth : Nat)
    (path : PosixPath) (dir : host.isDir q = true) (listed : host.listDir q = some names) :
    v.copyIn host mode mkdirs (depth + 1) q path =
      (v.ensureDirs (normImg path) true >>= fun _ => (sortedNames names).forM fun name =>
        v.copyIn host mode mkdirs depth (PosixPath.join q name) (normImg path ++ '/' :: name)) := by
  rw [Volume.copyIn, if_pos dir, listed]

/-- A host file is inserted. -/
theorem Volume.copyIn_file (v : Volume) (mode : Option Nat) (mkdirs : Bool) (depth : Nat)
    (path : PosixPath) (notDir : host.isDir q ≠ true) (file : host.isFile q = true)
    (content : host.read q = some data) :
    v.copyIn host mode mkdirs (depth + 1) q path = v.insertOne data (normImg path) mode mkdirs := by
  rw [Volume.copyIn, if_neg notDir, if_pos file, content]

end CopyingIn

/-- A host with a file in a directory. -/
def smallHost : HostFiles where
  isDir q := q = ['h']
  isFile q := q = ['h', '/', 'f']
  listDir q := if q = ['h'] then some [['f']] else none
  read q := if q = ['h', '/', 'f'] then some [1, 2, 3] else none

/-- The names of the host are plain. -/
theorem smallHost_plain : smallHost.Plain := by
  constructor
  · intro q names listed
    unfold smallHost at listed
    dsimp only at listed
    split at listed
    · cases listed
      exact List.nodup_singleton _
    · cases listed
  · intro q names name listed member
    unfold smallHost at listed
    dsimp only at listed
    split at listed
    · cases listed
      obtain rfl := List.mem_singleton.mp member
      decide
    · cases listed

/-- The one file of the host. -/
theorem smallHost_file {rest : List PosixPath} {data : List (BitVec 8)}
    (file : smallHost.shape ['h'] rest = some (.file data)) : rest = [['f']] := by
  have dir : smallHost.isDir ['h'] = true := by decide
  have listed : smallHost.listDir ['h'] = some [['f']] := by decide
  have plain : smallHost.isDir ['h', '/', 'f'] ≠ true := by decide
  cases rest with
  | nil =>
    rw [HostFiles.shape_root dir] at file
    cases file
  | cons name rest =>
    by_cases here : name = ['f']
    · subst here
      cases rest with
      | nil => rfl
      | cons name rest =>
        rw [HostFiles.shape_below dir listed List.mem_cons_self] at file
        have deeper := HostFiles.shape_plain plain name rest
        rw [show PosixPath.join ['h'] ['f'] = ['h', '/', 'f'] by decide, deeper] at file
        cases file
    · rw [HostFiles.shape, if_neg fun both => here ?_] at file
      · cases file
      · have listed' := both.2
        rw [listed] at listed'
        exact List.mem_singleton.mp listed'

/-- The partitions of the volume are two. -/
theorem mountVolume_single : mountVolume.Single := by
  have apart : mountVolume.root ≠ ⟨⟨6⟩, 2⟩ := fun same => by cases same
  exact List.nodup_cons.mpr ⟨fun member => apart (List.mem_singleton.mp member), List.nodup_singleton _⟩

/-- The directory is copied into the mounted root. -/
theorem copyIn_grafts_mounted : ∃ t,
    mountVolume.copyIn smallHost none false 2 ['h'] ['/', 'm']
        ⟨mountImage, fun _ => 0, [], []⟩ = .ok () t ∧
      mountVolume.Orderly mountParts t.image ∧ ∀ p, mountVolume.shape t.image p =
        graft .dir (normImg ['/', 'm']).parts (smallHost.shape ['h']) p.parts
          (mountVolume.shape mountImage p) := by
  obtain ⟨t, ran, spares⟩ := mountVolume_insert
  have path : normImg (normImg ['/', 'm'] ++ '/' :: ['f']) = ['/', 'm', '/', 'f'] := by decide
  have copied : mountVolume.copyIn smallHost none false 2 ['h'] ['/', 'm']
      ⟨mountImage, fun _ => 0, [], []⟩ = .ok () t := by
    have found : mountVolume.lookupOpen mountImage (normImg ['/', 'm']) = some ⟨⟨6⟩, rootDir⟩ := by
      decide
    have ensured : mountVolume.ensureDirs (normImg ['/', 'm']) true
        ⟨mountImage, fun _ => 0, [], []⟩ =
          .ok (some ⟨⟨6⟩, rootDir⟩) ⟨mountImage, fun _ => 0, [], []⟩ :=
      Volume.ensureDirs_found (s := ⟨mountImage, fun _ => 0, [], []⟩) true found (by decide)
    have listed : smallHost.listDir ['h'] = some [['f']] := by decide
    rw [mountVolume.copyIn_dir none false 1 ['/', 'm'] (by decide) listed, EStateM.bind_ok ensured]
    have joined : PosixPath.join ['h'] ['f'] = ['h', '/', 'f'] := by decide
    have content : smallHost.read ['h', '/', 'f'] = some [1, 2, 3] := by decide
    have file := mountVolume.copyIn_file none false 0 (normImg ['/', 'm'] ++ '/' :: ['f'])
      (by decide) (by decide) content
    rw [path] at file
    change (mountVolume.copyIn smallHost none false 1 (PosixPath.join ['h'] ['f'])
      (normImg ['/', 'm'] ++ '/' :: ['f']) >>= fun _ => pure ()) _ = _
    rw [joined, file, EStateM.bind_ok ran]
    rfl
  have single : mountVolume.Single := mountVolume_single
  refine ⟨t, copied, Volume.copyIn_grafts (s := ⟨mountImage, fun _ => 0, [], []⟩) mountVolume_orderly
    single smallHost_plain ?_ copied spares⟩
  intro p rest data old place file
  obtain rfl := smallHost_file file
  have nowhere : mountVolume.shape mountImage ['/', 'm', '/', 'f'] = none := by decide
  have same : mountVolume.shape mountImage p = mountVolume.shape mountImage ['/', 'm', '/', 'f'] :=
    Volume.shape_congr (place.trans (by decide))
  rw [same, nowhere]
  exact Option.some_ne_none _ |>.symm

end C900
