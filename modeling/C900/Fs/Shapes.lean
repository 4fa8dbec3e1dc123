import C900.Fs.MethodCalls

/-!
# What paths show

A path shows a directory, a file with its content, or something else. On an orderly volume whose
partitions are each mounted at most once, a directory is reached by one path alone, so a creation
changes what a single path shows.
-/

namespace C900

/-- What is at the end of a path. -/
inductive Shape where
  | dir
  | file (content : List (BitVec 8))
  | special
deriving DecidableEq

/-- The shape of an item. -/
def Shape.of : FileTree.Item Nat PosixPath (List (BitVec 8)) → Shape
  | .file _ content => .file content
  | .dir _ _ => .dir
  | .special _ => .special

/-- The shape of what `lookup` gives. -/
def Node.shape (node : Node) (image : Image) : Shape :=
  if node.inode.isDir then .dir
  else if node.inode.isFile then .file (node.owner.readFile image node.inode)
  else .special

/-- What a path shows. -/
def Volume.shape (v : Volume) (image : Image) (path : PosixPath) : Option Shape :=
  (v.lookup image path).map (·.shape image)

/-- What the names show one after the other. -/
def Volume.seen (v : Volume) (image : Image) (names : List PosixPath) : Option Shape :=
  (v.reach image names).bind fun place => (place.node image).map (·.shape image)

/-- No partition is mounted twice, and the root is not mounted. -/
def Volume.Single (v : Volume) : Prop := (v.root :: v.mounts.map Prod.snd).Nodup

/-- The names lead to `e` up to the first one that is missing there. -/
structure Volume.Missing (v : Volume) (image : Image) (e : Located) (m : PosixPath)
    (front : List PosixPath) : Prop where
  reached : v.reach image front = some e
  missing : e.entry image m = none

section Shapes

variable {v : Volume} {parts : List Partition} {image after : Image} {e place : Located}
  {m name path : PosixPath} {names front back : List PosixPath}
  {item : FileTree.Item Nat PosixPath (List (BitVec 8))}

/-! ## Paths that lead nowhere -/

/-- Nothing is below a name that is missing. -/
theorem Volume.Missing.reach (missing : v.Missing image e m front) (back : List PosixPath) :
    v.reach image (front ++ m :: back) = none := by
  induction back using List.reverseRecOn with
  | nil => rw [Volume.reach_append, missing.reached, Option.bind_some, missing.missing, Option.map_none]
  | append_singleton init last inductionHypothesis =>
    rw [show front ++ m :: (init ++ [last]) = front ++ m :: init ++ [last] by simp,
      Volume.reach_append, inductionHypothesis, Option.bind_none]

/-- What lies on the way to a place that is reached is reached. -/
theorem Volume.reach_front (reached : v.reach image (front ++ back) = some place) :
    ∃ place, v.reach image front = some place := by
  induction back using List.reverseRecOn generalizing place with
  | nil => exact ⟨place, by rwa [List.append_nil] at reached⟩
  | append_singleton init last inductionHypothesis =>
    rw [← List.append_assoc, Volume.reach_append] at reached
    obtain ⟨next, here, -⟩ := Option.bind_eq_some_iff.mp reached
    exact inductionHypothesis here

/-- A path that leads nowhere has a first missing name. -/
theorem Volume.missing_of_reach (rooted : (v.reach image []).isSome)
    (nowhere : v.reach image names = none) :
    ∃ e m front back, names = front ++ m :: back ∧ v.Missing image e m front := by
  induction names using List.reverseRecOn with
  | nil =>
    rw [nowhere] at rooted
    cases rooted
  | append_singleton init last inductionHypothesis =>
    cases reached : v.reach image init with
    | none =>
      obtain ⟨e, m, front, back, split, missing⟩ := inductionHypothesis reached
      exact ⟨e, m, front, back ++ [last], by rw [split]; simp, missing⟩
    | some e =>
      refine ⟨e, last, init, [], rfl, reached, ?_⟩
      rw [Volume.reach_append, reached, Option.bind_some, Option.map_eq_none_iff] at nowhere
      exact nowhere

/-- No partition is mounted on a path that leads nowhere. -/
theorem Volume.Orderly.unmounted (orderly : v.Orderly parts image)
    (plain : ∀ n ∈ names ++ [name], PosixPath.parts n = [n])
    (nowhere : v.reach image (names ++ [name]) = none) :
    v.mountAt (names.flatMap ('/' :: ·) ++ '/' :: name) = none := by
  cases mounted : v.mountAt (names.flatMap ('/' :: ·) ++ '/' :: name) with
  | none => rfl
  | some sub =>
    obtain ⟨mount, listed, -⟩ := Option.map_eq_some_iff.mp mounted
    have found := orderly.mounted mount (List.mem_of_find?_eq_some listed)
    have here : mount.1 = (names ++ [name]).flatMap ('/' :: ·) := by
      rw [List.flatMap_append, List.flatMap_singleton]
      have eq := List.find?_some listed
      exact of_decide_eq_true eq
    rw [here, PosixPath.parts_flatMap plain, nowhere] at found
    cases found

/-- An orderly volume has its root. -/
theorem Volume.Orderly.rooted (orderly : v.Orderly parts image) : (v.reach image []).isSome := by
  obtain ⟨part, member, owner, here⟩ := orderly.root_used List.mem_cons_self
  rw [Partition.table_isSome ((orderly.wellFormed member).inside here), ← owner] at here
  obtain ⟨root, rooted⟩ := Option.isSome_iff_exists.mp here
  unfold Volume.reach Handle.rootNode
  rw [rooted]
  rfl

/-- An empty directory has no name. -/
theorem Located.Has.entry_none (has : place.Has parts image item) (orderly : v.Orderly parts image)
    (empty : item.entries = []) : place.entry image name = none := by
  obtain ⟨part, member, owner, found⟩ := has
  obtain ⟨fs, ino⟩ := place
  obtain rfl : fs = part.fs := owner
  have wellFormed := orderly.wellFormed member
  rw [Partition.entry wellFormed (wellFormed.inside (by rw [found]; rfl)),
    FileTree.Table.child_alone found empty]
  rfl

/-- A creation under a name that leads nowhere. -/
theorem Volume.Created.reach (created : v.Created parts place name item image after)
    (orderly : v.Orderly parts image) (reached : v.reach image names = some place)
    (plain : ∀ n ∈ names ++ [name], PosixPath.parts n = [n]) :
    ∃ new : Located, v.reach after (names ++ [name]) = some new ∧ new.Free parts image ∧
      new.Has parts after item := by
  obtain ⟨new, free, has, entered⟩ := created.child
  have nowhere : v.reach image (names ++ [name]) = none := by
    rw [Volume.reach_append, reached, Option.bind_some, created.free, Option.map_none]
  have still : v.reach after names = some place := by
    refine created.grows.keeps.reach orderly (fun part member => created.orderly.wellFormed member)
      ?_ reached
    rintro _ _ ⟨rfl, rfl⟩
    exact created.free
  refine ⟨new, ?_, free, has⟩
  rw [Volume.reach_append, still, Option.bind_some, entered, Option.map_some]
  unfold Volume.crossTo
  rw [orderly.unmounted plain nowhere]


/-- What a path shows depends on its parts. -/
theorem Volume.shape_seen (v : Volume) (image : Image) (path : PosixPath) :
    v.shape image path = v.seen image path.parts := by
  rw [Volume.shape, Volume.lookup_locate, Volume.locate_reach, Volume.seen]
  cases v.reach image path.parts <;> rfl

/-- What is at a place is what its names show. -/
theorem Located.Has.seen (has : place.Has parts image item) (orderly : v.Orderly parts image)
    (reached : v.reach image names = some place) : v.seen image names = some (Shape.of item) := by
  obtain ⟨node, here⟩ := has.used.openNode orderly
  obtain ⟨owner, -, -, has'⟩ := has.used.opened orderly here
  rw [Volume.seen, reached, Option.bind_some, ← place.openNode_node, here, Option.map_some,
    Option.map_some, ← has'.unique orderly has, ← owner]
  unfold CoherentFs.item Node.shape
  dsimp only
  split
  · next dir => rw [if_neg (Inode.not_isFile_of_isDir dir)]; rfl
  · split <;> rfl

/-- A path shows the item that it leads to. -/
theorem Located.Has.shape (has : place.Has parts image item) (orderly : v.Orderly parts image)
    (reached : v.reach image path.parts = some place) :
    v.shape image path = some (Shape.of item) := by
  rw [Volume.shape_seen, has.seen orderly reached]

/-- Two spellings of one path show the same. -/
theorem Volume.shape_congr {other : PosixPath} (same : path.parts = other.parts) :
    v.shape image path = v.shape image other := by
  rw [Volume.shape_seen, Volume.shape_seen, same]

/-- A path that leads nowhere shows nothing. -/
theorem Volume.shape_nowhere (nowhere : v.reach image path.parts = none) :
    v.shape image path = none := by
  rw [Volume.shape_seen, Volume.seen, nowhere, Option.bind_none]

/-- What is at the end of a path that leads somewhere. -/
theorem Volume.Orderly.reach_has (orderly : v.Orderly parts image)
    (reached : v.reach image names = some place) : ∃ item, place.Has parts image item := by
  obtain ⟨node, here⟩ := (orderly.reach_used reached).openNode orderly
  obtain ⟨-, -, -, has⟩ := (orderly.reach_used reached).opened orderly here
  exact ⟨_, has⟩

/-- Only directories have entries. -/
theorem Volume.Orderly.entry_dir (orderly : v.Orderly parts image) (inside : place.In parts)
    (entered : place.entry image name = some e) :
    ∃ links entries, place.Has parts image (.dir links entries) := by
  obtain ⟨part, member, owner, table⟩ := inside
  obtain ⟨fs, ino⟩ := place
  obtain rfl : fs = part.fs := owner
  rw [Partition.entry (orderly.wellFormed member) table] at entered
  obtain ⟨x, child, -⟩ := Option.map_eq_some_iff.mp entered
  cases found : part.table image ino with
  | none =>
    rw [FileTree.Table.child_none found] at child
    cases child
  | some item =>
    cases item with
    | dir links entries => exact ⟨links, entries, part, member, rfl, found⟩
    | file links content =>
      rw [FileTree.Table.child_alone found rfl] at child
      cases child
    | special links =>
      rw [FileTree.Table.child_alone found rfl] at child
      cases child

/-! ## One path for a directory -/

/-- A path leads to the root of a partition that it crosses to, or to an entry. -/
theorem Volume.reach_cases (reached : v.reach image names = some place) :
    (∃ handle : Handle, place = ⟨handle.fs, handle.rootIno⟩ ∧
      (v.mountAt (names.flatMap ('/' :: ·)) = some handle ∨ names = [] ∧ handle = v.root)) ∨
    ∃ front name e, names = front ++ [name] ∧ v.reach image front = some e ∧
      e.entry image name = some place := by
  have crossed : ∀ (p : PosixPath) (here : Located), v.crossTo p here = place →
      (∃ handle : Handle, place = ⟨handle.fs, handle.rootIno⟩ ∧ v.mountAt p = some handle) ∨
        here = place := by
    intro p here same
    unfold Volume.crossTo at same
    split at same
    · next sub mounted => exact Or.inl ⟨sub, same.symm, mounted⟩
    · exact Or.inr same
  cases names using List.reverseRecOn with
  | nil =>
    obtain ⟨root, -, walked⟩ := Option.bind_eq_some_iff.mp reached
    rcases crossed _ _ (Option.some.inj walked) with ⟨handle, same, mounted⟩ | same
    · exact Or.inl ⟨handle, same, Or.inl mounted⟩
    · exact Or.inl ⟨v.root, same.symm, Or.inr ⟨rfl, rfl⟩⟩
  | append_singleton front name =>
    rw [Volume.reach_append] at reached
    obtain ⟨e, here, next⟩ := Option.bind_eq_some_iff.mp reached
    obtain ⟨next, entered, same⟩ := Option.map_eq_some_iff.mp next
    rcases crossed _ _ same with ⟨handle, same, mounted⟩ | rfl
    · refine Or.inl ⟨handle, same, Or.inl ?_⟩
      rw [List.flatMap_append, List.flatMap_singleton]
      exact mounted
    · exact Or.inr ⟨front, name, e, rfl, here, entered⟩

/-- A partition is mounted on one path. -/
theorem Volume.Single.mount (single : v.Single) {p q : PosixPath} {handle : Handle}
    (here : v.mountAt p = some handle) (there : v.mountAt q = some handle) : p = q := by
  have nodup := (List.nodup_cons.mp single).2
  obtain ⟨mount, listed, rfl⟩ := Option.map_eq_some_iff.mp here
  obtain ⟨mount', listed', same⟩ := Option.map_eq_some_iff.mp there
  have equal := List.inj_on_of_nodup_map nodup (List.mem_of_find?_eq_some listed')
    (List.mem_of_find?_eq_some listed) same
  have path := List.find?_some listed
  have path' := List.find?_some listed'
  rw [equal] at path'
  exact (of_decide_eq_true path).symm.trans (of_decide_eq_true path')

/-- The root partition is not mounted a second time. -/
theorem Volume.Single.not_root (single : v.Single) {p : PosixPath} : v.mountAt p ≠ some v.root := by
  intro mounted
  obtain ⟨mount, listed, same⟩ := Option.map_eq_some_iff.mp mounted
  exact (List.nodup_cons.mp single).1
    (List.mem_map.mpr ⟨mount, List.mem_of_find?_eq_some listed, same⟩)

/-- A handle of the volume is known by its partition. -/
theorem Volume.Orderly.handle_unique (orderly : v.Orderly parts image) {handle other : Handle}
    (member : handle ∈ v.root :: v.mounts.map Prod.snd)
    (member' : other ∈ v.root :: v.mounts.map Prod.snd) (owner : handle.fs = other.fs) :
    handle = other := by
  obtain ⟨part, inside, rfl⟩ := orderly.handles handle member
  obtain ⟨part', inside', rfl⟩ := orderly.handles other member'
  rw [orderly.same inside inside' owner]

/-- A mounted partition is one of the volume. -/
theorem Volume.mem_of_mountAt {p : PosixPath} {handle : Handle} (mounted : v.mountAt p = some handle) :
    handle ∈ v.root :: v.mounts.map Prod.snd := by
  obtain ⟨mount, listed, same⟩ := Option.map_eq_some_iff.mp mounted
  exact List.mem_cons_of_mem _ (List.mem_map.mpr ⟨mount, List.mem_of_find?_eq_some listed, same⟩)

/-- The root of a partition is no entry. -/
theorem Volume.Orderly.entry_not_root (orderly : v.Orderly parts image) (inside : e.In parts)
    (entered : e.entry image name = some place) {handle : Handle}
    (member : handle ∈ v.root :: v.mounts.map Prod.snd) : place ≠ ⟨handle.fs, handle.rootIno⟩ := by
  rintro rfl
  obtain ⟨part, inside', rfl⟩ := orderly.handles handle member
  obtain ⟨part', member', owner, table⟩ := inside
  obtain ⟨fs, ino⟩ := e
  obtain rfl : fs = part'.fs := owner
  rw [Partition.entry (orderly.wellFormed member') table] at entered
  obtain ⟨x, child, same⟩ := Option.map_eq_some_iff.mp entered
  obtain ⟨owner, rfl⟩ := Located.mk.inj same
  obtain rfl := orderly.same member' inside' owner
  exact (orderly.wellFormed member').not_holds_root (orderly.roots _ member')
    (FileTree.Table.holds_of_child child)

/-- A directory is an entry once. -/
theorem Volume.Orderly.entry_unique (orderly : v.Orderly parts image) {other : Located}
    {name' : PosixPath} (inside : e.In parts) (inside' : other.In parts)
    (dir : ∃ links entries, place.Has parts image (.dir links entries))
    (entered : e.entry image name = some place) (entered' : other.entry image name' = some place) :
    e = other ∧ name = name' := by
  obtain ⟨links, entries, here, holder, owns, found⟩ := dir
  obtain ⟨part, member, owner, table⟩ := inside
  obtain ⟨part', member', owner', table'⟩ := inside'
  obtain ⟨fs, ino⟩ := e
  obtain ⟨fs', ino'⟩ := other
  obtain rfl : fs = part.fs := owner
  obtain rfl : fs' = part'.fs := owner'
  rw [Partition.entry (orderly.wellFormed member) table] at entered
  rw [Partition.entry (orderly.wellFormed member') table'] at entered'
  obtain ⟨x, child, rfl⟩ := Option.map_eq_some_iff.mp entered
  obtain ⟨y, child', same⟩ := Option.map_eq_some_iff.mp entered'
  obtain ⟨owner', rfl⟩ := Located.mk.inj same
  obtain rfl := orderly.same member' member owner'
  obtain rfl := orderly.same member' holder owns
  obtain ⟨rfl, rfl⟩ := (orderly.wellFormed member').child_unique
    (by rw [FileTree.Table.isDir_of found]; rfl) child child'
  exact ⟨rfl, rfl⟩

/-- One path crosses to a partition. -/
theorem Volume.Orderly.cross_unique (orderly : v.Orderly parts image) (single : v.Single)
    {others : List PosixPath} (plain : ∀ n ∈ names, PosixPath.parts n = [n])
    (plain' : ∀ n ∈ others, PosixPath.parts n = [n]) {handle : Handle}
    (crossed : v.mountAt (names.flatMap ('/' :: ·)) = some handle ∨ names = [] ∧ handle = v.root)
    (reached : v.reach image others = some ⟨handle.fs, handle.rootIno⟩) : names = others := by
  have member : handle ∈ v.root :: v.mounts.map Prod.snd := by
    rcases crossed with mounted | ⟨-, rfl⟩
    · exact Volume.mem_of_mountAt mounted
    · exact List.mem_cons_self
  rcases Volume.reach_cases reached with ⟨other, same, crossed'⟩ | ⟨front, name, e, -, here, entered⟩
  · have member' : other ∈ v.root :: v.mounts.map Prod.snd := by
      rcases crossed' with mounted | ⟨-, rfl⟩
      · exact Volume.mem_of_mountAt mounted
      · exact List.mem_cons_self
    obtain rfl := orderly.handle_unique member member' (Located.mk.inj same).1
    rcases crossed with mounted | ⟨rfl, rfl⟩
    · rcases crossed' with mounted' | ⟨-, rfl⟩
      · rw [← PosixPath.parts_flatMap plain, single.mount mounted mounted', PosixPath.parts_flatMap plain']
      · exact absurd mounted single.not_root
    · rcases crossed' with mounted' | ⟨rfl, -⟩
      · exact absurd mounted' single.not_root
      · rfl
  · exact absurd rfl (orderly.entry_not_root ((orderly.reach_used here).within orderly) entered member)

/-- Paths to a directory are the same. -/
theorem Volume.Orderly.reach_unique (orderly : v.Orderly parts image) (single : v.Single)
    {others : List PosixPath} (plain : ∀ n ∈ names, PosixPath.parts n = [n])
    (plain' : ∀ n ∈ others, PosixPath.parts n = [n])
    (dir : ∃ links entries, place.Has parts image (.dir links entries))
    (reached : v.reach image names = some place) (reached' : v.reach image others = some place) :
    names = others := by
  induction names using List.reverseRecOn generalizing others place with
  | nil =>
    rcases Volume.reach_cases reached with ⟨handle, rfl, crossed⟩ | ⟨front, name, e, split, -, -⟩
    · exact orderly.cross_unique single plain plain' crossed reached'
    · simp at split
  | append_singleton front name inductionHypothesis =>
    rcases Volume.reach_cases reached with ⟨handle, rfl, crossed⟩ | ⟨_, _, e, split, here, entered⟩
    · exact orderly.cross_unique single plain plain' crossed reached'
    obtain ⟨rfl, last⟩ := List.append_inj' split rfl
    obtain rfl := List.singleton_inj.mp last
    rcases Volume.reach_cases reached' with ⟨handle, rfl, crossed⟩ |
      ⟨front', name', e', rfl, here', entered'⟩
    · exact (orderly.cross_unique single plain' plain crossed reached).symm
    have inside := (orderly.reach_used here).within orderly
    -- A directory has one name in one directory, which has one path.
    obtain ⟨rfl, rfl⟩ := orderly.entry_unique inside ((orderly.reach_used here').within orderly) dir
      entered entered'
    rw [inductionHypothesis (fun n member => plain n (List.mem_append_left _ member))
      (fun n member => plain' n (List.mem_append_left _ member)) (orderly.entry_dir inside entered)
      here here']

/-! ## One more item -/

/-- What stays shows what it showed. -/
theorem VolumeGrows.shape {spot : Located → PosixPath → Prop}
    (grows : VolumeGrows parts image after spot) (orderly : v.Orderly parts image)
    (later : v.Orderly parts after) (reached : v.reach image path.parts = some place)
    (reached' : v.reach after path.parts = some place) : v.shape after path = v.shape image path := by
  obtain ⟨item, has⟩ := orderly.reach_has reached
  rw [has.shape orderly reached]
  cases item with
  | file links content => exact (grows.file has).shape later reached'
  | dir links entries =>
    obtain ⟨_, _, has'⟩ := grows.keeps.dir has
    exact has'.shape later reached'
  | special links =>
    obtain ⟨part, member, owner, found⟩ := has
    have has' : place.Has parts after (.special links) := by
      refine ⟨part, member, owner, ?_⟩
      rw [(grows part member).plain (by rw [found]; rfl) (by rw [FileTree.Table.isDir_of found]; rfl),
        found]
    exact has'.shape later reached'

/-- The way to a directory consists of directories. -/
theorem Volume.Orderly.shape_above (orderly : v.Orderly parts image)
    (reached : v.reach image names = some place)
    (dir : ∃ links entries, place.Has parts image (.dir links entries))
    (above : path.parts <+: names) : v.shape image path = some .dir := by
  obtain ⟨rest, rfl⟩ := above
  cases rest with
  | nil =>
    obtain ⟨links, entries, has⟩ := dir
    rw [List.append_nil] at reached
    exact has.shape orderly reached
  | cons n rest =>
    rw [List.append_cons] at reached
    obtain ⟨next, reached⟩ := Volume.reach_front reached
    rw [Volume.reach_append] at reached
    obtain ⟨here, reached, entered⟩ := Option.bind_eq_some_iff.mp reached
    obtain ⟨there, entered, -⟩ := Option.map_eq_some_iff.mp entered
    obtain ⟨links, entries, has⟩ :=
      orderly.entry_dir ((orderly.reach_used reached).within orderly) entered
    exact has.shape orderly reached

/-- What has got an entry was a directory. -/
theorem Volume.Created.parent_dir (created : v.Created parts e m item image after)
    (orderly : v.Orderly parts image) (used : e.Used parts image) :
    ∃ links entries, e.Has parts image (.dir links entries) := by
  obtain ⟨new, -, -, entered⟩ := created.child
  obtain ⟨_, _, part', member', owner', found'⟩ := created.orderly.entry_dir (used.within orderly) entered
  obtain ⟨part, member, owner, here⟩ := used
  obtain rfl := orderly.same member' member (owner'.symm.trans owner)
  have dir := (created.grows part' member).isDir here
  rw [FileTree.Table.isDir_of found'] at dir
  obtain ⟨item, found⟩ := Option.isSome_iff_exists.mp here
  rw [FileTree.Table.isDir_of found] at dir
  cases item with
  | dir links entries => exact ⟨links, entries, part', member, owner, found⟩
  | file => cases dir
  | special => cases dir

/-- A creation changes what one path shows. -/
theorem Volume.Created.shape (created : v.Created parts e m item image after)
    (orderly : v.Orderly parts image) (single : v.Single) (empty : item.entries = [])
    (reached : v.reach image names = some e)
    (plain : ∀ n ∈ names ++ [m], PosixPath.parts n = [n]) (path : PosixPath) :
    v.shape after path =
      if path.parts = names ++ [m] then some (Shape.of item) else v.shape image path := by
  have later : ∀ part ∈ parts, (part.table after).WellFormed (tableNumbers part.isize) part.root :=
    fun part member => created.orderly.wellFormed member
  have free : ∀ place n, place = e ∧ n = m → place.entry image n = none := by
    rintro _ _ ⟨rfl, rfl⟩
    exact created.free
  obtain ⟨new, reached', -, has⟩ := created.reach orderly reached plain
  have missing : v.Missing image e m names := ⟨reached, created.free⟩
  split
  · next here => exact has.shape created.orderly (here ▸ reached')
  · next other =>
    cases found : v.reach image path.parts with
    | some place =>
      exact created.grows.shape orderly created.orderly found
        (created.grows.keeps.reach orderly later free found)
    | none =>
      rw [Volume.shape_nowhere found]
      refine Volume.shape_nowhere ?_
      obtain ⟨e', m', front, back, split, there⟩ := Volume.missing_of_reach orderly.rooted found
      have still := created.grows.keeps.reach orderly later free there.reached
      by_cases same : e' = e ∧ m' = m
      · -- The path leads through the new item, which has no entries.
        obtain ⟨rfl, rfl⟩ := same
        have inside := (orderly.reach_used there.reached).within orderly
        have dir := created.parent_dir orderly (orderly.reach_used reached)
        obtain rfl := orderly.reach_unique single
          (fun n member => PosixPath.parts_of_mem (split ▸ List.mem_append_left _ member))
          (fun n member => plain n (List.mem_append_left _ member)) dir there.reached reached
        cases back with
        | nil => exact absurd split other
        | cons n rest =>
          rw [split, List.append_cons]
          exact Volume.Missing.reach ⟨reached', has.entry_none created.orderly empty⟩ rest
      · refine split ▸ Volume.Missing.reach ⟨still, ?_⟩ back
        rw [created.grows.keeps.entry orderly later (orderly.reach_used there.reached) same,
          there.missing]

end Shapes

end C900
