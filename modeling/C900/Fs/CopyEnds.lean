import C900.Fs.Confined
import C900.Logic.Raising
import Mathlib.Data.Set.Finite.List
import Mathlib.Data.Set.Finite.Lattice
import Mathlib.Order.Filter.AtTopBot.Basic
import Mathlib.Order.Filter.Finite
import Mathlib.Order.Preorder.Finite

/-!
# Copies that end

`copy_out` keeps no record of the directories that it is in. It ends on every host when the part
of the directory graph that it comes to has no cycle, and on a host that answers every call it
goes around a cycle for ever.
-/

namespace C900

/-! ## Resolving parts -/

/-- `lookup` on the parts of a path. -/
def Volume.resolve (v : Volume) (image : Image) (parts : List PosixPath) : Option Node :=
  match v.root.rootNode image with
  | none => none
  | some root => v.descend image parts [] (v.cross image [] root)

theorem Volume.lookup_eq (v : Volume) (image : Image) (path : PosixPath) :
    v.lookup image path = v.resolve image path.parts := rfl

section Resolve

variable {v : Volume} {image : Image}

theorem descend_none (parts : List PosixPath) (path : PosixPath) :
    v.descend image parts path none = none := by
  cases parts <;> rfl

theorem descend_cons (part : PosixPath) (rest : List PosixPath) (path : PosixPath) (node : Node) :
    v.descend image (part :: rest) path (some node) =
      if node.inode.isDir then
        v.descend image rest (path ++ '/' :: part)
          ((node.entry image part).bind (v.cross image (path ++ '/' :: part)))
      else none := by
  rw [Volume.descend]
  cases node.entry image part with
  | none => simp only [Option.bind_none, descend_none]
  | some next => rfl

theorem descend_append (front back : List PosixPath) (path : PosixPath) (cur : Option Node) :
    v.descend image (front ++ back) path cur =
      v.descend image back (path ++ front.flatMap ('/' :: ·)) (v.descend image front path cur) := by
  induction front generalizing path cur with
  | nil =>
    rw [List.flatMap_nil, List.append_nil, List.nil_append]
    cases cur <;> rfl
  | cons part front inductionHypothesis =>
    cases cur with
    | none => rw [descend_none, descend_none, descend_none]
    | some node =>
      rw [List.cons_append, descend_cons, descend_cons]
      split_ifs
      · rw [inductionHypothesis, List.flatMap_cons, List.append_assoc]
      · rw [descend_none]

/-- Deeper than every mount point the path itself plays no part. -/
theorem descend_deep (parts : List PosixPath) {path other : PosixPath}
    (deep : ∀ mount ∈ v.mounts, mount.1.length < path.length ∧ mount.1.length < other.length)
    (cur : Option Node) : v.descend image parts path cur = v.descend image parts other cur := by
  induction parts generalizing path other cur with
  | nil => cases cur <;> rfl
  | cons part rest inductionHypothesis =>
    cases cur with
    | none => rfl
    | some node =>
      have next : ∀ mount ∈ v.mounts, mount.1.length < (path ++ '/' :: part).length ∧
          mount.1.length < (other ++ '/' :: part).length := by
        intro mount member
        obtain ⟨shorter, short⟩ := deep mount member
        rw [List.length_append, List.length_append]
        omega
      have unmounted : ∀ at', (∀ mount ∈ v.mounts, mount.1.length < at'.length) → ∀ n,
          v.cross image at' n = some n := by
        intro at' longer n
        have none : v.mountAt at' = none := by
          unfold Volume.mountAt
          rw [Option.map_eq_none_iff, List.find?_eq_none]
          intro mount member same
          have shorter := longer mount member
          rw [of_decide_eq_true same] at shorter
          exact Nat.lt_irrefl _ shorter
        rw [Volume.cross, none]
      rw [descend_cons, descend_cons, inductionHypothesis next]
      congr 3
      funext n
      rw [unmounted _ (fun mount member => (next mount member).1),
        unmounted _ (fun mount member => (next mount member).2)]

/-- The nodes that can be found. -/
def Volume.nodes (v : Volume) (image : Image) : List Node :=
  (v.root :: v.mounts.map Prod.snd).flatMap fun handle =>
    (handle.rootIno :: List.range 65536).filterMap fun ino =>
      (handle.fs.stat image ino).map (Node.mk handle.fs)

theorem mem_nodes {handle : Handle} (known : handle ∈ v.root :: v.mounts.map Prod.snd) {ino : Nat}
    (number : ino = handle.rootIno ∨ ino < 65536) {node : Node}
    (found : (handle.fs.stat image ino).map (Node.mk handle.fs) = some node) :
    node ∈ v.nodes image ∧ ∃ handle ∈ v.root :: v.mounts.map Prod.snd, node.owner = handle.fs := by
  constructor
  · refine List.mem_flatMap.mpr ⟨handle, known, List.mem_filterMap.mpr ⟨ino, ?_, found⟩⟩
    rcases number with rfl | small
    · exact List.mem_cons_self
    · exact List.mem_cons_of_mem _ (List.mem_range.mpr small)
  · obtain ⟨inode, -, rfl⟩ := Option.map_eq_some_iff.mp found
    exact ⟨handle, known, rfl⟩

theorem readDir_ino_lt {fs : CoherentFs} {inode : Inode} {entry : Nat × PosixPath}
    (member : entry ∈ fs.readDir image inode) : entry.1 < 65536 := by
  unfold CoherentFs.readDir at member
  split_ifs at member
  · obtain ⟨k, -, read⟩ := List.mem_filterMap.mp member
    unfold readDirent at read
    dsimp only at read
    split_ifs at read
    obtain rfl := Option.some.inj read
    have low := (((List.drop (direntSize * k) (fs.readFile image inode)).take direntSize).getD 0 0).isLt
    have high := (((List.drop (direntSize * k) (fs.readFile image inode)).take direntSize).getD 1 0).isLt
    dsimp only
    omega
  · exact absurd member List.not_mem_nil

/-- A lookup stays with the nodes that can be found. -/
theorem resolve_nodes {parts : List PosixPath} {node : Node}
    (found : v.resolve image parts = some node) : node ∈ v.nodes image := by
  let Known (node : Node) : Prop :=
    node ∈ v.nodes image ∧ ∃ handle ∈ v.root :: v.mounts.map Prod.snd, node.owner = handle.fs
  have crossed : ∀ path node next, Known node → v.cross image path node = some next →
      Known next := by
    intro path node next known crossing
    unfold Volume.cross at crossing
    split at crossing
    case h_1 sub mounted =>
      obtain ⟨mount, listed, rfl⟩ := Option.map_eq_some_iff.mp mounted
      have handle := List.mem_cons_of_mem v.root
        (List.mem_map_of_mem (f := Prod.snd) (List.mem_of_find?_eq_some listed))
      exact mem_nodes handle (Or.inl rfl) crossing
    case h_2 => exact Option.some.inj crossing ▸ known
  have entered : ∀ node part next, Known node → node.entry image part = some next →
      Known next := by
    rintro node part next ⟨-, handle, known, owner⟩ entry
    unfold Node.entry at entry
    split at entry
    case h_1 ino name search =>
      rw [owner] at entry search
      exact mem_nodes known (Or.inr (readDir_ino_lt (List.mem_of_find?_eq_some search))) entry
    case h_2 => cases entry
  have descends : ∀ parts path cur node, (∀ here, cur = some here → Known here) →
      v.descend image parts path cur = some node → Known node := by
    intro parts
    induction parts with
    | nil =>
      intro path cur node known at'
      cases cur with
      | none => cases at'
      | some here => exact Option.some.inj at' ▸ known here rfl
    | cons part rest inductionHypothesis =>
      intro path cur node known at'
      cases cur with
      | none => cases at'
      | some here =>
        rw [descend_cons] at at'
        split_ifs at at'
        refine inductionHypothesis _ _ node (fun next step => ?_) at'
        obtain ⟨inner, entry, crossing⟩ := Option.bind_eq_some_iff.mp step
        exact crossed _ _ _ (entered _ _ _ (known here rfl) entry) crossing
  unfold Volume.resolve at found
  cases rooted : v.root.rootNode image with
  | none =>
    rw [rooted] at found
    cases found
  | some root =>
    rw [rooted] at found
    have known : Known root := mem_nodes List.mem_cons_self (Or.inl rfl) rooted
    exact (descends _ _ _ _ (fun here crossing => crossed _ _ _ known crossing) found).1

end Resolve

/-! ## The calls of a copy -/

/-- Everything that is below the path is found. -/
def Whole (v : Volume) (image : Image) (path : PosixPath) : Prop :=
  ∀ visited, Visits v image path visited → v.lookup image (normImg visited) ≠ none

/-- The copy of a directory comes to an entry when everything below the entries before it is
found. -/
def ComesTo (v : Volume) (image : Image) (path child : PosixPath) : Prop :=
  ∃ node before entry after, v.lookup image (normImg path) = some node ∧ node.inode.isDir = true ∧
    node.sortedEntries image = before ++ entry :: after ∧
    (∀ earlier ∈ before, Whole v image (normImg path ++ '/' :: earlier.2)) ∧
    child = normImg path ++ '/' :: entry.2

/-- The two paths lead to one place: every path below them is resolved alike. -/
def Alike (v : Volume) (image : Image) (path other : PosixPath) : Prop :=
  ∀ rest, v.lookup image (normImg path ++ '/' :: rest) =
    v.lookup image (normImg other ++ '/' :: rest)

/-- Somewhere the copy comes back, further down, to a directory that it is in. -/
def Circular (v : Volume) (image : Image) (path : PosixPath) : Prop :=
  ∃ here again, Relation.ReflTransGen (ComesTo v image) path here ∧
    Relation.TransGen (ComesTo v image) here again ∧ Alike v image here again

section Graph

variable {v : Volume} {image : Image} {path other next : PosixPath}

theorem mem_of_mem_splitOn {p part : PosixPath} (member : part ∈ p.splitOn '/') {c : Char}
    (inside : c ∈ part) : c ∈ p := by
  induction p generalizing part with
  | nil =>
    rw [List.splitOn_nil, List.mem_singleton] at member
    rw [member] at inside
    exact absurd inside List.not_mem_nil
  | cons first rest inductionHypothesis =>
    obtain ⟨head, others, parts⟩ := List.exists_cons_of_ne_nil (List.splitOn_ne_nil '/' rest)
    rw [List.splitOn_cons_eq_if_modifyHead, parts] at member
    rw [parts] at inductionHypothesis
    split_ifs at member
    · rcases List.mem_cons.mp member with rfl | later
      · exact absurd inside List.not_mem_nil
      · exact List.mem_cons_of_mem _ (inductionHypothesis later inside)
    · rcases List.mem_cons.mp member with rfl | later
      · rcases List.mem_cons.mp inside with rfl | further
        · exact List.mem_cons_self
        · exact List.mem_cons_of_mem _ (inductionHypothesis List.mem_cons_self further)
      · exact List.mem_cons_of_mem _
          (inductionHypothesis (List.mem_cons_of_mem _ later) inside)

theorem mem_intercalate {parts : List PosixPath} {c : Char}
    (member : c ∈ ['/'].intercalate parts) : c = '/' ∨ ∃ part ∈ parts, c ∈ part := by
  induction parts with
  | nil => exact absurd member List.not_mem_nil
  | cons part rest inductionHypothesis =>
    cases rest with
    | nil =>
      rw [List.intercalate_singleton] at member
      exact Or.inr ⟨part, List.mem_cons_self, member⟩
    | cons next rest =>
      rw [List.intercalate_cons_cons, List.append_assoc] at member
      rcases List.mem_append.mp member with here | later
      · exact Or.inr ⟨part, List.mem_cons_self, here⟩
      · rcases List.mem_cons.mp later with slash | further
        · exact Or.inl slash
        · exact (inductionHypothesis further).imp_right fun ⟨p, inside, at'⟩ =>
            ⟨p, List.mem_cons_of_mem _ inside, at'⟩

theorem slashed_clean (path : PosixPath) : backslash ∉ slashed path := by
  intro member
  obtain ⟨c, -, same⟩ := List.mem_map.mp member
  split_ifs at same with cut
  · exact absurd same (by decide)
  · exact cut same

theorem slashed_normImg (path : PosixPath) : slashed (normImg path) = normImg path := by
  have clean : backslash ∉ normImg path := by
    intro member
    rcases List.mem_cons.mp member with slash | inside
    · exact absurd slash (by decide)
    · rcases mem_intercalate inside with slash | ⟨part, listed, at'⟩
      · exact absurd slash (by decide)
      · exact slashed_clean path (mem_of_mem_splitOn (List.mem_filter.mp listed).1 at')
  refine (List.map_congr_left fun c member => ?_).trans (List.map_id _)
  have kept : c ≠ backslash := fun same => clean (same ▸ member)
  exact if_neg kept

/-- The parts of an entry come behind those of its directory. -/
theorem parts_child (path name : PosixPath) :
    (normImg (normImg path ++ '/' :: name)).parts = (normImg path).parts ++ (slashed name).parts := by
  rw [parts_normImg, slashed_append, slashed_cons_slash, PosixPath.parts_append_slash,
    slashed_normImg]

theorem ComesTo.found (step : ComesTo v image path next) :
    ∃ node, v.lookup image (normImg path) = some node := by
  obtain ⟨node, -, -, -, found, -⟩ := step
  exact ⟨node, found⟩

theorem ComesTo.parts (step : ComesTo v image path next) :
    (normImg path).parts <+: (normImg next).parts := by
  obtain ⟨_, _, entry, _, -, -, -, -, rfl⟩ := step
  rw [parts_child]
  exact List.prefix_append _ _

/-- Paths with the same parts are alike. -/
theorem Alike.of_parts (same : (normImg path).parts = (normImg other).parts) :
    Alike v image path other := by
  intro rest
  rw [v.lookup_eq, v.lookup_eq, PosixPath.parts_append_slash, PosixPath.parts_append_slash, same]

/-- Below every mount point a path is resolved from the node at hand. -/
theorem Alike.of_node (deep : ∀ mount ∈ v.mounts,
      mount.1.length < (normImg path).parts.length ∧ mount.1.length < (normImg other).parts.length)
    (same : v.lookup image (normImg path) = v.lookup image (normImg other)) :
    Alike v image path other := by
  have longer : ∀ {parts : List PosixPath}, parts.length ≤ (parts.flatMap ('/' :: ·)).length := by
    intro parts
    induction parts with
    | nil => exact Nat.le_refl _
    | cons part rest inductionHypothesis =>
      rw [List.flatMap_cons, List.length_append, List.length_cons, List.length_cons]
      omega
  intro rest
  rw [v.lookup_eq, v.lookup_eq] at same ⊢
  rw [PosixPath.parts_append_slash, PosixPath.parts_append_slash]
  unfold Volume.resolve at same ⊢
  cases rooted : v.root.rootNode image with
  | none => rfl
  | some root =>
    rw [rooted] at same
    dsimp only at same ⊢
    rw [descend_append, descend_append, same]
    refine descend_deep _ (fun mount member => ?_) _
    obtain ⟨one, two⟩ := deep mount member
    rw [List.nil_append, List.nil_append]
    exact ⟨Nat.lt_of_lt_of_le one longer, Nat.lt_of_lt_of_le two longer⟩

/-- A path and one alike have the same node. -/
theorem Alike.node (alike : Alike v image path other) :
    v.lookup image (normImg path) = v.lookup image (normImg other) := by
  have here := alike []
  rw [v.lookup_eq, v.lookup_eq, PosixPath.parts_append_slash, PosixPath.parts_append_slash,
    PosixPath.parts_nil, List.append_nil, List.append_nil] at here
  exact here

/-- Entries of the same name below paths that are alike are alike. -/
theorem Alike.below (alike : Alike v image path other) (name : PosixPath) :
    Alike v image (normImg path ++ '/' :: name) (normImg other ++ '/' :: name) := by
  intro rest
  have below := alike (slashed name ++ '/' :: rest)
  rw [v.lookup_eq, v.lookup_eq, PosixPath.parts_append_slash (normImg path),
    PosixPath.parts_append_slash (normImg other), PosixPath.parts_append_slash (slashed name)] at below
  rw [v.lookup_eq, v.lookup_eq, PosixPath.parts_append_slash, PosixPath.parts_append_slash,
    parts_child, parts_child, List.append_assoc, List.append_assoc]
  exact below

/-- Without a cycle the copy does not go down for ever. -/
theorem comesTo_acc (straight : ¬ Circular v image path) :
    Acc (fun next here => ComesTo v image here next) path := by
  by_contra endless
  obtain ⟨f, rfl, descends⟩ := not_acc_iff_exists_descending_chain.mp endless
  have reached : ∀ n, Relation.ReflTransGen (ComesTo v image) (f 0) (f n) := by
    intro n
    induction n with
    | zero => exact .refl
    | succ n inductionHypothesis => exact inductionHypothesis.tail (descends n)
  have further : ∀ a k, Relation.TransGen (ComesTo v image) (f a) (f (a + k + 1)) := by
    intro a k
    induction k with
    | zero => exact .single (descends a)
    | succ k inductionHypothesis => exact inductionHypothesis.tail (descends (a + k + 1))
  have apart : ∀ a b, a < b → ¬ Alike v image (f a) (f b) := by
    intro a b before alike
    obtain ⟨k, rfl⟩ := Nat.exists_eq_add_of_lt before
    exact straight ⟨f a, f (a + k + 1), reached a, further a k, alike⟩
  -- Each step adds parts, so from some step on the paths are deeper than the mount points.
  have deeper : ∀ n, n ≤ (normImg (f n)).parts.length := by
    intro n
    induction n with
    | zero => exact Nat.zero_le _
    | succ n inductionHypothesis =>
      have grows := (descends n).parts
      have strict : (normImg (f n)).parts.length ≠ (normImg (f (n + 1))).parts.length :=
        fun same => apart n (n + 1) (Nat.lt_succ_self n) (.of_parts (grows.eq_of_length same))
      have le := grows.length_le
      omega
  obtain ⟨most, bound⟩ :=
    ((List.finite_toSet v.mounts).image fun mount => mount.1.length).bddAbove
  have known : ∀ n, v.lookup image (normImg (f (most + 1 + n))) ∈
      Option.some '' {node | node ∈ v.nodes image} := by
    intro n
    obtain ⟨node, found⟩ := (descends (most + 1 + n)).found
    exact ⟨node, resolve_nodes found, found.symm⟩
  obtain ⟨a, b, before, same⟩ :=
    Set.Finite.exists_lt_map_eq_of_forall_mem known ((List.finite_toSet _).image _)
  refine apart (most + 1 + a) (most + 1 + b) (by omega) (.of_node (fun mount member => ?_) same)
  have short : mount.1.length ≤ most := bound ⟨mount, member, rfl⟩
  have one := deeper (most + 1 + a)
  have two := deeper (most + 1 + b)
  omega

end Graph

/-! ## Copies without a cycle -/

/-- Some depth of recursion is enough on every host, so that the copy goes through each directory
along boundedly many paths. -/
def CopyEnds (v : Volume) (image : Image) (path : PosixPath) : Prop :=
  ∃ limit, ∀ depth ≥ limit, ∀ (H : Type) (calls : HostCalls H) (s : Copying H) (dest : PosixPath) t,
    copyOut calls v image depth path dest s ≠ .error .recursion t

section Ends

variable {v : Volume} {image : Image} {path : PosixPath} {H : Type} {calls : HostCalls H}

theorem copyOut_found {node : Node} (found : v.lookup image (normImg path) = some node)
    (depth : Nat) (dest : PosixPath) :
    copyOut calls v image (depth + 1) path dest =
      if node.inode.isDir then do
        makedirs calls dest
        (node.sortedEntries image).forM fun entry =>
          copyOut calls v image depth (normImg path ++ '/' :: entry.2)
            (PosixPath.join dest entry.2)
      else if node.inode.isFile then do
        if PosixPath.dirname dest ≠ [] then makedirs calls (PosixPath.dirname dest)
        hostWrite calls dest (node.owner.readFile image node.inode)
      else pure () := by
  conv_lhs => unfold copyOut
  dsimp only
  rw [found]

theorem copyOut_missing (missing : v.lookup image (normImg path) = none) (depth : Nat)
    (dest : PosixPath) :
    copyOut calls v image (depth + 1) path dest = throw (.notFound (normImg path)) := by
  conv_lhs => unfold copyOut
  dsimp only
  rw [missing]

/-- Everything is found below a path whose copy succeeds. -/
theorem copyOut_whole (depth : Nat) (path dest : PosixPath) (s : Copying H) :
    Ends (copyOut calls v image depth path dest) s (fun _ _ => Whole v image path)
      fun _ _ => True := by
  induction depth generalizing path dest s with
  | zero => exact .raise trivial
  | succ depth inductionHypothesis =>
    cases found : v.lookup image (normImg path) with
    | none =>
      rw [copyOut_missing found]
      exact .raise trivial
    | some node =>
      have here : (∀ entry ∈ node.owner.readDir image node.inode,
          Whole v image (normImg path ++ '/' :: entry.2)) → Whole v image path := by
        rintro below visited visits
        cases visits with
        | here => simp [found]
        | down found' member further =>
          obtain rfl := Option.some.inj (found.symm.trans found')
          exact below _ member visited further
      rw [copyOut_found found]
      refine .ite (fun _ => .bind (.always (fun _ t => ?_) fun _ _ => trivial)) fun file => ?_
      · refine Ends.mono (E := fun _ _ => True) (Ends.forM (fun before _ => ∀ entry ∈ before,
          Whole v image (normImg path ++ '/' :: entry.2)) _ ?_ ?_)
          (fun _ _ whole => here fun entry member =>
            whole entry ((List.mem_insertionSort _).mpr member)) fun _ _ _ => trivial
        · exact fun entry none => absurd none List.not_mem_nil
        · intro before entry after t' _ whole
          refine (inductionHypothesis _ _ t').mono (fun _ _ further other member => ?_)
            fun _ _ _ => trivial
          rcases List.mem_append.mp member with earlier | last
          · exact whole other earlier
          · rw [List.mem_singleton.mp last]
            exact further
      · have leaf : node.owner.readDir image node.inode = [] := if_neg file
        have whole : Whole v image path := here fun entry member => by
          rw [leaf] at member
          exact absurd member List.not_mem_nil
        exact .always (fun _ _ => whole) fun _ _ => trivial

/-- No recursion. -/
def outsideLimit : CopyError → Copying H → Prop := fun e _ => e ≠ .recursion

theorem makeOne_outsideLimit (name : PosixPath) (s : Copying H) :
    Ends (makeOne calls name) s (fun _ _ => True) outsideLimit :=
  .bind (.of_ok rfl (.bind (.state (.ite (fun _ => .value trivial) fun _ => .raise nofun))))

theorem makedirsFrom_outsideLimit (depth : Nat) (name : PosixPath) (s : Copying H) :
    Ends (makedirsFrom calls depth name) s (fun _ _ => True) outsideLimit := by
  induction depth generalizing name s with
  | zero => exact .value trivial
  | succ depth inductionHypothesis =>
    unfold makedirsFrom
    generalize makedirsSplit name = parts
    obtain ⟨head, tail⟩ := parts
    refine .bind (.state (.ite (fun _ => .bind (.caught ?_)) fun _ => makeOne_outsideLimit name s))
    have last : ∀ t, Ends (if tail = ['.'] then pure () else makeOne calls name : CopyM H Unit) t
        (fun _ _ => True) outsideLimit :=
      fun t => .ite (fun _ => .value trivial) fun _ => makeOne_outsideLimit name t
    refine (inductionHypothesis head s).mono (fun _ t _ => last t) fun e t outside => ?_
    exact .ite (fun _ => .value (last t)) fun _ => .raise outside

/-- Without a cycle the copy needs boundedly much recursion. -/
theorem copyEnds_of_straight (straight : ¬ Circular v image path) : CopyEnds v image path := by
  suffices enough : ∀ᶠ depth in Filter.atTop, ∀ (H : Type) (calls : HostCalls H) (s : Copying H)
      (dest : PosixPath),
      Ends (copyOut calls v image depth path dest) s (fun _ _ => True) outsideLimit by
    obtain ⟨limit, stays⟩ := Filter.eventually_atTop.mp enough
    refine ⟨limit, fun depth deep H calls s dest t stopped => ?_⟩
    have ends := stays depth deep H calls s dest
    unfold Ends at ends
    rw [stopped] at ends
    exact ends rfl
  have descent := comesTo_acc straight
  clear straight
  induction descent with
  | intro path _ inductionHypothesis =>
    cases found : v.lookup image (normImg path) with
    | none =>
      refine Filter.eventually_atTop.mpr ⟨1, fun depth deep H calls s dest => ?_⟩
      obtain ⟨depth, rfl⟩ := Nat.exists_eq_add_of_le' deep
      rw [copyOut_missing found]
      exact .raise nofun
    | some node =>
      -- Enough for each of the entries that the copy comes to.
      have entries : ∀ᶠ depth in Filter.atTop, ∀ entry ∈ {e | e ∈ node.sortedEntries image},
          ComesTo v image path (normImg path ++ '/' :: entry.2) →
          ∀ (H : Type) (calls : HostCalls H) (s : Copying H) (dest : PosixPath),
            Ends (copyOut calls v image depth (normImg path ++ '/' :: entry.2) dest) s
              (fun _ _ => True) outsideLimit := by
        refine (Filter.eventually_all_finite (List.finite_toSet _)).mpr fun entry _ => ?_
        by_cases comes : ComesTo v image path (normImg path ++ '/' :: entry.2)
        · exact (inductionHypothesis _ comes).mono fun _ enough _ => enough
        · exact Filter.Eventually.of_forall fun _ does => absurd does comes
      obtain ⟨limit, stays⟩ := Filter.eventually_atTop.mp entries
      refine Filter.eventually_atTop.mpr ⟨limit + 1, fun depth deep H calls s dest => ?_⟩
      obtain ⟨depth, rfl⟩ := Nat.exists_eq_add_of_le' (Nat.le_trans (Nat.le_add_left 1 limit) deep)
      rw [copyOut_found found]
      refine .ite (fun dir => .bind ((makedirsFrom_outsideLimit _ _ s).mono (fun _ t _ => ?_)
        fun _ _ raised => raised)) fun _ => .ite (fun _ => ?_) fun _ => .value trivial
      · refine (Ends.forM (fun before _ => ∀ earlier ∈ before,
          Whole v image (normImg path ++ '/' :: earlier.2)) _ ?_ ?_).mono (fun _ _ _ => trivial)
          fun _ _ raised => raised
        · exact fun entry none => absurd none List.not_mem_nil
        · intro before entry after u split whole
          have listed : entry ∈ node.sortedEntries image := by
            rw [split]
            exact List.mem_append_right _ List.mem_cons_self
          have ends := stays depth (Nat.le_of_succ_le_succ deep) entry listed
            ⟨node, before, entry, after, found, dir, split, whole, rfl⟩ H calls u
            (PosixPath.join dest entry.2)
          refine (ends.and (copyOut_whole depth _ _ u)).mono (fun _ _ both other member => ?_)
            fun _ _ raised => raised.1
          rcases List.mem_append.mp member with earlier | last
          · exact whole other earlier
          · rw [List.mem_singleton.mp last]
            exact both.2
      · have written : ∀ t, Ends (hostWrite calls dest (node.owner.readFile image node.inode)) t
            (fun _ _ => True) outsideLimit := by
          intro t
          unfold Ends hostWrite
          dsimp only
          split_ifs
          · trivial
          · exact nofun
        exact .ite (fun _ => .bind ((makedirsFrom_outsideLimit _ _ s).mono (fun _ t _ => written t)
          fun _ _ raised => raised)) fun _ => written s

end Ends

/-! ## Copies around a cycle -/

/-- A host on which every call succeeds and every directory is there. -/
def willingHost : HostCalls Unit where
  pathExists _ _ := true
  isDir _ _ := true
  mkdir _ _ := (.made, ())
  write _ _ _ := (true, ())

/-- How a copy ends on a willing host. -/
def willingCopy (v : Volume) (image : Image) : Nat → PosixPath → Except CopyError Unit
  | 0, _ => throw .recursion
  | depth + 1, path =>
    match v.lookup image (normImg path) with
    | none => throw (.notFound (normImg path))
    | some node => (node.sortedEntries image).forM fun entry =>
      willingCopy v image depth (normImg path ++ '/' :: entry.2)

section Willing

variable {v : Volume} {image : Image} {path other next : PosixPath}

/-- The program ends as the value says. -/
def EndsAs (x : CopyM Unit Unit) (s : Copying Unit) (result : Except CopyError Unit) : Prop :=
  Ends x s (fun _ _ => result = .ok ()) fun e _ => result = .error e

theorem forM_endsAs {body : Nat × PosixPath → CopyM Unit Unit}
    {plain : Nat × PosixPath → Except CopyError Unit} (same : ∀ entry t, EndsAs (body entry) t (plain entry))
    (entries : List (Nat × PosixPath)) (s : Copying Unit) :
    EndsAs (entries.forM body) s (entries.forM plain) := by
  induction entries generalizing s with
  | nil => exact Ends.value rfl
  | cons entry rest inductionHypothesis =>
    have first := same entry s
    unfold EndsAs at first inductionHypothesis ⊢
    change Ends (body entry >>= fun _ => rest.forM body) s
      (fun _ _ => (plain entry >>= fun _ => rest.forM plain) = _)
      fun e _ => (plain entry >>= fun _ => rest.forM plain) = _
    refine .bind (first.mono (fun _ t returned => ?_) fun e _ raised => ?_)
    · rw [returned]
      exact inductionHypothesis t
    · rw [raised]
      rfl

theorem makedirs_willing (name : PosixPath) (s : Copying Unit) :
    Ends (makedirs willingHost name) s (fun _ _ => True) noRaise := by
  unfold makedirs makedirsFrom
  generalize makedirsSplit name = parts
  obtain ⟨head, tail⟩ := parts
  refine .bind (.state (.ite (fun missing => absurd missing.2.2 Bool.noConfusion) fun _ => ?_))
  exact .bind (.of_ok rfl (.bind (.state (.ite (fun _ => .value trivial) fun refused =>
    absurd (Or.inl rfl) refused))))

/-- On a willing host the copy ends as `willingCopy`. -/
theorem copyOut_willing (depth : Nat) (path dest : PosixPath) (s : Copying Unit) :
    EndsAs (copyOut willingHost v image depth path dest) s (willingCopy v image depth path) := by
  induction depth generalizing path dest s with
  | zero => exact Ends.raise rfl
  | succ depth inductionHypothesis =>
    unfold willingCopy
    cases found : v.lookup image (normImg path) with
    | none =>
      rw [copyOut_missing found]
      exact Ends.raise rfl
    | some node =>
      dsimp only
      rw [copyOut_found found]
      refine Ends.ite (fun dir => .bind ((makedirs_willing dest s).mono (fun _ t _ => ?_)
        fun _ _ raised => raised.elim)) fun file => ?_
      · exact forM_endsAs (fun entry u => inductionHypothesis _ _ u) _ t
      · have leaf : node.sortedEntries image = [] := by
          have none : node.owner.readDir image node.inode = [] := if_neg file
          rw [Node.sortedEntries, none]
          rfl
        have written : ∀ t, Ends (hostWrite willingHost dest (node.owner.readFile image node.inode)) t
            (fun _ _ => True) noRaise := fun t => .of_ok rfl trivial
        rw [leaf]
        refine Ends.mono (Q := fun _ _ => True) (E := noRaise) ?_ (fun _ _ _ => rfl)
          fun _ _ raised => raised.elim
        exact .ite (fun _ => .ite (fun _ => .bind ((makedirs_willing _ s).mono
          (fun _ t _ => written t) fun _ _ raised => raised)) fun _ => written s)
          fun _ => .value trivial

theorem willingCopy_found {node : Node} (found : v.lookup image (normImg path) = some node)
    (depth : Nat) :
    willingCopy v image (depth + 1) path = (node.sortedEntries image).forM fun entry =>
      willingCopy v image depth (normImg path ++ '/' :: entry.2) := by
  rw [willingCopy, found]

/-- A loop whose bodies can only succeed or raise one exception raises it if one of them does. -/
theorem forM_one {plain : Nat × PosixPath → Except CopyError Unit} {e : CopyError}
    {entries : List (Nat × PosixPath)}
    (each : ∀ entry ∈ entries, plain entry = .ok () ∨ plain entry = .error e) :
    entries.forM plain = .ok () ∨ entries.forM plain = .error e := by
  induction entries with
  | nil => exact Or.inl rfl
  | cons entry rest inductionHypothesis =>
    change (plain entry >>= fun _ => rest.forM plain) = _ ∨ (plain entry >>= fun _ => rest.forM plain) = _
    rcases each entry List.mem_cons_self with okay | raises
    · rw [okay]
      exact inductionHypothesis fun other member => each other (List.mem_cons_of_mem _ member)
    · exact Or.inr (by rw [raises]; rfl)

/-- The loop raises what an entry raises, where the earlier ones raise nothing else. -/
theorem forM_reaches {plain : Nat × PosixPath → Except CopyError Unit} {e : CopyError}
    {before after : List (Nat × PosixPath)} {entry : Nat × PosixPath}
    (each : ∀ earlier ∈ before, plain earlier = .ok () ∨ plain earlier = .error e)
    (raises : plain entry = .error e) : (before ++ entry :: after).forM plain = .error e := by
  induction before with
  | nil =>
    change (plain entry >>= fun _ => after.forM plain) = _
    rw [raises]
    rfl
  | cons first before inductionHypothesis =>
    change (plain first >>= fun _ => (before ++ entry :: after).forM plain) = _
    rcases each first List.mem_cons_self with okay | early
    · rw [okay]
      exact inductionHypothesis fun earlier member => each earlier (List.mem_cons_of_mem _ member)
    · rw [early]
      rfl

/-- Where everything is found, only the recursion can end a copy early. -/
theorem willingCopy_whole (depth : Nat) (whole : Whole v image path) :
    willingCopy v image depth path = .ok () ∨ willingCopy v image depth path = .error .recursion := by
  induction depth generalizing path with
  | zero => exact Or.inr rfl
  | succ depth inductionHypothesis =>
    obtain ⟨node, found⟩ := Option.ne_none_iff_exists'.mp (whole path (.here path))
    rw [willingCopy_found found]
    exact forM_one fun entry listed => inductionHypothesis fun visited visits =>
      whole visited (.down found ((List.mem_insertionSort _).mp listed) visits)

/-- A copy that the recursion does not end goes through the entries that it comes to, with less
recursion. -/
theorem ComesTo.shallower (step : ComesTo v image path next) {depth : Nat}
    (ends : willingCopy v image depth path ≠ .error .recursion) :
    ∃ less < depth, willingCopy v image less next ≠ .error .recursion := by
  obtain ⟨node, before, entry, after, found, -, split, whole, rfl⟩ := step
  cases depth with
  | zero => exact absurd rfl ends
  | succ depth =>
    refine ⟨depth, Nat.lt_succ_self depth, fun deep => ends ?_⟩
    rw [willingCopy_found found, split]
    exact forM_reaches (fun earlier member => willingCopy_whole depth (whole earlier member)) deep

/-- Copies of paths that are alike end alike, up to the path that is not found. -/
theorem Alike.willingCopy (alike : Alike v image path other) (depth : Nat) :
    (willingCopy v image depth path = .ok () ↔ willingCopy v image depth other = .ok ()) ∧
    (willingCopy v image depth path = .error .recursion ↔
      willingCopy v image depth other = .error .recursion) := by
  induction depth generalizing path other with
  | zero => exact ⟨Iff.rfl, Iff.rfl⟩
  | succ depth inductionHypothesis =>
    have same := alike.node
    cases found : v.lookup image (normImg path) with
    | none =>
      rw [C900.willingCopy, C900.willingCopy, ← same, found]
      exact ⟨⟨nofun, nofun⟩, ⟨nofun, nofun⟩⟩
    | some node =>
      rw [willingCopy_found found, willingCopy_found (same ▸ found)]
      generalize node.sortedEntries image = entries
      induction entries with
      | nil => exact ⟨Iff.rfl, Iff.rfl⟩
      | cons entry rest following =>
        obtain ⟨okay, deep⟩ := inductionHypothesis (alike.below entry.2)
        change ((C900.willingCopy v image depth _ >>= fun _ => rest.forM _) = _ ↔
            (C900.willingCopy v image depth _ >>= fun _ => rest.forM _) = _) ∧
          ((C900.willingCopy v image depth _ >>= fun _ => rest.forM _) = _ ↔
            (C900.willingCopy v image depth _ >>= fun _ => rest.forM _) = _)
        cases first : C900.willingCopy v image depth (normImg path ++ '/' :: entry.2) with
        | ok _ =>
          rw [okay.mp first]
          exact following
        | error e =>
          rw [first] at okay deep
          cases second : C900.willingCopy v image depth (normImg other ++ '/' :: entry.2) with
          | ok _ => exact absurd (okay.mpr second) nofun
          | error e' =>
            rw [second] at deep
            exact ⟨⟨nofun, nofun⟩, deep⟩

/-- Around a cycle the copy exhausts every depth of recursion. -/
theorem not_copyEnds_of_circular (circular : Circular v image path) : ¬ CopyEnds v image path := by
  obtain ⟨here, again, reached, around, alike⟩ := circular
  have chain : ∀ {next depth}, Relation.TransGen (ComesTo v image) here next →
      willingCopy v image depth here ≠ .error .recursion →
      ∃ less < depth, willingCopy v image less next ≠ .error .recursion := by
    intro next depth steps ends
    induction steps with
    | single step => exact step.shallower ends
    | tail _ step inductionHypothesis =>
      obtain ⟨middle, less, ends'⟩ := inductionHypothesis
      obtain ⟨last, fewer, ends''⟩ := step.shallower ends'
      exact ⟨last, fewer.trans less, ends''⟩
  have endless : ∀ depth, willingCopy v image depth here = .error .recursion := by
    intro depth
    induction depth using Nat.strong_induction_on with
    | h depth inductionHypothesis =>
      by_contra ends
      obtain ⟨less, fewer, ends'⟩ := chain around ends
      exact ends' ((alike.willingCopy less).2.mp (inductionHypothesis less fewer))
  have start : ∀ depth, willingCopy v image depth path = .error .recursion := by
    intro depth
    induction reached using Relation.ReflTransGen.head_induction_on generalizing depth with
    | refl => exact endless depth
    | head step _ inductionHypothesis =>
      by_contra ends
      obtain ⟨less, -, ends'⟩ := step.shallower ends
      exact ends' (inductionHypothesis less)
  rintro ⟨limit, stays⟩
  have ends := @copyOut_willing v image limit path [] ⟨(), []⟩
  unfold EndsAs Ends at ends
  cases ran : copyOut willingHost v image limit path [] ⟨(), []⟩ with
  | ok a t =>
    rw [ran, start limit] at ends
    cases ends
  | error e t =>
    rw [ran, start limit] at ends
    cases ends
    exact stays limit (Nat.le_refl _) Unit willingHost ⟨(), []⟩ [] t ran

end Willing

/-- `copy_out` of a path ends, with a bound on the recursion that no host exceeds, exactly when
the part of the directory graph that it comes to has no cycle. -/
theorem copyOut_ends_iff (v : Volume) (image : Image) (path : PosixPath) :
    CopyEnds v image path ↔ ¬ Circular v image path :=
  ⟨fun ends circular => not_copyEnds_of_circular circular ends, copyEnds_of_straight⟩

deriving instance DecidableEq for CoherentFs, Node

/-- A root directory with an entry `a` for itself. -/
def circularImage : Image := smallImage (dirent 2 "a")

/-- Its copy does not end. -/
theorem circularImage_endless : ¬ ∀ v image path, CopyEnds v image path := by
  intro all
  refine not_copyEnds_of_circular ?_ (all smallVolume circularImage "/".toList)
  have listed : (smallVolume.lookup circularImage (normImg "/".toList)).map
      (fun node => (node.inode.isDir, node.sortedEntries circularImage)) =
      some (true, [(2, ['a'])]) := by decide
  have same : smallVolume.lookup circularImage (normImg "/".toList) =
      smallVolume.lookup circularImage (normImg (normImg "/".toList ++ '/' :: ['a'])) := by
    decide
  obtain ⟨node, found, entries⟩ := Option.map_eq_some_iff.mp listed
  obtain ⟨dir, sorted⟩ := Prod.mk.inj entries
  have step : ComesTo smallVolume circularImage "/".toList (normImg "/".toList ++ '/' :: ['a']) :=
    ⟨node, [], (2, ['a']), [], found, dir, sorted, nofun, rfl⟩
  exact ⟨_, _, .refl, .single step, .of_node nofun same⟩

end C900
