import C900.Fs.Confined
import C900.Fs.Shapes

/-!
# A host that keeps a tree

A host of directories and regular files, and what `os.path`, `os.mkdir` and `open` do to the tree
that it shows. `makedirs` that returns has made the directories on the way and nothing else.
-/

namespace C900

/-- The files of a host, by the parts of their paths. -/
abbrev HostTree := List PosixPath → Option Shape

/-- What is there is in a directory, and is a directory or a regular file. -/
structure HostTree.Rooted (h : HostTree) : Prop where
  root : h [] = some .dir
  parent : ∀ names name, (h (names ++ [name])).isSome → h names = some .dir
  kinds : ∀ names, h names ≠ some .special

/-- Something is there: a directory, or a file whose name no slash and no dot follows. -/
def HostTree.There (h : HostTree) (name : PosixPath) : Prop :=
  name ≠ [] ∧ (h name.parts = some .dir ∨
    (h name.parts).isSome ∧ name.parts.getLast? = some (PosixPath.split name).2)

/-- Nothing is there, in a directory, and the path does not end in a dot. -/
def HostTree.Makes (h : HostTree) (name : PosixPath) : Prop :=
  h name.parts = none ∧ h name.parts.dropLast = some .dir ∧ (makedirsSplit name).2 ≠ ['.']

/-- No directory is there, in a directory, and no slash and no dot follows the name. -/
def HostTree.Writes (h : HostTree) (name : PosixPath) : Prop :=
  name.parts.getLast? = some (PosixPath.split name).2 ∧ h name.parts.dropLast = some .dir ∧
    h name.parts ≠ some .dir

instance (h : HostTree) (name : PosixPath) : Decidable (h.There name) :=
  inferInstanceAs (Decidable (_ ∧ _))

instance (h : HostTree) (name : PosixPath) : Decidable (h.Makes name) :=
  inferInstanceAs (Decidable (_ ∧ _))

instance (h : HostTree) (name : PosixPath) : Decidable (h.Writes name) :=
  inferInstanceAs (Decidable (_ ∧ _))

/-- The calls of a host that shows a tree, for paths from the root or for paths from the current
directory. Whether `mkdir` of a file's name with a slash behind it fails with `FileExistsError` is
left open. -/
structure HostCalls.KeepsTree {H : Type} (calls : HostCalls H) (absolute : Bool)
    (tree : H → HostTree) : Prop where
  pathExists : ∀ (h : H) (p : PosixPath), p.Direct absolute →
    (calls.pathExists h p = true ↔ (tree h).There p)
  isDir : ∀ (h : H) (p : PosixPath), p.Direct absolute →
    (calls.isDir h p = true ↔ p ≠ [] ∧ tree h p.parts = some .dir)
  makes : ∀ (h : H) (p : PosixPath), p.Direct absolute → (tree h).Makes p →
    (calls.mkdir h p).1 = .made ∧
      tree (calls.mkdir h p).2 = Function.update (tree h) p.parts (some .dir)
  stays : ∀ (h : H) (p : PosixPath), p.Direct absolute → ¬ (tree h).Makes p →
    (calls.mkdir h p).1 ≠ .made ∧ tree (calls.mkdir h p).2 = tree h
  clashes : ∀ (h : H) (p : PosixPath), p.Direct absolute → p.getLast? ≠ some '/' →
    (calls.mkdir h p).1 = .fileExists → (tree h).There p
  writes : ∀ (h : H) (p : PosixPath) (data : List (BitVec 8)), p.Direct absolute →
    (tree h).Rooted → (tree h).Writes p → (calls.write h p data).1 = true ∧
      tree (calls.write h p data).2 = Function.update (tree h) p.parts (some (.file data))
  refuses : ∀ (h : H) (p : PosixPath) (data : List (BitVec 8)), p.Direct absolute →
    (tree h).Rooted → ¬ (tree h).Writes p → (calls.write h p data).1 = false

/-- A host that is a tree and nothing else. -/
def treeHost : HostCalls HostTree where
  pathExists h p := h.There p
  isDir h p := p ≠ [] ∧ h p.parts = some .dir
  mkdir h p :=
    if h.Makes p then (.made, Function.update h p.parts (some .dir))
    else if h.There p then (.fileExists, h)
    else (.failed, h)
  write h p data :=
    if h.Writes p then (true, Function.update h p.parts (some (.file data))) else (false, h)

/-- The tree itself is what this host shows. -/
theorem treeHost_keepsTree (absolute : Bool) : treeHost.KeepsTree absolute id where
  pathExists _ _ _ := decide_eq_true_iff
  isDir _ _ _ := decide_eq_true_iff
  makes h p _ makes := by
    rw [id_eq] at makes
    simp [treeHost, makes]
  stays h p _ stays := by
    rw [id_eq] at stays
    by_cases there : h.There p <;> simp [treeHost, stays, there]
  clashes h p _ _ := by
    by_cases makes : h.Makes p <;> by_cases there : h.There p <;> simp [treeHost, makes, there]
  writes h p data _ _ writes := by
    rw [id_eq] at writes
    simp [treeHost, writes]
  refuses h p data _ _ refuses := by
    rw [id_eq] at refuses
    simp [treeHost, refuses]

/-- Some directories of a path are new. -/
structure HostTree.Extends (h after : HostTree) (names : List PosixPath) : Prop where
  rooted : after.Rooted
  new : ∀ p, after p = h p ∨ h p = none ∧ p <+: names ∧ after p = some .dir

/-- A directory that is there, or that can be made in one that is there. -/
def HostTree.Takes (h : HostTree) (name : PosixPath) : Prop :=
  name ≠ [] ∧ (h name.parts = some .dir ∨
    h name.parts = none ∧ h name.parts.dropLast = some .dir)

/-- Nothing is there yet, in a directory that is there. -/
structure HostTree.Awaits (h : HostTree) (name : PosixPath) : Prop where
  free : h name.parts = none
  parent : h name.parts.dropLast = some .dir
  last : name.parts.getLast? = some (PosixPath.split name).2

section HostTree

variable {h after last : HostTree} {names p : List PosixPath} {name : PosixPath} {shape : Shape}

/-- What is above something is a directory. -/
theorem HostTree.Rooted.above (rooted : h.Rooted) (found : (h names).isSome) (above : p <+: names)
    (ne : p ≠ names) : h p = some .dir := by
  obtain ⟨rest, rfl⟩ := above
  induction rest using List.reverseRecOn with
  | nil => exact absurd (List.append_nil p).symm ne
  | append_singleton front last inductionHypothesis =>
    rw [← List.append_assoc] at found
    have parent := rooted.parent _ _ found
    by_cases here : front = []
    · rwa [here, List.append_nil] at parent
    · refine inductionHypothesis (by rw [parent]; rfl) fun same => here ?_
      exact List.append_right_eq_self.mp same.symm

/-- A new or another item in a directory that is there, where no directory is. -/
theorem HostTree.Rooted.update (rooted : h.Rooted) (parent : h names.dropLast = some .dir)
    (other : h names ≠ some .dir) (kind : shape ≠ .special) :
    HostTree.Rooted (Function.update h names (some shape)) := by
  have nonempty : names ≠ [] := by
    rintro rfl
    exact other rooted.root
  constructor
  · rw [Function.update_of_ne nonempty.symm, rooted.root]
  · intro front last found
    have before : h front = some .dir := by
      by_cases here : front ++ [last] = names
      · rw [← here, List.dropLast_concat] at parent
        exact parent
      · rw [Function.update_of_ne here] at found
        exact rooted.parent front last found
    rw [Function.update_of_ne, before]
    rintro rfl
    exact other before
  · intro front
    by_cases here : front = names
    · rw [here, Function.update_self]
      exact fun same => kind (Option.some.inj same)
    · rw [Function.update_of_ne here]
      exact rooted.kinds front

/-- Nothing is new. -/
theorem HostTree.Extends.refl (rooted : h.Rooted) (names : List PosixPath) : h.Extends h names :=
  ⟨rooted, fun _ => Or.inl rfl⟩

/-- What is new on the way to a path is new on a longer way. -/
theorem HostTree.Extends.mono (first : h.Extends after p) (inside : p <+: names) :
    h.Extends after names :=
  ⟨first.rooted, fun q => (first.new q).imp_right fun new =>
    ⟨new.1, new.2.1.trans inside, new.2.2⟩⟩

/-- New directories over new directories. -/
theorem HostTree.Extends.trans (first : h.Extends after names) (second : after.Extends last names) :
    h.Extends last names := by
  refine ⟨second.rooted, fun q => ?_⟩
  rcases second.new q with same | ⟨none, inside, dir⟩
  · rw [same]
    exact first.new q
  · refine Or.inr ⟨?_, inside, dir⟩
    rcases first.new q with same | ⟨old, -, -⟩
    · rw [← same, none]
    · exact old

/-- Where the path has become a directory, the way to it has, too. -/
theorem HostTree.Extends.eq (ext : h.Extends after names) (made : after names = some .dir)
    (p : List PosixPath) : after p = if p <+: names then some .dir else h p := by
  split
  · next above =>
    by_cases here : p = names
    · rw [here, made]
    · exact ext.rooted.above (by rw [made]; rfl) above here
  · next away =>
    rcases ext.new p with same | ⟨-, inside, -⟩
    · exact same
    · exact absurd inside away

/-! ## `makedirs` -/

/-- A name that is awaited is not the root. -/
theorem HostTree.Awaits.nonempty (awaits : h.Awaits name) : name.parts ≠ [] := by
  intro empty
  have last := awaits.last
  rw [empty] at last
  cases last

/-- A directory can be made under a name that is awaited. -/
theorem HostTree.Awaits.takes (awaits : h.Awaits name) : h.Takes name :=
  ⟨fun empty => awaits.nonempty (empty ▸ rfl), Or.inr ⟨awaits.free, awaits.parent⟩⟩

/-- The directory of a name that is awaited. -/
theorem HostTree.Awaits.dirname (awaits : h.Awaits name) :
    (PosixPath.dirname name).parts = name.parts.dropLast := by
  have whole := PosixPath.split_parts name
  have member := List.mem_of_getLast? awaits.last
  rw [PosixPath.parts_of_mem member] at whole
  rw [← whole, List.dropLast_concat]
  rfl

/-- A file can be written under a name that is awaited. -/
theorem HostTree.Awaits.writes (awaits : h.Awaits name) : h.Writes name := by
  refine ⟨awaits.last, awaits.parent, ?_⟩
  rw [awaits.free]
  exact (Option.some_ne_none _).symm

/-- A file that is written leaves a tree. -/
theorem HostTree.Rooted.write (rooted : h.Rooted) (writes : h.Writes name)
    (data : List (BitVec 8)) :
    HostTree.Rooted (Function.update h name.parts (some (.file data))) ∧ name.parts ≠ [] := by
  obtain ⟨last, parent, notDir⟩ := writes
  refine ⟨rooted.update parent notDir (fun same => by cases same), fun empty => ?_⟩
  rw [empty] at last
  cases last

/-- The head and the tail have the parts of the name. -/
theorem makedirsSplit_parts (name : PosixPath) :
    (makedirsSplit name).1.parts ++ PosixPath.parts (makedirsSplit name).2 = name.parts := by
  unfold makedirsSplit
  split
  · next empty =>
    have whole := PosixPath.split_parts name
    rw [empty, PosixPath.parts_nil, List.append_nil] at whole
    rw [PosixPath.split_parts, whole]
  · exact PosixPath.split_parts name

/-- The head and the tail are no longer than the name. -/
theorem makedirsSplit_length (name : PosixPath) :
    (makedirsSplit name).1.length + (makedirsSplit name).2.length ≤ name.length := by
  unfold makedirsSplit
  split
  · exact (PosixPath.split_length _).trans
      ((Nat.le_add_right _ _).trans (PosixPath.split_length name))
  · exact PosixPath.split_length name

/-- The tail has no slash. -/
theorem makedirsSplit_plain (name : PosixPath) : '/' ∉ (makedirsSplit name).2 := by
  unfold makedirsSplit
  split
  · exact PosixPath.split_plain _
  · exact PosixPath.split_plain name

/-- A head that ends in a slash is the root. -/
theorem makedirsSplit_slash (name : PosixPath)
    (slash : (makedirsSplit name).1.getLast? = some '/') : (makedirsSplit name).1.parts = [] := by
  unfold makedirsSplit at slash ⊢
  split at slash
  · next empty =>
    rw [if_pos empty]
    exact PosixPath.split_slash _ slash
  · next other =>
    rw [if_neg other]
    exact PosixPath.split_slash _ slash

/-- The head of a path that does not go up does not go up. -/
theorem makedirsSplit_direct {absolute : Bool} (direct : name.Direct absolute) :
    (makedirsSplit name).1.Direct absolute := by
  obtain ⟨sameStart, place⟩ := makedirsSplit_above name
  exact ⟨sameStart.trans direct.1, fun up => direct.2 (place.subset up)⟩

section Splits

variable {head tail : PosixPath} (rooted : h.Rooted)

/-- A dot behind the head is no part of its own. -/
theorem parts_dot (parts : head.parts ++ PosixPath.parts tail = name.parts) (dot : tail = ['.']) :
    name.parts = head.parts := by
  rw [← parts, dot, show PosixPath.parts ['.'] = [] by rfl, List.append_nil]

include rooted

/-- What can be made in a directory that is there has no missing head but for a dot. -/
theorem HostTree.Rooted.takes_dot (parts : head.parts ++ PosixPath.parts tail = name.parts)
    (named : head ≠ []) (real : tail ≠ []) (plain : '/' ∉ tail) (nowhere : ¬ h.There head)
    (takes : h.Takes name) : tail = ['.'] ∧ h.Takes head := by
  obtain ⟨-, takes⟩ := takes
  by_cases dot : tail = ['.']
  · rw [parts_dot parts dot] at takes
    exact ⟨dot, named, takes⟩
  · rw [PosixPath.parts_single real dot plain] at parts
    have there : h head.parts = some .dir := by
      rw [← parts, List.dropLast_concat] at takes
      exact takes.elim (fun dir => rooted.parent _ tail (by rw [dir]; rfl)) And.right
    exact absurd ⟨named, Or.inl there⟩ nowhere

/-- Where the head is there, or is left out, one `mkdir` is enough. -/
theorem HostTree.Rooted.makes_of_takes (cut : makedirsSplit name = (head, tail))
    (found : head ≠ [] → tail ≠ [] → h.There head) (takes : h.Takes name) :
    h name.parts = some .dir ∨ h.Makes name := by
  obtain ⟨-, dir | ⟨away, parent⟩⟩ := takes
  · exact Or.inl dir
  refine Or.inr ⟨away, parent, fun dot => ?_⟩
  have parts := makedirsSplit_parts name
  rw [cut] at parts dot
  dsimp only at parts dot
  -- With a dot behind it, the head is the name that nothing is under.
  rw [parts_dot parts dot] at away
  by_cases empty : head = []
  · rw [empty] at away
    exact absurd (rooted.root.symm.trans away) (Option.some_ne_none _)
  · rcases (found empty (dot ▸ List.cons_ne_nil _ _)).2 with dir | some
    · rw [dir] at away
      cases away
    · rw [away] at some
      cases some.1

end Splits

section Calls

variable {H : Type} {calls : HostCalls H} {tree : H → HostTree} {s : Copying H} {absolute : Bool}
  (keeps : calls.KeepsTree absolute tree)

include keeps

/-- What the `mkdir` at the end makes, and what there is where it fails. -/
theorem makeOne_tree (direct : name.Direct absolute) (rooted : (tree s.host).Rooted) :
    Ends (makeOne calls name) s
      (fun _ t => (tree s.host).Extends (tree t.host) name.parts ∧
        tree t.host name.parts = some .dir)
      fun e t => tree t.host = tree s.host ∧
        (e = .osError true → name.getLast? ≠ some '/' → (tree s.host).There name) ∧
        (name ≠ [] → tree s.host name.parts ≠ some .dir ∧ ¬ (tree s.host).Makes name) := by
  refine .bind (.of_ok rfl (.bind (.state ?_)))
  have clashes := keeps.clashes s.host name direct
  by_cases makes : (tree s.host).Makes name
  · obtain ⟨made, grown⟩ := keeps.makes s.host name direct makes
    obtain ⟨nowhere, parent, -⟩ := makes
    have notDir : tree s.host name.parts ≠ some .dir := by
      rw [nowhere]
      exact (Option.some_ne_none _).symm
    refine .ite (fun _ => .value ?_) fun fails => absurd (Or.inl made) fails
    dsimp only
    rw [grown]
    refine ⟨⟨rooted.update parent notDir (fun same => by cases same), fun p => ?_⟩,
      Function.update_self _ _ _⟩
    by_cases here : p = name.parts
    · rw [here]
      exact Or.inr ⟨nowhere, List.prefix_rfl, Function.update_self _ _ _⟩
    · exact Or.inl (Function.update_of_ne here _ _)
  · obtain ⟨other, same⟩ := keeps.stays s.host name direct makes
    have isDir := keeps.isDir (calls.mkdir s.host name).2 name direct
    rw [same] at isDir
    refine .ite (fun works => .value ?_) fun fails => .raise ⟨same, fun exists' clean => ?_, ?_⟩
    · dsimp only
      rw [same]
      exact ⟨.refl rooted _, (isDir.mp (works.resolve_left other)).2⟩
    · exact clashes clean (by simpa using exists')
    · exact fun named => ⟨fun dir => fails (Or.inr (isDir.mpr ⟨named, dir⟩)), makes⟩

/-- What is made at a depth of recursion, and what there is where it fails. -/
theorem makedirsFrom_tree (depth : Nat) (name : PosixPath) (s : Copying H)
    (direct : name.Direct absolute) (rooted : (tree s.host).Rooted) :
    Ends (makedirsFrom calls depth name) s
      (fun _ t => (tree s.host).Extends (tree t.host) name.parts ∧
        (name.length < depth → tree t.host name.parts = some .dir))
      fun e t => (tree s.host).Extends (tree t.host) name.parts ∧
        (e = .osError true → name.getLast? ≠ some '/' → (tree s.host).There name) ∧
        ¬ (tree s.host).Takes name := by
  induction depth generalizing name s with
  | zero => exact .value ⟨.refl rooted _, fun short => absurd short (Nat.not_lt_zero _)⟩
  | succ depth inductionHypothesis =>
    have parts := makedirsSplit_parts name
    have length := makedirsSplit_length name
    have plain := makedirsSplit_plain name
    have slash := makedirsSplit_slash name
    have directHead := makedirsSplit_direct direct
    unfold makedirsFrom
    generalize cut : makedirsSplit name = split at *
    obtain ⟨head, tail⟩ := split
    dsimp only at *
    have exists' := keeps.pathExists s.host head directHead
    have above : head.parts <+: name.parts := parts ▸ List.prefix_append _ _
    refine .bind (.state (.ite (fun missing => .bind (.caught ?_)) fun found => ?_))
    · obtain ⟨named, real, absent⟩ := missing
      have nowhere : ¬ (tree s.host).There head := by
        rw [← exists', absent]
        exact Bool.false_ne_true
      have dotted : (tree s.host).Takes name → tail = ['.'] ∧ (tree s.host).Takes head :=
        rooted.takes_dot parts named real plain nowhere
      refine (inductionHypothesis head s directHead rooted).mono (fun _ t made => ?_)
        fun e t failed => ?_
      · -- The head is there, and the name is made in it.
        have short : name.length < depth + 1 → tree t.host head.parts = some .dir := fun fits =>
          made.2 (by have some := List.length_pos_of_ne_nil real; omega)
        refine .ite (fun dot => .value ⟨made.1.mono above, fun fits => ?_⟩) fun notDot => ?_
        · rw [parts_dot parts dot]
          exact short fits
        · refine (makeOne_tree keeps direct made.1.rooted).mono (fun _ u grown => ?_)
            fun e u failed => ?_
          · exact ⟨(made.1.mono above).trans grown.1, fun _ => grown.2⟩
          · refine ⟨failed.1 ▸ made.1.mono above, fun same clean => ?_,
              fun takes => notDot (dotted takes).1⟩
            rw [PosixPath.parts_single real notDot plain] at parts
            rcases made.1.new name.parts with still | ⟨-, inside, -⟩
            · have there := failed.2.1 same clean
              unfold HostTree.There at there ⊢
              rwa [still] at there
            · have longer := inside.length_le
              rw [← parts, List.length_append, List.length_singleton] at longer
              omega
      · refine .ite (fun same => absurd ?_ nowhere) fun other => .raise ?_
        · by_cases ends : head.getLast? = some '/'
          · exact ⟨named, Or.inl (slash ends ▸ rooted.root)⟩
          · exact failed.2.1 same ends
        · exact ⟨failed.1.mono above, fun same => absurd same other, fun takes =>
            failed.2.2 (dotted takes).2⟩
    · refine (makeOne_tree keeps direct rooted).mono (fun _ u grown => ⟨grown.1, fun _ => grown.2⟩)
        fun e u failed => ⟨failed.1 ▸ .refl rooted _, failed.2.1, fun takes => ?_⟩
      have there (some : head ≠ []) (real : tail ≠ []) : (tree s.host).There head := by
        rw [← exists', ← Bool.not_eq_false]
        exact fun absent => found ⟨some, real, absent⟩
      exact (rooted.makes_of_takes cut there takes).elim (failed.2.2 takes.1).1
        (failed.2.2 takes.1).2

/-- `makedirs` makes the directories on the way; it returns where the last one is there or can be
made. -/
theorem makedirs_tree (name : PosixPath) (direct : name.Direct absolute)
    (rooted : (tree s.host).Rooted) :
    Ends (makedirs calls name) s (fun _ t => (tree t.host).Rooted ∧
      ∀ p, tree t.host p = if p <+: name.parts then some .dir else tree s.host p)
      fun _ _ => ¬ (tree s.host).Takes name := by
  refine (makedirsFrom_tree keeps (name.length + 1) name s direct rooted).mono (fun _ t made => ?_)
    fun _ _ failed => failed.2.2
  exact ⟨made.1.rooted, made.1.eq (made.2 (Nat.lt_succ_self _))⟩

end Calls

end HostTree

end C900
