import C900.Fs.CopyOut

/-!
# Where a copy goes

Every name that survives the lookup in the image leads down on the host, unless it begins
with a slash: a part that goes up is never found, since `read_dir` leaves the entries `.`
and `..` out. So a copy writes at the destination and below it, and makes directories there
and above.
-/

namespace C900

/-! ## Names that are found -/

theorem slashed_append (a b : PosixPath) : slashed (a ++ b) = slashed a ++ slashed b :=
  List.map_append

theorem slashed_cons_slash (b : PosixPath) : slashed ('/' :: b) = '/' :: slashed b := rfl

/-- Replacing the backslashes cuts each part on its own. -/
theorem splitOn_slashed (p : PosixPath) :
    (slashed p).splitOn '/' = (p.splitOn '/').flatMap fun part => (slashed part).splitOn '/' := by
  induction p with
  | nil => rfl
  | cons c rest inductionHypothesis =>
    have cut : ∀ q : PosixPath, slashed (c :: q) = (if c = backslash then '/' else c) :: slashed q :=
      fun _ => rfl
    rw [cut, List.splitOn_cons_eq_if_modifyHead, List.splitOn_cons_eq_if_modifyHead,
      inductionHypothesis]
    obtain ⟨first, others, parts⟩ :=
      List.exists_cons_of_ne_nil (List.splitOn_ne_nil '/' rest)
    rw [parts]
    by_cases slash : c = '/'
    · subst slash
      rfl
    · have here : (c == '/') = false := beq_eq_false_iff_ne.mpr slash
      obtain ⟨head, tail, inner⟩ :=
        List.exists_cons_of_ne_nil (List.splitOn_ne_nil '/' (slashed first))
      rw [here, if_neg Bool.false_ne_true, List.modifyHead_cons, List.flatMap_cons,
        List.flatMap_cons, cut, List.splitOn_cons_eq_if_modifyHead, inner]
      split_ifs <;> rfl

/-- A part that goes up stays one when the backslashes are replaced. -/
theorem dotDot_slashed {p : PosixPath} (up : PosixPath.dotDot ∈ p.parts) :
    PosixPath.dotDot ∈ (slashed p).parts := by
  obtain ⟨member, names⟩ := List.mem_filter.mp up
  refine List.mem_filter.mpr ⟨?_, names⟩
  rw [splitOn_slashed]
  exact List.mem_flatMap.mpr ⟨PosixPath.dotDot, member, by decide⟩

/-- `norm_img` keeps the parts. -/
theorem parts_normImg (p : PosixPath) : (normImg p).parts = (slashed p).parts :=
  PosixPath.parts_intercalate _

/-- An entry of a directory is not `..`. -/
theorem readDir_not_dotDot {fs : CoherentFs} {image : Image} {inode : Inode}
    {entry : Nat × PosixPath} (member : entry ∈ fs.readDir image inode) :
    entry.2 ≠ PosixPath.dotDot := by
  unfold CoherentFs.readDir at member
  split_ifs at member
  · obtain ⟨k, -, read⟩ := List.mem_filterMap.mp member
    unfold readDirent at read
    dsimp only at read
    split_ifs at read with skipped
    obtain rfl := Option.some.inj read
    exact fun up => skipped (Or.inr (Or.inr up))
  · exact absurd member List.not_mem_nil

theorem entry_not_dotDot {node next : Node} {image : Image} {part : PosixPath}
    (found : node.entry image part = some next) : part ≠ PosixPath.dotDot := by
  unfold Node.entry at found
  cases search : (node.owner.readDir image node.inode).find? fun entry => entry.2 = part with
  | none =>
    rw [search] at found
    exact absurd found nofun
  | some entry =>
    have same : entry.2 = part := by simpa using List.find?_some search
    rw [← same]
    exact readDir_not_dotDot (List.mem_of_find?_eq_some search)

/-- A path that is found does not go up. -/
theorem descend_not_dotDot {v : Volume} {image : Image} {parts : List PosixPath}
    {path : PosixPath} {cur : Option Node} {node : Node}
    (found : v.descend image parts path cur = some node) : PosixPath.dotDot ∉ parts := by
  induction parts generalizing path cur with
  | nil => exact List.not_mem_nil
  | cons part rest inductionHypothesis =>
    cases cur with
    | none => exact absurd found nofun
    | some here =>
      unfold Volume.descend at found
      split_ifs at found
      cases step : here.entry image part with
      | none =>
        rw [step] at found
        exact absurd found nofun
      | some next =>
        rw [step] at found
        exact List.not_mem_cons_of_ne_of_not_mem (entry_not_dotDot step).symm
          (inductionHypothesis found)

theorem lookup_not_dotDot {v : Volume} {image : Image} {path : PosixPath} {node : Node}
    (found : v.lookup image path = some node) : PosixPath.dotDot ∉ path.parts := by
  unfold Volume.lookup at found
  split at found
  · exact absurd found nofun
  · exact descend_not_dotDot found

/-- A name under which a directory entry is found leads down. -/
theorem found_leads_down {v : Volume} {image : Image} {path name : PosixPath} {node : Node}
    (found : v.lookup image (normImg (normImg path ++ '/' :: name)) = some node) :
    PosixPath.dotDot ∉ name.parts := by
  intro up
  refine lookup_not_dotDot found ?_
  rw [parts_normImg, slashed_append, slashed_cons_slash, PosixPath.parts_append_slash]
  exact List.mem_append_right _ (dotDot_slashed up)

/-! ## What a program touches -/

variable {H α β : Type}

/-- The state at the end, after an exception too. -/
def endState : EStateM.Result CopyError (Copying H) α → Copying H
  | .ok _ s => s
  | .error _ s => s

/-- The program asks the host for such things only. -/
def Touches (P : HostTouch → Prop) (x : CopyM H α) : Prop :=
  ∀ s, (∀ p ∈ s.touched, P p) → ∀ p ∈ (endState (x s)).touched, P p

namespace Touches

variable {P : HostTouch → Prop} {x : CopyM H α}

theorem pure (a : α) : Touches P (Pure.pure a : CopyM H α) := fun _ before => before

theorem raise (e : CopyError) : Touches P (throw e : CopyM H α) := fun _ before => before

theorem state : Touches P (get : CopyM H (Copying H)) := fun _ before => before

theorem bind {f : α → CopyM H β} (first : Touches P x) (rest : ∀ a, Touches P (f a)) :
    Touches P (x >>= f) := by
  intro s before
  have run : (x >>= f) s =
      match x s with
      | .ok a s => f a s
      | .error e s => .error e s := by
    change EStateM.bind x f s = _
    unfold EStateM.bind
    cases x s <;> rfl
  have middle := first s before
  rw [run]
  cases result : x s with
  | ok a t =>
    rw [result] at middle
    exact rest a t middle
  | error e t =>
    rw [result] at middle
    exact middle

theorem ite {p : Prop} [Decidable p] {y : CopyM H α} (yes : Touches P x) (no : Touches P y) :
    Touches P (if p then x else y) := by
  split
  · exact yes
  · exact no

theorem caught {handler : CopyError → CopyM H α} (body : Touches P x)
    (handled : ∀ e, Touches P (handler e)) : Touches P (tryCatch x handler) := by
  intro s before
  have run : (tryCatch x handler : CopyM H α) s =
      match x s with
      | .ok a s => .ok a s
      | .error e s => handler e s := by
    change EStateM.tryCatch x handler s = _
    unfold EStateM.tryCatch
    cases x s <;> rfl
  have middle := body s before
  rw [run]
  cases result : x s with
  | ok a t =>
    rw [result] at middle
    exact middle
  | error e t =>
    rw [result] at middle
    exact handled e t middle

/-- A loop over a list. -/
theorem forM {items : List β} {body : β → CopyM H PUnit}
    (each : ∀ item ∈ items, Touches P (body item)) : Touches P (items.forM body) := by
  induction items with
  | nil => exact pure _
  | cons item rest inductionHypothesis =>
    exact (each item List.mem_cons_self).bind fun _ =>
      inductionHypothesis fun other member => each other (List.mem_cons_of_mem _ member)

end Touches

section Host

variable {calls : HostCalls H} {P : HostTouch → Prop} {name : PosixPath}

theorem hostMkdir_touches (here : P (.made name)) : Touches P (hostMkdir calls name) := by
  intro s before p member
  rcases List.mem_cons.mp member with rfl | old
  · exact here
  · exact before p old

theorem hostWrite_touches (here : P (.wrote name)) (data : List (BitVec 8)) :
    Touches P (hostWrite calls name data) := by
  intro s before p member
  have touched : (endState (hostWrite calls name data s)).touched =
        .wrote name :: s.touched := by
    unfold hostWrite
    dsimp only
    split_ifs <;> rfl
  rw [touched] at member
  rcases List.mem_cons.mp member with rfl | old
  · exact here
  · exact before p old

theorem makeOne_touches (here : P (.made name)) : Touches P (makeOne calls name) :=
  (hostMkdir_touches here).bind fun _ => Touches.state.bind fun _ =>
    .ite (.pure _) (.raise _)

/-- What `makedirs` recurs into lies above the name. -/
theorem makedirsSplit_above (name : PosixPath) : PosixPath.Above name (makedirsSplit name).1 := by
  unfold makedirsSplit
  split_ifs
  · exact (PosixPath.dirname_above name).trans (PosixPath.dirname_above _)
  · exact PosixPath.dirname_above name

/-- `makedirs` touches the name and directories above it. -/
theorem makedirsFrom_touches (above : ∀ p, PosixPath.Above name p → P (.made p)) (depth : Nat) :
    Touches P (makedirsFrom calls depth name) := by
  induction depth generalizing name with
  | zero => exact .pure _
  | succ depth inductionHypothesis =>
    have one : Touches P (makeOne calls name) :=
      makeOne_touches (above name (PosixPath.above_refl name))
    refine Touches.state.bind fun s => .ite (.bind (.caught ?_ fun e => ?_) fun _ => ?_) one
    · exact inductionHypothesis fun p higher => above p ((makedirsSplit_above name).trans higher)
    · exact .ite (.pure _) (.raise _)
    · exact .ite (.pure _) one

end Host

/-! ## Copies -/

/-- The paths of the image that the copy of a path comes to. -/
inductive Visits (v : Volume) (image : Image) : PosixPath → PosixPath → Prop where
  | here (path : PosixPath) : Visits v image path path
  | down {path visited : PosixPath} {node : Node} {entry : Nat × PosixPath}
      (found : v.lookup image (normImg path) = some node)
      (member : entry ∈ node.owner.readDir image node.inode)
      (further : Visits v image (normImg path ++ '/' :: entry.2) visited) :
      Visits v image path visited

/-- Among the paths that the copy comes to, no directory has an entry that is found and
whose name begins with a slash. -/
def RelativeNames (v : Volume) (image : Image) (path : PosixPath) : Prop :=
  ∀ visited, Visits v image path visited → ∀ node entry, v.lookup image (normImg visited) = some node →
    entry ∈ node.owner.readDir image node.inode →
      (v.lookup image (normImg (normImg visited ++ '/' :: entry.2))).isSome = true →
        entry.2.isAbsolute = false

/-- The copy of a path that is not found touches nothing. -/
theorem copyOut_notFound {v : Volume} {image : Image} {calls : HostCalls H} {path dest : PosixPath}
    {P : HostTouch → Prop} (missing : v.lookup image (normImg path) = none) (depth : Nat) :
    Touches P (copyOut calls v image depth path dest) := by
  cases depth with
  | zero => exact .raise _
  | succ depth =>
    unfold copyOut
    dsimp only
    rw [missing]
    exact .raise _

/-- Files are written at the destination or below it, and directories are made there or
above it. -/
def KeptIn (dest : PosixPath) : HostTouch → Prop
  | .made p => PosixPath.Below dest p ∨ PosixPath.Above dest p
  | .wrote p => PosixPath.Below dest p

/-- What is confined below the destination is confined to the destination. -/
theorem KeptIn.of_below {dest child : PosixPath} (below : PosixPath.Below dest child)
    {t : HostTouch} (confined : KeptIn child t) : KeptIn dest t := by
  cases t with
  | made p =>
    rcases confined with lower | higher
    · exact Or.inl (below.trans lower)
    · exact below.above higher
  | wrote p => exact below.trans confined

/-- A copy stays at the destination. -/
theorem copyOut_touches {v : Volume} {image : Image} {calls : HostCalls H} {path dest : PosixPath}
    {P : HostTouch → Prop} (near : ∀ t, KeptIn dest t → P t)
    (relative : RelativeNames v image path) (depth : Nat) :
    Touches P (copyOut calls v image depth path dest) := by
  induction depth generalizing path dest with
  | zero => exact .raise _
  | succ depth inductionHypothesis =>
    cases found : v.lookup image (normImg path) with
    | none => exact copyOut_notFound found _
    | some node =>
      have run : copyOut calls v image (depth + 1) path dest =
          if node.inode.isDir then do
            makedirs calls dest
            (node.sortedEntries image).forM fun entry =>
              copyOut calls v image depth (normImg path ++ '/' :: entry.2)
                (PosixPath.join dest entry.2)
          else if node.inode.isFile then do
            if PosixPath.dirname dest ≠ [] then makedirs calls (PosixPath.dirname dest)
            hostWrite calls dest (node.owner.readFile image node.inode)
          else pure () := by
        conv_lhs => unfold copyOut
        dsimp only
        rw [found]
      rw [run]
      refine .ite ?_ (.ite ?_ (.pure _))
      · refine (makedirsFrom_touches (fun p above => near (.made p) (Or.inr above)) _).bind fun _ =>
          .forM fun entry sorted => ?_
        have member := (List.mem_insertionSort _).mp sorted
        cases child : v.lookup image (normImg (normImg path ++ '/' :: entry.2)) with
        | none => exact copyOut_notFound child _
        | some inner =>
          have name : entry.2.isAbsolute = false :=
            relative path (.here path) node entry found member (by rw [child]; rfl)
          have below := PosixPath.join_below dest name (found_leads_down child)
          exact inductionHypothesis (fun t inside => near t (KeptIn.of_below below inside))
            fun visited visits => relative visited (.down found member visits)
      · have whole : Touches P (hostWrite calls dest (node.owner.readFile image node.inode)) :=
          hostWrite_touches (near (.wrote dest) (PosixPath.below_refl dest)) _
        refine .ite (.bind (makedirsFrom_touches (fun p above => near (.made p) (Or.inr ?_)) _) fun _ => whole)
          whole
        exact (PosixPath.dirname_above dest).trans above

/-- Whatever the image, the destination and the host: every file that a copy writes lies at
the destination or below it, and every directory that it makes lies there or above it,
where no entry that is found has a name that begins with a slash. -/
theorem copyOut_confined (v : Volume) (image : Image) (calls : HostCalls H) (host : H) (depth : Nat)
    (path dest : PosixPath) (relative : RelativeNames v image path) :
    ∀ t ∈ (endState (copyOut calls v image depth path dest ⟨host, []⟩)).touched, KeptIn dest t :=
  copyOut_touches (fun _ near => near) relative depth ⟨host, []⟩ fun _ member =>
    absurd member List.not_mem_nil

/-! ## A small image -/

/-- A directory entry. -/
def dirent (ino : Nat) (name : String) : List (BitVec 8) :=
  (BitVec.ofNat 8 ino :: 0 :: name.toList.map fun c => BitVec.ofNat 8 c.toNat).rightpad 16 0

/-- A partition of eight blocks: the root directory in block 5, with these entries beside
`.` and `..`, and a file of one byte, inode 3, in block 6. -/
def smallImage (entries : List (BitVec 8)) : Image where
  len := 8 * blockSize
  byte :=
    let zeros : Buffer := fun _ => 0
    let directory := zeros.set16 1088 0x41ED |>.set32 1096 (32 + entries.length) |>.set16 1101 5
    let file := directory.set16 1152 0x81A4 |>.set32 1160 1 |>.set16 1165 6 |>.set8 3072 0x78
    file.blit (5 * blockSize)
      (fun i => (dirent 2 "." ++ dirent 2 ".." ++ entries).getD i 0) 0 blockSize

/-- The handle of that partition alone. -/
def smallVolume : Volume := ⟨⟨⟨0⟩, 2⟩, []⟩

/-- A host without files, on which every call succeeds. -/
def emptyHost : HostCalls Unit where
  pathExists _ _ := false
  isDir _ _ := false
  mkdir _ _ := (.made, ())
  write _ _ _ := (true, ())

/-- What a copy of the small image asks for. -/
def smallCopy (entries : List (BitVec 8)) (path dest : String) : List HostTouch :=
  (endState (copyOut emptyHost smallVolume (smallImage entries) 5 path.toList dest.toList
    ⟨(), []⟩)).touched

/-- The entries of the directory at a path. -/
def entriesAt (image : Image) (path : PosixPath) : Option (List (Nat × PosixPath)) :=
  (smallVolume.lookup image (normImg path)).map fun node =>
    node.owner.readDir image node.inode

/-- The root holds one file. -/
theorem smallImage_relativeNames :
    RelativeNames smallVolume (smallImage (dirent 3 "f")) "/".toList := by
  have root : entriesAt (smallImage (dirent 3 "f")) "/".toList = some [(3, ['f'])] := by
    decide
  have file : entriesAt (smallImage (dirent 3 "f")) (normImg "/".toList ++ '/' :: ['f']) =
      some [] := by decide
  have listed : ∀ {path : PosixPath} {entries : List (Nat × PosixPath)} {node : Node}
      {entry : Nat × PosixPath}, entriesAt (smallImage (dirent 3 "f")) path = some entries →
      smallVolume.lookup (smallImage (dirent 3 "f")) (normImg path) = some node →
      entry ∈ node.owner.readDir (smallImage (dirent 3 "f")) node.inode → entry ∈ entries := by
    intro path entries node entry held found member
    unfold entriesAt at held
    rw [found] at held
    exact Option.some.inj held ▸ member
  intro visited visits node entry found member _
  cases visits with
  | here =>
    obtain rfl := List.mem_singleton.mp (listed root found member)
    rfl
  | down foundRoot memberRoot further =>
    obtain rfl := List.mem_singleton.mp (listed root foundRoot memberRoot)
    cases further with
    | here => exact absurd (listed file found member) List.not_mem_nil
    | down foundFile memberFile _ =>
      exact absurd (listed file foundFile memberFile) List.not_mem_nil

/-- Its copy touches nothing outside the destination. -/
theorem smallCopy_confined :
    ¬∃ t, t ∈ smallCopy (dirent 3 "f") "/" "out/new" ∧ ¬KeptIn "out/new".toList t := by
  rintro ⟨t, touched, outside⟩
  exact outside (copyOut_confined smallVolume (smallImage (dirent 3 "f")) emptyHost () 5
    "/".toList "out/new".toList smallImage_relativeNames t touched)

/-- The copy of a file makes the missing directories above the destination, and an entry
`/b` beside a file `b` is written to the root of the host. -/
theorem smallCopy_leaves :
    (∃ p, .made p ∈ smallCopy (dirent 3 "f") "/f" "out/new/f" ∧
      ¬PosixPath.Below "out/new/f".toList p) ∧
    (∃ p, .wrote p ∈ smallCopy (dirent 3 "b" ++ dirent 3 "/b") "/" "dst" ∧
      ¬PosixPath.Below "dst".toList p) := by
  refine ⟨⟨"out".toList, by decide, ?_⟩, ⟨"/b".toList, by decide +kernel, ?_⟩⟩
  · rintro ⟨-, rest, parts, -⟩
    have longer := congrArg List.length parts
    rw [List.length_append] at longer
    have short : (PosixPath.parts "out".toList).length = 1 := by decide
    have long : (PosixPath.parts "out/new/f".toList).length = 3 := by decide
    omega
  · rintro ⟨absolute, -⟩
    exact absurd absolute (by decide)

end C900
