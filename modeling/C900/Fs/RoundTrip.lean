import C900.Fs.CopyingIn
import C900.Fs.HostTree

/-!
# Copying a tree in and out again

`copy_out` grafts what a path of an orderly volume shows onto the tree of a host. A tree that was
copied in comes out again as it was.
-/

namespace C900

open Grafting

/-- What `copy_out` takes from the names below a path: directories and regular files. -/
def Volume.outline (v : Volume) (image : Image) (path : PosixPath) (rest : List PosixPath) :
    Option Shape :=
  (v.seen image ((normImg path).parts ++ rest)).filter (· ≠ .special)

/-- No name below the path has a backslash. -/
def Volume.NoBackslash (v : Volume) (image : Image) (path : PosixPath) : Prop :=
  ∀ rest place, v.reach image ((normImg path).parts ++ rest) = some place →
    ∀ n ∈ rest, slashed n = n

section RoundTrip

variable {v : Volume} {parts : List Partition} {image : Image} {place : Located}
  {path dest name q : PosixPath} {names rest : List PosixPath} {data : List (BitVec 8)}
  {host : HostFiles}

section Calls

variable {H : Type} {calls : HostCalls H} {absolute : Bool} {tree : H → HostTree}
  {s t : Copying H} (keeps : calls.KeepsTree absolute tree)

include keeps

/-- `open` and the write that return. -/
theorem hostWrite_tree (direct : dest.Direct absolute) (rooted : (tree s.host).Rooted) :
    Ends (hostWrite calls dest data) s (fun _ t => (tree t.host).Rooted ∧
      tree s.host dest.parts.dropLast = some .dir ∧ dest.parts ≠ [] ∧
        tree t.host = Function.update (tree s.host) dest.parts (some (.file data)))
      fun _ _ => ¬ (tree s.host).Awaits dest := by
  unfold Ends hostWrite
  dsimp only
  by_cases writes : (tree s.host).Writes dest
  · obtain ⟨done, after⟩ := keeps.writes s.host dest data direct rooted writes
    obtain ⟨rooted', nonempty⟩ := rooted.write writes data
    rw [if_pos done]
    exact ⟨after ▸ rooted', writes.2.1, nonempty, after⟩
  · rw [if_neg (Bool.eq_false_iff.mp (keeps.refuses s.host dest data direct rooted writes))]
    exact fun awaits => writes awaits.writes

/-- A file is written, its directory is made where it has one. -/
theorem writeOut_tree (direct : dest.Direct absolute) (rooted : (tree s.host).Rooted) :
    Ends (do
      if PosixPath.dirname dest ≠ [] then makedirs calls (PosixPath.dirname dest)
      hostWrite calls dest data) s (fun _ t => (tree t.host).Rooted ∧ ∀ p, tree t.host p =
        if p = dest.parts then some (.file data)
        else if p <+: dest.parts then some .dir else tree s.host p)
      fun _ _ => ¬ (tree s.host).Awaits dest := by
  have written : ∀ u : Copying H, (tree u.host).Rooted →
      (∀ p, ¬ p <+: dest.parts → tree u.host p = tree s.host p) →
      ((tree s.host).Awaits dest → (tree u.host).Awaits dest) →
      Ends (hostWrite calls dest data) u (fun _ t => (tree t.host).Rooted ∧ ∀ p, tree t.host p =
        if p = dest.parts then some (.file data)
        else if p <+: dest.parts then some .dir else tree s.host p)
        fun _ _ => ¬ (tree s.host).Awaits dest := by
    intro u rooted' kept awaited
    refine (hostWrite_tree keeps direct rooted').mono (fun _ t done => ?_) fun _ _ fails awaits =>
      fails (awaited awaits)
    obtain ⟨rooted'', parent, nonempty, same⟩ := done
    refine ⟨rooted'', fun p => ?_⟩
    rw [same]
    by_cases here : p = dest.parts
    · rw [if_pos here, here, Function.update_self]
    · rw [if_neg here, Function.update_of_ne here]
      split
      · next above =>
        have inside : p <+: dest.parts.dropLast := by
          rw [← List.dropLast_append_getLast nonempty] at above here
          exact (List.prefix_concat_iff.mp above).resolve_left here
        by_cases parent' : p = dest.parts.dropLast
        · rw [parent', parent]
        · exact rooted'.above (by rw [parent]; rfl) inside parent'
      · next away => exact kept p away
  refine .ite (fun named => .bind ?_) fun _ => written s rooted (fun _ _ => rfl) id
  obtain ⟨sameStart, higher⟩ := PosixPath.dirname_above dest
  have direct' : (PosixPath.dirname dest).Direct absolute :=
    ⟨sameStart.trans direct.1, fun up => direct.2 (higher.subset up)⟩
  refine (makedirs_tree keeps _ direct' rooted).mono
    (fun _ u made => written u made.1 (fun p away => ?_) ?_)
    fun _ _ fails awaits => fails ⟨named, Or.inl (awaits.dirname ▸ awaits.parent)⟩
  · rw [made.2, if_neg fun above => away (above.trans higher)]
  · intro awaits
    refine ⟨?_, ?_, awaits.last⟩
    · rw [made.2, awaits.dirname, if_neg fun above => ?_, awaits.free]
      have length := above.length_le
      rw [List.length_dropLast] at length
      have some := List.length_pos_of_ne_nil awaits.nonempty
      omega
    · rw [made.2, awaits.dirname, if_pos List.prefix_rfl]

end Calls

/-! ## Directories -/

/-- The entries of a directory: each name once, a path of one part, leading somewhere; no other name
leads anywhere. -/
theorem Located.Has.listing {links : Nat} {entries : List (Nat × PosixPath)}
    (has : place.Has parts image (.dir links entries)) (orderly : v.Orderly parts image) :
    (entries.map Prod.snd).Nodup ∧
      (∀ name ∈ entries.map Prod.snd, PosixPath.parts name = [name] ∧
        ∃ next, place.entry image name = some next) ∧
      ∀ name ∉ entries.map Prod.snd, place.entry image name = none := by
  obtain ⟨part, member, owner, found⟩ := has
  obtain ⟨fs, ino⟩ := place
  obtain rfl : fs = part.fs := owner
  have wellFormed := orderly.wellFormed member
  have here : (part.table image).entries ino = entries := FileTree.Table.entries_of found
  have table := wellFormed.inside (x := ino) (by rw [found]; rfl)
  refine ⟨here ▸ wellFormed.names ino, fun name listed => ?_, fun name other => ?_⟩
  · obtain ⟨entry, inDir, rfl⟩ := List.mem_map.mp listed
    refine ⟨orderly.named part member ino entry (here ▸ inDir), ?_⟩
    have search : ((part.table image).child ino entry.2).isSome := by
      rw [FileTree.Table.child, here, Option.isSome_map, List.find?_isSome]
      exact ⟨entry, inDir, decide_eq_true rfl⟩
    obtain ⟨x, child⟩ := Option.isSome_iff_exists.mp search
    rw [Partition.entry wellFormed table, child]
    exact ⟨_, rfl⟩
  · rw [Partition.entry wellFormed table, FileTree.Table.child, here, List.find?_eq_none.mpr]
    · rfl
    · intro entry inDir same
      exact other (List.mem_map.mpr ⟨entry, inDir, of_decide_eq_true same⟩)

/-- Nothing comes out under a name that leads nowhere. -/
theorem Volume.outline_missing (reached : v.reach image (normImg path).parts = some place)
    (missing : place.entry image name = none) (rest : List PosixPath) :
    v.outline image path (name :: rest) = none := by
  have nowhere := Volume.Missing.reach (v := v) ⟨reached, missing⟩ rest
  rw [Volume.outline, Volume.seen, nowhere]
  rfl

/-- What comes out of the path itself. -/
theorem Volume.outline_root {item : FileTree.Item Nat PosixPath (List (BitVec 8))}
    (orderly : v.Orderly parts image) (reached : v.reach image (normImg path).parts = some place)
    (has : place.Has parts image item) :
    v.outline image path [] = (some (Shape.of item)).filter (· ≠ .special) := by
  rw [Volume.outline, List.append_nil, has.seen orderly reached]

/-- What comes out of a directory under a name. -/
theorem Volume.outline_below (plain : PosixPath.parts name = [name]) (clean : slashed name = name) :
    v.outline image (normImg path ++ '/' :: name) =
      fun rest => v.outline image path (name :: rest) := by
  funext rest
  rw [Volume.outline, Volume.outline, parts_child, clean, plain, List.append_assoc]
  rfl

/-- Below a name without a backslash no name has one. -/
theorem Volume.NoBackslash.child (clean : v.NoBackslash image path)
    (plain : PosixPath.parts name = [name]) (straight : slashed name = name) :
    v.NoBackslash image (normImg path ++ '/' :: name) := by
  intro rest place here n member
  rw [parts_child, straight, plain, List.append_assoc] at here
  exact clean (name :: rest) place here n (List.mem_cons_of_mem _ member)

/-- The path leads somewhere, and what is below it is less than `depth` names away. -/
structure Volume.Shallow (v : Volume) (image : Image) (path : PosixPath) (depth : Nat) : Prop where
  there : (v.seen image (normImg path).parts).isSome
  below : ∀ rest, (v.seen image ((normImg path).parts ++ rest)).isSome → rest.length < depth

/-- A step down is a level less deep. -/
theorem Volume.Shallow.child {child : PosixPath} {depth : Nat}
    (shallow : v.Shallow image path (depth + 1))
    (place : (normImg child).parts = (normImg path).parts ++ [name])
    (there : (v.seen image ((normImg path).parts ++ [name])).isSome) :
    v.Shallow image child depth := by
  refine ⟨place ▸ there, fun rest found => ?_⟩
  rw [place, List.append_assoc] at found
  exact Nat.lt_of_succ_lt_succ (shallow.below (name :: rest) found)

/-- A name in a directory that was awaited. -/
theorem HostTree.Rooted.awaits_child {h after : HostTree} (rooted : h.Rooted) (awaits : h.Awaits dest)
    (plain : PosixPath.parts name = [name]) (dir : after dest.parts = some .dir)
    (same : after (dest.parts ++ [name]) = h (dest.parts ++ [name])) :
    after.Awaits (PosixPath.join dest name) := by
  have place := PosixPath.parts_join (a := dest) (PosixPath.isAbsolute_of_parts plain)
  rw [plain] at place
  refine ⟨?_, ?_, ?_⟩
  · rw [place, same]
    by_contra found
    have parent := rooted.parent dest.parts name (Option.isSome_iff_ne_none.mpr found)
    rw [awaits.free] at parent
    cases parent
  · rw [place, List.dropLast_concat, dir]
  · rw [place, List.getLast?_concat, PosixPath.split_join dest (PosixPath.not_mem_of_parts plain)]

/-- `copy_out` grafts what the volume shows onto the host. It returns where the recursion is deep
enough and the destination is awaited. -/
theorem Volume.Orderly.copyOut_grafts {H : Type} {calls : HostCalls H} {absolute : Bool}
    {tree : H → HostTree} {s : Copying H} (orderly : v.Orderly parts image)
    (keeps : calls.KeepsTree absolute tree) (depth : Nat) (dest : PosixPath)
    (direct : dest.Direct absolute) (clean : v.NoBackslash image path)
    (rooted : (tree s.host).Rooted) :
    Ends (copyOut calls v image depth path dest) s (fun _ t => (tree t.host).Rooted ∧
      ∀ p, tree t.host p = graft .dir dest.parts (v.outline image path) p (tree s.host p))
      fun _ _ => ¬ (v.Shallow image path depth ∧ (tree s.host).Awaits dest) := by
  induction depth generalizing path dest s with
  | zero =>
    refine .raise fun ready => ?_
    have short := ready.1.below [] (by rw [List.append_nil]; exact ready.1.there)
    exact Nat.not_lt_zero _ short
  | succ depth inductionHypothesis =>
    cases found : v.lookup image (normImg path) with
    | none =>
      rw [copyOut_missing found]
      refine .raise fun ready => ?_
      have there := ready.1.there
      rw [← Volume.shape_seen, Volume.shape, found] at there
      cases there
    | some node =>
      obtain ⟨place, links, reached, has⟩ := orderly.lookup_has found
      rw [Volume.locate_reach] at reached
      have root := Volume.outline_root orderly reached has
      rw [copyOut_found found]
      refine .ite (fun dir => ?_) fun notDir => .ite (fun file => ?_) fun notFile => .value ?_
      · rw [CoherentFs.item_dir dir] at has root
        obtain ⟨nodup, listed, others⟩ := has.listing orderly
        have perm : (node.sortedEntries image).Perm (node.owner.readDir image node.inode) :=
          List.perm_insertionSort _ _
        have names : ((node.sortedEntries image).map Prod.snd).Perm
            ((node.owner.readDir image node.inode).map Prod.snd) := perm.map _
        have all : only (v.outline image path) ((node.sortedEntries image).map Prod.snd) =
            v.outline image path := only_all fun name rest other =>
          Volume.outline_missing reached
            (others name fun member => other (names.mem_iff.mpr member)) rest
        refine .bind ((makedirs_tree keeps dest direct rooted).mono (fun _ t made => ?_)
          fun _ _ fails ready => fails ready.2.takes)
        refine Ends.mono (E := fun _ _ => ¬ (v.Shallow image path (depth + 1) ∧
          (tree s.host).Awaits dest)) (Ends.forM (fun done u => (tree u.host).Rooted ∧
          ∀ p, tree u.host p = graft .dir dest.parts
            (only (v.outline image path) (done.map Prod.snd)) p (tree s.host p)) _
          ⟨made.1, fun p => ?_⟩ ?_) (fun _ u holds => all ▸ holds) fun _ _ => id
        · have start : only (v.outline image path) [] [] = some .dir := root
          rw [made.2, List.map_nil, graft_leaf start fun _ _ => only_new List.not_mem_nil _ _]
          by_cases here : p = dest.parts
          · rw [if_pos here, if_pos (here ▸ List.prefix_rfl)]
          · rw [if_neg here]
        · rintro before entry after u split ⟨rooted', shows⟩
          have sorted := names.nodup_iff.mpr nodup
          rw [split, List.map_append, List.map_cons] at sorted
          have new : entry.2 ∉ before.map Prod.snd := fun again =>
            (List.nodup_append.mp sorted).2.2 entry.2 again entry.2 List.mem_cons_self rfl
          obtain ⟨plain, next, entered⟩ := listed entry.2 (names.mem_iff.mp
            (List.mem_map_of_mem (split ▸ List.mem_append_right _ List.mem_cons_self)))
          have through : ∃ place, v.reach image ((normImg path).parts ++ [entry.2]) = some place := by
            rw [Volume.reach_append, reached, Option.bind_some, entered]
            exact ⟨_, rfl⟩
          obtain ⟨child, through⟩ := through
          have straight := clean [entry.2] child through entry.2 List.mem_cons_self
          have relative : entry.2.isAbsolute = false := PosixPath.isAbsolute_of_parts plain
          have down : entry.2 ≠ PosixPath.dotDot := readDir_not_dotDot (perm.mem_iff.mp
            (split ▸ List.mem_append_right _ List.mem_cons_self))
          refine (inductionHypothesis _ (direct.join plain down) (clean.child plain straight)
            rooted').mono (fun _ w holds => ⟨holds.1, fun p => ?_⟩)
            fun _ _ fails ready => fails ⟨?_, ?_⟩
          · rw [holds.2, PosixPath.parts_join relative, plain, Volume.outline_below plain straight, shows,
              List.map_append]
            exact graft_only root new dest.parts p (tree s.host p)
          · refine ready.1.child (by rw [parts_child, straight, plain]) ?_
            obtain ⟨item, has'⟩ := orderly.reach_has through
            rw [has'.seen orderly through]
            rfl
          · have top : tree u.host dest.parts = some .dir := by
              have below := graft_below .dir dest.parts [] (only (v.outline image path)
                (before.map Prod.snd)) (tree s.host dest.parts)
              rw [List.append_nil] at below
              rw [shows, below, only, root]
              rfl
            refine rooted.awaits_child ready.2 plain top ?_
            rw [shows, graft_below, only_new new, Option.none_or]
      · rw [CoherentFs.item_file file] at has root
        refine (writeOut_tree keeps direct rooted).mono (fun _ t done => ⟨done.1, fun p => ?_⟩)
          fun _ _ fails ready => fails ready.2
        rw [done.2, graft_leaf root fun name rest =>
          Volume.outline_missing reached (has.entry_none orderly rfl) rest]
        rfl
      · refine ⟨rooted, fun p => (graft_nothing (fun rest => ?_) _ _ _ _).symm⟩
        have special : node.owner.item image links node.inode = .special links := by
          unfold CoherentFs.item
          rw [if_neg notFile, if_neg notDir]
        rw [special] at has root
        cases rest with
        | nil => rw [root]; rfl
        | cons name rest => exact Volume.outline_missing reached (has.entry_none orderly rfl) rest

/-! ## In and out -/

/-- The names of an orderly volume are paths of one part. -/
theorem Volume.Orderly.reach_plain (orderly : v.Orderly parts image)
    (reached : v.reach image names = some place) : ∀ n ∈ names, PosixPath.parts n = [n] := by
  induction names using List.reverseRecOn generalizing place with
  | nil => exact fun n member => absurd member List.not_mem_nil
  | append_singleton front last inductionHypothesis =>
    rw [Volume.reach_append] at reached
    obtain ⟨here, reached, next⟩ := Option.bind_eq_some_iff.mp reached
    obtain ⟨there, entered, -⟩ := Option.map_eq_some_iff.mp next
    obtain ⟨links, entries, has⟩ :=
      orderly.entry_dir ((orderly.reach_used reached).within orderly) entered
    obtain ⟨-, listed, others⟩ := has.listing orderly
    intro n member
    rcases List.mem_append.mp member with inFront | inLast
    · exact inductionHypothesis reached n inFront
    · obtain rfl := List.mem_singleton.mp inLast
      by_contra odd
      have unlisted : n ∉ entries.map Prod.snd := fun inDir => odd (listed n inDir).1
      rw [others n unlisted] at entered
      cases entered

/-- Nothing is below a path that leads nowhere. -/
theorem Volume.reach_beyond (nowhere : v.reach image names = none) (rest : List PosixPath) :
    v.reach image (names ++ rest) = none := by
  by_contra somewhere
  obtain ⟨place, reached⟩ := Option.ne_none_iff_exists'.mp somewhere
  obtain ⟨front, here⟩ := Volume.reach_front reached
  rw [nowhere] at here
  cases here

/-- A path that shows nothing leads nowhere. -/
theorem Volume.Orderly.nowhere (orderly : v.Orderly parts image) (hidden : v.shape image path = none) :
    v.reach image path.parts = none := by
  by_contra somewhere
  obtain ⟨place, reached⟩ := Option.ne_none_iff_exists'.mp somewhere
  obtain ⟨item, has⟩ := orderly.reach_has reached
  rw [has.shape orderly reached] at hidden
  cases hidden

/-- A path without backslashes stays as it is. -/
theorem slashed_of_clean {p : PosixPath} (clean : backslash ∉ p) : slashed p = p := by
  refine (List.map_congr_left fun c member => ?_).trans (List.map_id _)
  have kept : c ≠ backslash := fun same => clean (same ▸ member)
  exact if_neg kept

/-- What the host shows is below names of one part without backslashes. -/
theorem HostFiles.Plain.below (plain : host.Plain) (shown : (host.shape q rest).isSome) :
    ∀ n ∈ rest, PosixPath.parts n = [n] ∧ slashed n = n := by
  induction rest generalizing q with
  | nil => exact fun n member => absurd member List.not_mem_nil
  | cons name rest inductionHypothesis =>
    rw [HostFiles.shape] at shown
    split at shown
    · next listing =>
      obtain ⟨-, listed⟩ := listing
      cases names : host.listDir q with
      | none =>
        rw [names] at listed
        cases listed
      | some all =>
        rw [names] at listed
        have single := plain.name names listed
        have inside : name ∈ (slashed name).parts := by
          rw [single]
          exact List.mem_singleton_self name
        intro n member
        rcases List.mem_cons.mp member with rfl | further
        · refine ⟨PosixPath.parts_of_mem inside, slashed_of_clean fun bad => ?_⟩
          exact slashed_clean n (mem_of_mem_splitOn (List.mem_filter.mp inside).1 bad)
        · exact inductionHypothesis shown n further
    · cases shown

/-- The host shows directories and regular files. -/
theorem HostFiles.shape_ne_special (host : HostFiles) (q : PosixPath) (rest : List PosixPath) :
    host.shape q rest ≠ some .special := by
  induction rest generalizing q with
  | nil =>
    intro special
    rw [HostFiles.shape] at special
    split_ifs at special
    · cases special
    · obtain ⟨data, -, other⟩ := Option.map_eq_some_iff.mp special
      cases other
  | cons name rest inductionHypothesis =>
    intro special
    rw [HostFiles.shape] at special
    split_ifs at special
    exact inductionHypothesis _ special

/-- A loop that returns has run its body on every item. -/
theorem forM_each {ε σ ι : Type} {body : ι → EStateM ε σ PUnit} {items : List ι} {s t : σ} {i : ι}
    (ran : items.forM body s = .ok ⟨⟩ t) (member : i ∈ items) : ∃ u w, body i u = .ok ⟨⟩ w := by
  induction items generalizing s with
  | nil => cases member
  | cons first rest inductionHypothesis =>
    obtain ⟨_, u, here, later⟩ := Guard.bind_returned ran
    rcases List.mem_cons.mp member with rfl | further
    · exact ⟨s, u, here⟩
    · exact inductionHypothesis later further

/-- The recursion of `copy_in` that returns has been deep enough. -/
theorem copyIn_shallow {mode : Option Nat} {mkdirs : Bool} {depth : Nat} {s t : Tool}
    (ran : v.copyIn host mode mkdirs depth q path s = .ok () t)
    (shown : (host.shape q rest).isSome) : rest.length < depth := by
  induction depth generalizing q path s t rest with
  | zero => cases ran
  | succ depth inductionHypothesis =>
    cases rest with
    | nil => exact Nat.succ_pos depth
    | cons name rest =>
      rw [HostFiles.shape] at shown
      split at shown
      · next listing =>
        obtain ⟨dir, listed⟩ := listing
        cases names : host.listDir q with
        | none =>
          rw [names] at listed
          cases listed
        | some all =>
          rw [names] at listed
          rw [v.copyIn_dir mode mkdirs depth path dir names] at ran
          obtain ⟨_, u, -, loop⟩ := Guard.bind_returned ran
          obtain ⟨u, w, child⟩ := forM_each loop ((List.mem_insertionSort _).mpr listed)
          exact Nat.succ_lt_succ (inductionHypothesis child shown)
      · cases shown

/-- A tree that `copy_in` has put into an orderly volume, at a path that led nowhere, comes out as it
was: `copy_out` with the same depth of recursion, to a destination where nothing is yet, returns, and
the host then shows below the destination exactly what the first one showed. -/
theorem copyOut_copyIn {H : Type} {calls : HostCalls H} {absolute : Bool} {tree : H → HostTree}
    {mode : Option Nat} {mkdirs : Bool} {depth : Nat} {s t : Tool} {u : Copying H}
    (keeps : calls.KeepsTree absolute tree) (orderly : v.Orderly parts s.image) (single : v.Single)
    (plain : host.Plain) (new : v.shape s.image (normImg path) = none)
    (ran : v.copyIn host mode mkdirs depth q path s = .ok () t)
    (spares : ∀ call ∈ t.made, call.Spares) (shown : (host.shape q []).isSome)
    (direct : dest.Direct absolute) (rooted : (tree u.host).Rooted)
    (awaits : (tree u.host).Awaits dest) :
    ∃ w, copyOut calls v t.image depth path dest u = .ok () w ∧ (tree w.host).Rooted ∧
      ∀ p, tree w.host p = graft .dir dest.parts (host.shape q) p (tree u.host p) := by
  have nowhere := orderly.nowhere new
  have hidden : ∀ {p : PosixPath} {rest}, p.parts = (normImg path).parts ++ rest →
      v.shape s.image p = none := fun place =>
    Volume.shape_nowhere (place ▸ Volume.reach_beyond nowhere _)
  have fresh : v.Fresh s.image host q (normImg path) := by
    intro p rest data old place _ file
    rw [hidden place] at file
    cases file
  obtain ⟨orderly', shows⟩ := Volume.copyIn_grafts orderly single plain fresh ran spares
  have seen : ∀ rest, v.seen t.image ((normImg path).parts ++ rest) = host.shape q rest := by
    intro rest
    by_cases names : ∀ n ∈ rest, PosixPath.parts n = [n]
    · have place : PosixPath.parts (((normImg path).parts ++ rest).flatMap ('/' :: ·)) =
          (normImg path).parts ++ rest := PosixPath.parts_flatMap fun n member =>
        (List.mem_append.mp member).elim PosixPath.parts_of_mem (names n)
      rw [← place, ← Volume.shape_seen, shows, hidden place, place, graft_below, Option.or_none]
    · -- Neither the volume nor the host has such names.
      have here : v.seen t.image ((normImg path).parts ++ rest) = none := by
        by_contra some
        obtain ⟨shape, found⟩ := Option.ne_none_iff_exists'.mp some
        obtain ⟨place, reached, -⟩ := Option.bind_eq_some_iff.mp found
        exact names fun n member => orderly'.reach_plain reached n (List.mem_append_right _ member)
      rw [here]
      by_contra some
      exact names fun n member =>
        (plain.below (Option.isSome_iff_ne_none.mpr (Ne.symm some)) n member).1
  have outline : v.outline t.image path = host.shape q := by
    funext rest
    rw [Volume.outline, seen]
    have kept := host.shape_ne_special q rest
    cases found : host.shape q rest with
    | none => rfl
    | some shape =>
      rw [found] at kept
      have ne : shape ≠ .special := fun same => kept (congrArg some same)
      simp [ne]
  have clean : v.NoBackslash t.image path := by
    intro rest place reached n member
    obtain ⟨item, has⟩ := orderly'.reach_has reached
    have some : (host.shape q rest).isSome := by
      rw [← seen, has.seen orderly' reached]
      rfl
    exact (plain.below some n member).2
  have shallow : v.Shallow t.image path depth := by
    refine ⟨?_, fun rest found => copyIn_shallow ran (seen rest ▸ found)⟩
    have root := seen []
    rw [List.append_nil] at root
    rw [root]
    exact shown
  have ends := orderly'.copyOut_grafts keeps depth dest direct clean rooted
  unfold Ends at ends
  cases out : copyOut calls v t.image depth path dest u with
  | ok a w =>
    rw [out] at ends
    exact ⟨w, rfl, ends.1, outline ▸ ends.2⟩
  | error e w =>
    rw [out] at ends
    exact absurd ⟨shallow, awaits⟩ ends

end RoundTrip

/-- An empty host. -/
def emptyTree : HostTree := fun p => if p = [] then some .dir else none

/-- The root is all that is there. -/
theorem emptyTree_rooted : emptyTree.Rooted := by
  refine ⟨rfl, fun names name found => ?_, fun names special => ?_⟩
  · have nonempty : names ++ [name] ≠ [] := by simp
    rw [emptyTree, if_neg nonempty] at found
    cases found
  · rw [emptyTree] at special
    split at special <;> cases special

/-- A file is copied into the mounted root and out again. -/
theorem copyOut_copyIn_mounted : ∃ t w,
    mountVolume.copyIn smallHost none false 1 ['h', '/', 'f'] ['/', 'm', '/', 'f']
        ⟨mountImage, fun _ => 0, [], []⟩ = .ok () t ∧
      copyOut treeHost mountVolume t.image 1 ['/', 'm', '/', 'f'] ['/', 'o'] ⟨emptyTree, []⟩ = .ok () w ∧
      w.host.Rooted ∧ ∀ p, w.host p =
        graft .dir (PosixPath.parts ['/', 'o']) (smallHost.shape ['h', '/', 'f']) p (emptyTree p) := by
  obtain ⟨t, ran, spares⟩ := mountVolume_insert
  have path : normImg ['/', 'm', '/', 'f'] = ['/', 'm', '/', 'f'] := by decide
  have content : smallHost.read ['h', '/', 'f'] = some [1, 2, 3] := by decide
  have copied : mountVolume.copyIn smallHost none false 1 ['h', '/', 'f'] ['/', 'm', '/', 'f']
      ⟨mountImage, fun _ => 0, [], []⟩ = .ok () t := by
    rw [mountVolume.copyIn_file none false 0 ['/', 'm', '/', 'f'] (by decide) (by decide) content, path]
    exact ran
  have hidden : mountVolume.shape mountImage (normImg ['/', 'm', '/', 'f']) = none := by decide
  have shown : (smallHost.shape ['h', '/', 'f'] []).isSome := by decide
  have awaits : emptyTree.Awaits ['/', 'o'] :=
    ⟨by decide, by decide, by decide⟩
  have single : mountVolume.Single := mountVolume_single
  have direct : PosixPath.Direct true ['/', 'o'] := ⟨by decide, by decide⟩
  obtain ⟨w, out⟩ := copyOut_copyIn (s := ⟨mountImage, fun _ => 0, [], []⟩) (u := ⟨emptyTree, []⟩)
    (treeHost_keepsTree true) mountVolume_orderly single smallHost_plain hidden copied spares shown
    direct emptyTree_rooted awaits
  exact ⟨t, w, copied, out⟩

end C900
