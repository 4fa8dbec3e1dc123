import C900.Logic.FileTree
import Mathlib.Algebra.Order.BigOperators.Group.Finset

/-!
# Names in a file tree

A directory leads from a name to an identifier. A new entry leads to the new item and leaves the
other names as they are; a table grows when no item is lost and only some names are new. Growths
compose, since a name in a directory that is not in the first table is no name of it.
-/

namespace FileTree

universe u v w

variable {ι : Type u} {ν : Type v} {β : Type w} {table after other : Table ι ν β} {ids : Finset ι}
  {root d x y : ι} {name n : ν} {item : Item ι ν β} {extra : Nat}

theorem Table.isSome_of_isDir (dir : table.isDir x = true) : (table x).isSome := by
  unfold Table.isDir at dir
  cases found : table x with
  | none => simp [found] at dir
  | some item => rfl

/-- A directory has as many directories as there are identifiers, at most. -/
theorem Table.WellFormed.subdirs_le [DecidableEq ι] (wellFormed : table.WellFormed ids root) (d : ι) :
    table.subdirs d ≤ ids.card := by
  by_cases dir : table.isDir d = true
  swap
  · have none : table.entries d = [] := by
      unfold Table.isDir at dir
      unfold Table.entries
      cases found : table d with
      | none => rfl
      | some item =>
        rw [found] at dir
        cases item with
        | dir => simp [Item.isDir] at dir
        | file => rfl
        | special => rfl
    simp [Table.subdirs, none]
  have member : d ∈ ids := wellFormed.inside (Table.isSome_of_isDir dir)
  -- A directory that is named here is named once.
  have once : (((table.entries d).filter fun entry => table.isDir entry.1).map Prod.fst).Nodup := by
    rw [List.nodup_iff_count_le_one]
    intro y
    by_cases below : table.isDir y = true
    · have links := wellFormed.parent below
      have single : ((table.entries d).map Prod.fst).count y ≤ table.linksTo ids y :=
        Finset.single_le_sum (f := fun e => ((table.entries e).map Prod.fst).count y)
          (fun _ _ => Nat.zero_le _) member
      have few : table.linksTo ids y ≤ 1 := by
        rw [links]
        split <;> omega
      exact Nat.le_trans (List.Sublist.count_le y (List.filter_sublist.map _))
        (Nat.le_trans single few)
    · rw [List.count_eq_zero.mpr]
      · exact Nat.zero_le _
      · intro listed
        obtain ⟨entry, inDir, rfl⟩ := List.mem_map.mp listed
        exact below (List.mem_filter.mp inDir).2
  have inside : (((table.entries d).filter fun entry => table.isDir entry.1).map Prod.fst).toFinset ⊆
      ids := by
    intro y listed
    obtain ⟨entry, inDir, rfl⟩ := List.mem_map.mp (List.mem_toFinset.mp listed)
    exact wellFormed.inside (wellFormed.named ⟨entry, (List.mem_filter.mp inDir).1, rfl⟩)
  have count := Finset.card_le_card inside
  rw [List.toFinset_card_of_nodup once, List.length_map, ← List.countP_eq_length_filter] at count
  exact count

/-- The root is in no directory. -/
theorem Table.WellFormed.not_holds_root [DecidableEq ι] (wellFormed : table.WellFormed ids root)
    (dir : table.isDir root = true) : ¬ table.Holds d root := by
  rintro ⟨entry, member, same⟩
  have links := wellFormed.parent dir
  rw [if_pos rfl, Table.linksTo, Finset.sum_eq_zero_iff] at links
  have inside := wellFormed.inside
    (Table.isSome_of_isDir (Table.Holds.isDir ⟨entry, member, same⟩))
  exact List.count_eq_zero.mp (links d inside) (List.mem_map.mpr ⟨entry, member, same⟩)

section Insertion

variable [DecidableEq ι]

/-- A file with another content has no entries, either. -/
theorem Table.entries_update {links : Nat} {old : β} (new : β)
    (found : table x = some (.file links old)) :
    Table.entries (Function.update table x (some (.file links new))) = table.entries := by
  funext y
  by_cases same : y = x
  · simp [Table.entries, same, found, Item.entries]
  · simp [Table.entries, same]

/-- A table with a new item `x` under a name of directory `d`, which has `extra` more links. -/
def Table.Inserts (table : Table ι ν β) (ids : Finset ι) (d x : ι) (name : ν) (item : Item ι ν β)
    (extra : Nat) (after : Table ι ν β) : Prop :=
  ∃ links front back, table d = some (.dir links (front ++ back)) ∧ x ∈ ids ∧ table x = none ∧
    name ∉ (front ++ back).map Prod.snd ∧
    after = table.insert x item d (links + extra) front name back

/-- A new file is a step. -/
theorem Table.Inserts.file {content : β}
    (inserts : table.Inserts ids d x name (.file 1 content) 0 after) : Step ids table after := by
  obtain ⟨links, front, back, parent, member, free, new, rfl⟩ := inserts
  exact .file parent member free new

/-- A new directory is a step, with the link from it to its parent. -/
theorem Table.Inserts.dir (inserts : table.Inserts ids d x name (.dir 2 []) 1 after) :
    Step ids table after := by
  obtain ⟨links, front, back, parent, member, free, new, rfl⟩ := inserts
  exact .dir parent member free new

variable (inserts : table.Inserts ids d x name item extra after) (alone : item.entries = [])
include inserts alone

theorem Table.Inserts.fresh : ∃ links front back,
    table.Fresh ids x item d front name back ∧
      after = table.insert x item d (links + extra) front name back ∧
      table d = some (.dir links (front ++ back)) := by
  obtain ⟨links, front, back, parent, member, free, new, same⟩ := inserts
  exact ⟨links, front, back, ⟨⟨links, parent⟩, member, free, alone, new⟩, same, parent⟩

theorem Table.Inserts.new : after x = some item := by
  obtain ⟨links, front, back, fresh, rfl, -⟩ := inserts.fresh alone
  exact fresh.at_new _

theorem Table.Inserts.free : table x = none := by
  obtain ⟨links, front, back, fresh, -⟩ := inserts.fresh alone
  exact fresh.free

/-- The entries afterwards are the new one and those from before. -/
theorem Table.Inserts.mem_entries {y : ι} {entry : ι × ν} (member : entry ∈ after.entries y) :
    entry = (x, name) ∨ entry ∈ table.entries y := by
  obtain ⟨links, front, back, fresh, rfl, -⟩ := inserts.fresh alone
  rw [fresh.entries] at member
  split at member
  · next parent =>
    rw [parent, fresh.before]
    rcases List.mem_append.mp member with inFront | rest
    · exact Or.inr (List.mem_append_left _ inFront)
    · exact (List.mem_cons.mp rest).imp_right (List.mem_append_right _)
  · exact Or.inr member

end Insertion

section Names

variable [DecidableEq ν]

/-- The identifier that directory `d` has under a name. -/
def Table.child (table : Table ι ν β) (d : ι) (name : ν) : Option ι :=
  ((table.entries d).find? fun entry => entry.2 = name).map Prod.fst

/-- The items that are in use stay in use, the directories stay directories, and the names stay but
for those at `spot`. -/
structure Table.Keeps (table after : Table ι ν β) (spot : ι → ν → Prop) : Prop where
  used : ∀ {y}, (table y).isSome → (after y).isSome
  isDir : ∀ {y}, (table y).isSome → after.isDir y = table.isDir y
  child : ∀ {y name}, (table y).isSome → ¬ spot y name → after.child y name = table.child y name

/-- A table that keeps the files and the other items as they are, too. -/
structure Table.Grows (table after : Table ι ν β) (spot : ι → ν → Prop) : Prop
    extends table.Keeps after spot where
  plain : ∀ {y}, (table y).isSome → table.isDir y = false → after y = table y

theorem Table.child_of (found : table x = some item) :
    table.child x name = (item.entries.find? fun entry => entry.2 = name).map Prod.fst := by
  rw [Table.child, Table.entries_of found]

theorem Table.child_none (free : table x = none) : table.child x name = none := by
  simp [Table.child, Table.entries, free]

theorem Table.holds_of_child (found : table.child d name = some x) : table.Holds d x := by
  obtain ⟨entry, search, here⟩ := Option.map_eq_some_iff.mp found
  exact ⟨entry, List.mem_of_find?_eq_some search, here⟩

/-- An item without entries. -/
theorem Table.child_alone (found : table x = some item) (alone : item.entries = []) :
    table.child x name = none := by
  rw [Table.child_of found, alone]
  rfl

/-- A directory has one name. -/
theorem Table.WellFormed.child_unique [DecidableEq ι] {d' : ι} {name' : ν}
    (wellFormed : table.WellFormed ids root) (dir : table.isDir x = true)
    (here : table.child d name = some x) (there : table.child d' name' = some x) :
    d = d' ∧ name = name' := by
  have links : table.linksTo ids x ≤ 1 := by
    rw [wellFormed.parent dir]
    split <;> omega
  have holder : ∀ {e : ι}, table.Holds e x → e ∈ ids ∧ 1 ≤ ((table.entries e).map Prod.fst).count x := by
    rintro e ⟨entry, member, same⟩
    refine ⟨wellFormed.inside (Table.isSome_of_isDir (Table.Holds.isDir ⟨entry, member, same⟩)), ?_⟩
    exact List.one_le_count_iff.mpr (List.mem_map.mpr ⟨entry, member, same⟩)
  have first := holder (Table.holds_of_child here)
  have second := holder (Table.holds_of_child there)
  have parent : d = d' := by
    by_contra other
    have pair := Finset.sum_le_sum_of_subset (f := fun e => ((table.entries e).map Prod.fst).count x)
      (Finset.insert_subset first.1 (Finset.singleton_subset_iff.mpr second.1))
    rw [Finset.sum_pair other] at pair
    have both := Nat.le_trans pair links
    omega
  subst parent
  refine ⟨rfl, ?_⟩
  obtain ⟨entry, found, same⟩ := Option.map_eq_some_iff.mp here
  obtain ⟨entry', found', same'⟩ := Option.map_eq_some_iff.mp there
  have named := List.find?_some found
  have named' := List.find?_some found'
  have single := Nat.le_trans (Finset.single_le_sum
    (f := fun e => ((table.entries e).map Prod.fst).count x) (fun _ _ => Nat.zero_le _) first.1) links
  rw [List.count, List.countP_map, List.countP_eq_length_filter] at single
  have equal : entry = entry' := by
    have member : entry ∈ (table.entries d).filter ((· == x) ∘ Prod.fst) :=
      List.mem_filter.mpr ⟨List.mem_of_find?_eq_some found, by simpa using same⟩
    have member' : entry' ∈ (table.entries d).filter ((· == x) ∘ Prod.fst) :=
      List.mem_filter.mpr ⟨List.mem_of_find?_eq_some found', by simpa using same'⟩
    generalize (table.entries d).filter _ = named at single member member'
    cases named with
    | nil => cases member
    | cons first rest =>
      obtain rfl : rest = [] := List.length_eq_zero_iff.mp (Nat.le_zero.mp (Nat.le_of_succ_le_succ single))
      exact (List.mem_singleton.mp member).trans (List.mem_singleton.mp member').symm
  exact (of_decide_eq_true named).symm.trans (equal ▸ of_decide_eq_true named')

theorem Table.Grows.refl (table : Table ι ν β) (spot : ι → ν → Prop) : table.Grows table spot :=
  ⟨⟨id, fun _ => rfl, fun _ _ => rfl⟩, fun _ _ => rfl⟩

/-- Two changes in a row: the second may have any spot outside the first table. -/
theorem Table.Keeps.trans {spot spot' : ι → ν → Prop} (first : table.Keeps other spot)
    (second : other.Keeps after spot')
    (inside : ∀ y name, (table y).isSome → spot' y name → spot y name) :
    table.Keeps after spot := by
  refine ⟨fun here => second.used (first.used here), fun here => ?_, fun {y name} here away => ?_⟩
  · rw [second.isDir (first.used here), first.isDir here]
  · rw [second.child (first.used here) fun there => away (inside y name here there),
      first.child here away]

theorem Table.Keeps.mono {spot spot' : ι → ν → Prop} (keeps : table.Keeps after spot)
    (inside : ∀ y name, spot y name → spot' y name) : table.Keeps after spot' :=
  ⟨keeps.used, keeps.isDir, fun here away => keeps.child here fun there => away (inside _ _ there)⟩

theorem Table.Grows.mono {spot spot' : ι → ν → Prop} (grows : table.Grows after spot)
    (inside : ∀ y name, spot y name → spot' y name) : table.Grows after spot' :=
  ⟨grows.toKeeps.mono inside, grows.plain⟩

theorem Table.Grows.trans {spot spot' : ι → ν → Prop} (first : table.Grows other spot)
    (second : other.Grows after spot')
    (inside : ∀ y name, (table y).isSome → spot' y name → spot y name) :
    table.Grows after spot := by
  refine ⟨first.toKeeps.trans second.toKeeps inside, fun here plain => ?_⟩
  rw [second.plain (first.used here) ((first.isDir here).trans plain), first.plain here plain]

/-- A file with another content. -/
theorem Table.keeps_update [DecidableEq ι] {links : Nat} {old new : β} (spot : ι → ν → Prop)
    (found : table x = some (.file links old)) :
    table.Keeps (Function.update table x (some (.file links new))) spot := by
  refine ⟨fun {y} here => ?_, fun {y} here => ?_, fun {y n} here away => ?_⟩
  · by_cases same : y = x <;> simp [same, here]
  · by_cases same : y = x
    · simp [Table.isDir, same, found, Item.isDir]
    · simp [Table.isDir, same]
  · by_cases same : y = x
    · simp [Table.child, Table.entries, same, found, Item.entries]
    · simp [Table.child, Table.entries, same]

section Inserts

variable [DecidableEq ι] (inserts : table.Inserts ids d x name item extra after)
  (alone : item.entries = [])
include inserts alone

/-- The new name was free. -/
theorem Table.Inserts.child_free : table.child d name = none := by
  obtain ⟨links, front, back, fresh, -⟩ := inserts.fresh alone
  rw [Table.child, fresh.before, List.find?_eq_none.mpr]
  · rfl
  · intro entry member same
    exact fresh.name (List.mem_map.mpr ⟨entry, member, of_decide_eq_true same⟩)

/-- The new name leads to the new item. -/
theorem Table.Inserts.child_new : after.child d name = some x := by
  obtain ⟨links, front, back, fresh, rfl, -⟩ := inserts.fresh alone
  rw [Table.child, fresh.entries, if_pos rfl, List.find?_append, List.find?_eq_none.mpr,
    Option.none_or, List.find?_cons_of_pos (by simp)]
  · rfl
  · intro entry member same
    exact fresh.name (List.mem_map.mpr ⟨entry, List.mem_append_left _ member, of_decide_eq_true same⟩)

/-- The other names lead where they led. -/
theorem Table.Inserts.child_other {y : ι} (away : ¬ (y = d ∧ n = name)) :
    after.child y n = table.child y n := by
  obtain ⟨links, front, back, fresh, rfl, -⟩ := inserts.fresh alone
  rw [Table.child, fresh.entries]
  split
  · next parent =>
    have other : ¬ (decide (name = n)) = true := by
      simpa using fun same => away ⟨parent, same.symm⟩
    rw [parent, Table.child, fresh.before, List.find?_append, List.find?_append,
      List.find?_cons_of_neg (by simpa using other)]
  · rfl

/-- An insertion lets the table grow at the new name. -/
theorem Table.Inserts.grows : table.Grows after fun y n => y = d ∧ n = name := by
  obtain ⟨links, front, back, fresh, same, parent⟩ := inserts.fresh alone
  have old : ∀ {y}, (table y).isSome → y ≠ x := by
    rintro y used rfl
    rw [fresh.free] at used
    cases used
  refine ⟨⟨fun {y} used => ?_, fun {y} used => ?_, fun _ away => inserts.child_other alone away⟩,
    fun {y} used plain => ?_⟩
  · by_cases here : y = d
    · rw [same, here, Table.insert_parent]
      rfl
    · rw [same, Table.insert_other (old used) here]
      exact used
  · rw [same, fresh.isDir, if_neg (old used)]
  · rw [same, Table.insert_other (old used)]
    rintro rfl
    rw [Table.isDir_of parent] at plain
    cases plain

end Inserts

end Names

end FileTree
