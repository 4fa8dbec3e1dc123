import Mathlib.Algebra.BigOperators.Group.Finset.Piecewise
import Mathlib.Data.List.Count
import Mathlib.Logic.Function.Basic
import Mathlib.Logic.Relation

/-!
# Trees of files and directories

A table gives files, directories and other items under identifiers, each with a count of its links.
It is well formed when the directories are a tree below the root whose entries name items of the
table, when no directory has two entries of one name, and when the counts are right: a file counts
the entries that name it, a directory counts itself, its entry and each directory in it.
-/

namespace FileTree

universe u v w

/-- A file with its content, a directory with its entries, or another item. -/
inductive Item (ι : Type u) (ν : Type v) (β : Type w) where
  | file (links : Nat) (content : β)
  | dir (links : Nat) (entries : List (ι × ν))
  | special (links : Nat)

/-- The items under the identifiers that are in use. -/
abbrev Table (ι : Type u) (ν : Type v) (β : Type w) := ι → Option (Item ι ν β)

variable {ι : Type u} {ν : Type v} {β : Type w}

/-- The entries of an item. -/
def Item.entries : Item ι ν β → List (ι × ν)
  | .dir _ entries => entries
  | _ => []

/-- The item is a directory. -/
def Item.isDir : Item ι ν β → Bool
  | .dir _ _ => true
  | _ => false

/-- The entries under an identifier. -/
def Table.entries (table : Table ι ν β) (d : ι) : List (ι × ν) := ((table d).map Item.entries).getD []

/-- The identifier stands for a directory. -/
def Table.isDir (table : Table ι ν β) (x : ι) : Bool := ((table x).map Item.isDir).getD false

/-- Directory `d` has an entry for `x`. -/
def Table.Holds (table : Table ι ν β) (d x : ι) : Prop := ∃ entry ∈ table.entries d, entry.1 = x

/-- The directories in directory `d`. -/
def Table.subdirs (table : Table ι ν β) (d : ι) : Nat :=
  (table.entries d).countP fun entry => table.isDir entry.1

/-- The entries for `x` in the directories `ids`. -/
def Table.linksTo [DecidableEq ι] (table : Table ι ν β) (ids : Finset ι) (x : ι) : Nat :=
  ∑ d ∈ ids, ((table.entries d).map Prod.fst).count x

/-- A tree of directories below `root`, with the right counts of links. -/
structure Table.WellFormed [DecidableEq ι] (table : Table ι ν β) (ids : Finset ι) (root : ι) :
    Prop where
  inside : ∀ {x}, (table x).isSome → x ∈ ids
  names : ∀ d, ((table.entries d).map Prod.snd).Nodup
  named : ∀ {d x}, table.Holds d x → (table x).isSome
  files : ∀ {x links content}, table x = some (.file links content) → links = table.linksTo ids x
  dirs : ∀ {x links entries}, table x = some (.dir links entries) → links = 2 + table.subdirs x
  parent : ∀ {x}, table.isDir x = true → table.linksTo ids x = if x = root then 0 else 1
  below : ∀ {x}, table.isDir x = true → Relation.ReflTransGen table.Holds root x

section Table

variable {table : Table ι ν β} {ids : Finset ι} {root d x y : ι} {name : ν}
  {links : Nat} {front back : List (ι × ν)} {item : Item ι ν β}

theorem Table.entries_of (found : table x = some item) : table.entries x = item.entries := by
  simp [Table.entries, found]

theorem Table.isDir_of (found : table x = some item) : table.isDir x = item.isDir := by
  simp [Table.isDir, found]

theorem Table.Holds.isDir (holds : table.Holds d x) : table.isDir d = true := by
  obtain ⟨entry, member, -⟩ := holds
  cases found : table d with
  | none => simp [Table.entries, found] at member
  | some item =>
    rw [Table.entries_of found] at member
    rw [Table.isDir_of found]
    cases item with
    | dir => rfl
    | file => cases member
    | special => cases member

/-- The tree of an empty root. -/
def Table.onlyRoot [DecidableEq ι] (root : ι) : Table ι ν β := fun x =>
  if x = root then some (.dir 2 []) else none

theorem Table.onlyRoot_entries [DecidableEq ι] (root d : ι) :
    (Table.onlyRoot root : Table ι ν β).entries d = [] := by
  by_cases here : d = root <;> simp [Table.entries, Table.onlyRoot, here, Item.entries]

/-- An empty root is well formed. -/
theorem Table.onlyRoot_wellFormed [DecidableEq ι] (member : root ∈ ids) :
    (Table.onlyRoot root : Table ι ν β).WellFormed ids root := by
  have entries : ∀ d, (Table.onlyRoot root : Table ι ν β).entries d = [] :=
    Table.onlyRoot_entries root
  have none : ∀ x, (Table.onlyRoot root : Table ι ν β).linksTo ids x = 0 := by
    simp [Table.linksTo, entries]
  have dir : ∀ {x}, (Table.onlyRoot root : Table ι ν β).isDir x = true → x = root := by
    intro x dir
    by_contra other
    simp [Table.isDir, Table.onlyRoot, other] at dir
  refine ⟨fun {x} used => ?_, fun d => ?_, fun {d x} holds => ?_, fun {x links content} found => ?_,
    fun {x links es} found => ?_, fun {x} here => ?_, fun {x} here => dir here ▸ .refl⟩
  · by_cases here : x = root
    · exact here ▸ member
    · simp [Table.onlyRoot, here] at used
  · simp [entries]
  · obtain ⟨entry, inDir, -⟩ := holds
    rw [entries] at inDir
    cases inDir
  · by_cases here : x = root <;> simp [Table.onlyRoot, here] at found
  · by_cases here : x = root
    · simp only [Table.onlyRoot, here, if_true, Option.some.injEq, Item.dir.injEq] at found
      simp [Table.subdirs, entries, ← found.1]
    · simp [Table.onlyRoot, here] at found
  · rw [none, if_pos (dir here)]

/-! ## A new item -/

/-- What is known of the directory and of the new item, which has no entries. -/
structure Table.Fresh (table : Table ι ν β) (ids : Finset ι) (x : ι) (item : Item ι ν β) (d : ι)
    (front : List (ι × ν)) (name : ν) (back : List (ι × ν)) : Prop where
  parent : ∃ links, table d = some (.dir links (front ++ back))
  member : x ∈ ids
  free : table x = none
  alone : item.entries = []
  name : name ∉ (front ++ back).map Prod.snd

theorem Table.Fresh.ne (fresh : table.Fresh ids x item d front name back) : x ≠ d := by
  obtain ⟨links, parent⟩ := fresh.parent
  rintro rfl
  rw [fresh.free] at parent
  cases parent

theorem Table.Fresh.before (fresh : table.Fresh ids x item d front name back) :
    table.entries d = front ++ back := by
  obtain ⟨links, parent⟩ := fresh.parent
  rw [Table.entries_of parent]
  rfl

variable [DecidableEq ι]

/-- A new item `x` in directory `d`. -/
def Table.insert (table : Table ι ν β) (x : ι) (item : Item ι ν β) (d : ι) (links : Nat)
    (front : List (ι × ν)) (name : ν) (back : List (ι × ν)) : Table ι ν β :=
  Function.update (Function.update table x (some item)) d
    (some (.dir links (front ++ (x, name) :: back)))

theorem Table.insert_parent :
    table.insert x item d links front name back d =
      some (.dir links (front ++ (x, name) :: back)) :=
  Function.update_self _ _ _

theorem Table.insert_other (notNew : y ≠ x) (notParent : y ≠ d) :
    table.insert x item d links front name back y = table y := by
  rw [Table.insert, Function.update_of_ne notParent, Function.update_of_ne notNew]

/-- The directory, the new item and all the others make up the table. -/
theorem Table.eq_insert {after : Table ι ν β}
    (parent : after d = some (.dir links (front ++ (x, name) :: back))) (new : after x = some item)
    (others : ∀ y, y ≠ x → y ≠ d → after y = table y) :
    after = table.insert x item d links front name back := by
  funext y
  by_cases here : y = d
  · rw [here, parent, Table.insert_parent]
  · rw [Table.insert, Function.update_of_ne here]
    by_cases there : y = x
    · rw [there, Function.update_self, new]
    · rw [Function.update_of_ne there, others y there here]

section Insert

variable (fresh : table.Fresh ids x item d front name back)
include fresh

theorem Table.Fresh.at_new (links : Nat) :
    table.insert x item d links front name back x = some item := by
  rw [Table.insert, Function.update_of_ne fresh.ne, Function.update_self]

/-- Only the directory has another entry. -/
theorem Table.Fresh.entries (links : Nat) (y : ι) :
    (table.insert x item d links front name back).entries y =
      if y = d then front ++ (x, name) :: back else table.entries y := by
  by_cases parent : y = d
  · rw [if_pos parent, parent, Table.entries_of Table.insert_parent]
    rfl
  · rw [if_neg parent]
    by_cases new : y = x
    · have none : table.entries x = [] := by simp [Table.entries, fresh.free]
      rw [new, Table.entries_of (fresh.at_new links), fresh.alone, none]
    · simp only [Table.entries, Table.insert_other new parent]

/-- Only the new item may be another directory. -/
theorem Table.Fresh.isDir (links : Nat) (y : ι) :
    (table.insert x item d links front name back).isDir y =
      if y = x then item.isDir else table.isDir y := by
  by_cases new : y = x
  · rw [if_pos new, new, Table.isDir_of (fresh.at_new links)]
  · rw [if_neg new]
    by_cases parent : y = d
    · obtain ⟨before, found⟩ := fresh.parent
      rw [parent, Table.isDir_of Table.insert_parent, Table.isDir_of found]
      rfl
    · simp only [Table.isDir, Table.insert_other new parent]

/-- The new entry is one more link to the new item. -/
theorem Table.Fresh.linksTo (member : d ∈ ids) (links : Nat) (y : ι) :
    (table.insert x item d links front name back).linksTo ids y =
      table.linksTo ids y + if y = x then 1 else 0 := by
  have each : ∀ e ∈ ids, (((table.insert x item d links front name back).entries e).map
      Prod.fst).count y = ((table.entries e).map Prod.fst).count y +
        if e = d then (if y = x then 1 else 0) else 0 := by
    intro e _
    rw [fresh.entries]
    by_cases parent : e = d
    · rw [if_pos parent, if_pos parent, parent, fresh.before, List.map_append, List.map_append,
        List.map_cons, List.count_append, List.count_append, List.count_cons]
      by_cases new : y = x
      · rw [if_pos new, if_pos (beq_iff_eq.mpr new.symm), Nat.add_assoc]
      · rw [if_neg new, if_neg fun same => new (beq_iff_eq.mp same).symm, Nat.add_zero, Nat.add_zero]
    · rw [if_neg parent, if_neg parent, Nat.add_zero]
  rw [Table.linksTo, Finset.sum_congr rfl each, Finset.sum_add_distrib, Finset.sum_ite_eq',
    if_pos member]
  rfl

theorem Table.Fresh.holds (links : Nat) {e y : ι} :
    (table.insert x item d links front name back).Holds e y ↔
      table.Holds e y ∨ (e = d ∧ y = x) := by
  unfold Table.Holds
  rw [fresh.entries]
  by_cases parent : e = d
  · rw [if_pos parent, parent, fresh.before]
    simp only [List.mem_append, List.mem_cons, true_and]
    constructor
    · rintro ⟨entry, before | rfl | after, here⟩
      · exact Or.inl ⟨entry, Or.inl before, here⟩
      · exact Or.inr here.symm
      · exact Or.inl ⟨entry, Or.inr after, here⟩
    · rintro (⟨entry, before | after, here⟩ | new)
      · exact ⟨entry, Or.inl before, here⟩
      · exact ⟨entry, Or.inr (Or.inr after), here⟩
      · exact ⟨(x, name), Or.inr (Or.inl rfl), new.symm⟩
  · rw [if_neg parent]
    exact (or_iff_left fun both => parent both.1).symm

end Insert

/-- No entry names an identifier that is free. -/
theorem Table.WellFormed.linksTo_free (wellFormed : table.WellFormed ids root)
    (free : table x = none) : table.linksTo ids x = 0 := by
  refine Finset.sum_eq_zero fun e _ => List.count_eq_zero.mpr fun member => ?_
  obtain ⟨entry, inDir, here⟩ := List.mem_map.mp member
  have used := wellFormed.named ⟨entry, inDir, here⟩
  rw [free] at used
  cases used

/-- The directories in a directory do not change, but for the new one. -/
theorem Table.Fresh.subdirs (fresh : table.Fresh ids x item d front name back)
    (wellFormed : table.WellFormed ids root) (links : Nat) (y : ι) :
    (table.insert x item d links front name back).subdirs y =
      table.subdirs y + if y = d ∧ item.isDir = true then 1 else 0 := by
  have old : ∀ entries : List (ι × ν), (∀ entry ∈ entries, entry ∈ table.entries y) →
      entries.countP (fun entry =>
        (table.insert x item d links front name back).isDir entry.1) =
          entries.countP fun entry => table.isDir entry.1 := by
    intro entries sub
    refine List.countP_congr fun entry member => ?_
    have used := wellFormed.named ⟨entry, sub entry member, rfl⟩
    rw [fresh.isDir, if_neg]
    rintro here
    rw [here, fresh.free] at used
    cases used
  rw [Table.subdirs, fresh.entries]
  by_cases parent : y = d
  · have before : table.entries y = front ++ back := parent ▸ fresh.before
    have new : (table.insert x item d links front name back).isDir x = item.isDir := by
      rw [fresh.isDir, if_pos rfl]
    rw [if_pos parent, Table.subdirs, before, List.countP_append, List.countP_append,
      List.countP_cons, new, old front fun _ member => before ▸ List.mem_append_left _ member,
      old back fun _ member => before ▸ List.mem_append_right _ member, Nat.add_assoc]
    simp only [parent, true_and]
  · rw [if_neg parent, if_neg fun both => parent both.1, Nat.add_zero, old _ fun _ => id]
    rfl

/-- The table with the new item is well formed, with the right count for it and for the directory. -/
theorem Table.Fresh.wellFormed (fresh : table.Fresh ids x item d front name back)
    (wellFormed : table.WellFormed ids root)
    (own : item.isDir = false ∧ (∃ content, item = .file 1 content) ∨ item = .dir 2 [])
    (count : links = 2 + table.subdirs d + if item.isDir = true then 1 else 0) :
    (table.insert x item d links front name back).WellFormed ids root := by
  obtain ⟨before, found⟩ := fresh.parent
  have dir : table.isDir d = true := by
    rw [Table.isDir_of found]
    rfl
  have member : d ∈ ids := wellFormed.inside (by rw [found]; rfl)
  have notRoot : x ≠ root := by
    rintro rfl
    have here := Relation.ReflTransGen.cases_head (wellFormed.below dir)
    rcases here with same | ⟨y, holds, -⟩
    · exact fresh.ne same
    · have used := holds.isDir
      rw [Table.isDir, fresh.free] at used
      cases used
  have grows : ∀ {y}, table.isDir y = true → Relation.ReflTransGen
      (table.insert x item d links front name back).Holds root y := fun old =>
    Relation.ReflTransGen.mono (fun _ _ holds => (fresh.holds links).mpr (Or.inl holds)) _ _
      (wellFormed.below old)
  refine ⟨fun {y} used => ?_, fun y => ?_, fun {e y} holds => ?_, fun {y} n content here => ?_,
    fun {y} n entries here => ?_, fun {y} here => ?_, fun {y} here => ?_⟩
  · by_cases new : y = x
    · exact new ▸ fresh.member
    by_cases parent : y = d
    · exact parent ▸ member
    rw [Table.insert_other new parent] at used
    exact wellFormed.inside used
  · rw [fresh.entries]
    split
    · have names := wellFormed.names d
      rw [fresh.before, List.map_append] at names
      rw [List.map_append, List.map_cons]
      refine List.nodup_middle.mpr (List.nodup_cons.mpr ⟨?_, names⟩)
      rw [← List.map_append]
      exact fresh.name
    · exact wellFormed.names y
  · rcases (fresh.holds links).mp holds with old | ⟨-, rfl⟩
    · by_cases parent : y = d
      · rw [parent, Table.insert_parent]
        rfl
      by_cases new : y = x
      · rw [new, fresh.at_new]
        rfl
      rw [Table.insert_other new parent]
      exact wellFormed.named old
    · rw [fresh.at_new]
      rfl
  · rw [fresh.linksTo member]
    by_cases new : y = x
    · rw [new, fresh.at_new] at here
      obtain rfl := Option.some.inj here
      rw [new, wellFormed.linksTo_free fresh.free, if_pos rfl]
      rcases own with ⟨-, other, same⟩ | same
      · cases same
        rfl
      · cases same
    · rw [if_neg new, Nat.add_zero]
      by_cases parent : y = d
      · rw [parent, Table.insert_parent] at here
        cases here
      · rw [Table.insert_other new parent] at here
        exact wellFormed.files here
  · rw [fresh.subdirs wellFormed]
    by_cases parent : y = d
    · rw [parent, Table.insert_parent] at here
      obtain ⟨rfl, -⟩ := Item.dir.inj (Option.some.inj here)
      simp only [parent, true_and]
      rw [count, Nat.add_assoc]
    · rw [if_neg fun both => parent both.1, Nat.add_zero]
      by_cases new : y = x
      · rw [new, fresh.at_new] at here
        obtain rfl := Option.some.inj here
        have none : table.subdirs x = 0 := by simp [Table.subdirs, Table.entries, fresh.free]
        rw [new, none]
        rcases own with ⟨flag, -⟩ | same
        · cases flag
        · cases same
          rfl
      · rw [Table.insert_other new parent] at here
        exact wellFormed.dirs here
  · rw [fresh.linksTo member]
    by_cases new : y = x
    · rw [new, wellFormed.linksTo_free fresh.free, if_pos rfl, if_neg notRoot]
    · rw [fresh.isDir, if_neg new] at here
      rw [if_neg new, Nat.add_zero]
      exact wellFormed.parent here
  · by_cases new : y = x
    · rw [new]
      exact (grows dir).tail ((fresh.holds links).mpr (Or.inr ⟨rfl, rfl⟩))
    · rw [fresh.isDir, if_neg new] at here
      exact grows here

/-! ## Steps -/

/-- A new file, a new directory, or a file with another content. -/
inductive Step (ids : Finset ι) (table : Table ι ν β) : Table ι ν β → Prop
  | file {d x : ι} {name : ν} {links : Nat} {front back : List (ι × ν)} {content : β}
    (parent : table d = some (.dir links (front ++ back))) (member : x ∈ ids)
    (free : table x = none) (fresh : name ∉ (front ++ back).map Prod.snd) :
    Step ids table (table.insert x (.file 1 content) d links front name back)
  | dir {d x : ι} {name : ν} {links : Nat} {front back : List (ι × ν)}
    (parent : table d = some (.dir links (front ++ back))) (member : x ∈ ids)
    (free : table x = none) (fresh : name ∉ (front ++ back).map Prod.snd) :
    Step ids table (table.insert x (.dir 2 []) d (links + 1) front name back)
  | write {x : ι} {links : Nat} {old new : β} (found : table x = some (.file links old)) :
    Step ids table (Function.update table x (some (.file links new)))

/-- Another content of a file. -/
theorem Table.WellFormed.write (wellFormed : table.WellFormed ids root) {old new : β}
    (found : table x = some (.file links old)) :
    (Table.WellFormed (Function.update table x (some (.file links new))) ids root) := by
  have entries : ∀ y, Table.entries (Function.update table x (some (.file links new))) y =
      table.entries y := by
    intro y
    by_cases here : y = x
    · simp [Table.entries, here, found, Item.entries]
    · simp [Table.entries, here]
  have isDir : ∀ y, Table.isDir (Function.update table x (some (.file links new))) y =
      table.isDir y := by
    intro y
    by_cases here : y = x
    · simp [Table.isDir, here, found, Item.isDir]
    · simp [Table.isDir, here]
  have holds : Table.Holds (Function.update table x (some (.file links new))) = table.Holds := by
    funext d y
    simp only [Table.Holds, entries]
  have used : ∀ y, (Function.update table x (some (Item.file links new)) y).isSome =
      (table y).isSome := by
    intro y
    by_cases here : y = x
    · simp [here, found]
    · simp [here]
  have count : ∀ y, Table.linksTo (Function.update table x (some (.file links new))) ids y =
      table.linksTo ids y := fun y => by simp only [Table.linksTo, entries]
  refine ⟨fun {y} some => wellFormed.inside (used y ▸ some), fun y => (entries y).symm ▸ wellFormed.names y,
    fun {d y} held => ?_, fun {y} n content here => ?_, fun {y} n es here => ?_, fun {y} dir => ?_,
    fun {y} dir => ?_⟩
  · rw [used]
    exact wellFormed.named (holds ▸ held)
  · rw [count]
    by_cases same : y = x
    · rw [same, Function.update_self] at here
      obtain ⟨rfl, -⟩ := Item.file.inj (Option.some.inj here)
      exact same ▸ wellFormed.files found
    · rw [Function.update_of_ne same] at here
      exact wellFormed.files here
  · have different : y ≠ x := by
      rintro rfl
      rw [Function.update_self] at here
      cases here
    rw [Function.update_of_ne different] at here
    simp only [Table.subdirs, entries, isDir]
    exact wellFormed.dirs here
  · rw [count]
    exact wellFormed.parent (isDir y ▸ dir)
  · rw [holds]
    exact wellFormed.below (isDir y ▸ dir)

/-- Every step keeps the table well formed. -/
theorem Step.wellFormed {after : Table ι ν β} (step : Step ids table after)
    (wellFormed : table.WellFormed ids root) : after.WellFormed ids root := by
  cases step with
  | file parent member free fresh =>
    exact Table.Fresh.wellFormed ⟨⟨_, parent⟩, member, free, rfl, fresh⟩ wellFormed
      (Or.inl ⟨rfl, _, rfl⟩) (wellFormed.dirs parent)
  | dir parent member free fresh =>
    exact Table.Fresh.wellFormed ⟨⟨_, parent⟩, member, free, rfl, fresh⟩ wellFormed (Or.inr rfl)
      (congrArg (· + 1) (wellFormed.dirs parent))
  | write found => exact wellFormed.write found

end Table

end FileTree
