import C900.Fs.Create

/-!
# Directories as lists of entries

A directory is a sequence of slots of 16 bytes, each with an inode number and a name. The scan of
`add_dir_entry` finds the first free slot, and an entry that is encoded into a slot is read back
from there, whatever the slots before and behind it hold.
-/

namespace C900

/-- Slot `k` of a directory. -/
def direntAt (body : List (BitVec 8)) (k : Nat) : List (BitVec 8) :=
  (body.drop (direntSize * k)).take direntSize

/-- The inode number of a slot. -/
def direntIno (entry : List (BitVec 8)) : Nat :=
  (entry.getD 0 0).toNat + 256 * (entry.getD 1 0).toNat

/-- The name of a slot. -/
def direntName (entry : List (BitVec 8)) : PosixPath :=
  ((entry.drop 2).takeWhile (· ≠ 0)).map fun b => Char.ofNat b.toNat

/-- The entries of a directory. -/
def dirEntries (body : List (BitVec 8)) : List (Nat × PosixPath) :=
  (List.range (body.length / direntSize)).filterMap fun k => readDirent (direntAt body k)

/-- Slot `k` is free. -/
def freeAt (body : List (BitVec 8)) (k : Nat) : Bool := decide (direntIno (direntAt body k) = 0)

/-- Where `add_dir_entry` puts an entry: at the first free slot, or at the end. -/
def insertOffset (body : List (BitVec 8)) : Option Nat :=
  ((List.range (body.length / direntSize)).find? (freeAt body)).map (direntSize * ·)

section Slots

variable {body front back entry : List (BitVec 8)} {name : PosixPath} {k n ino : Nat}

theorem readDirent_eq (entry : List (BitVec 8)) :
    readDirent entry = if direntIno entry = 0 ∨ direntName entry = ['.'] ∨
      direntName entry = PosixPath.dotDot then none else some (direntIno entry, direntName entry) :=
  rfl

theorem CoherentFs.readDir_eq {fs : CoherentFs} {image : Image} {inode : Inode}
    (dir : inode.isDir = true) :
    fs.readDir image inode = dirEntries (fs.readFile image inode) := by
  unfold CoherentFs.readDir
  rw [if_pos dir]
  rfl

/-- A free slot is no entry. -/
theorem readDirent_free (free : direntIno entry = 0) : readDirent entry = none := by
  rw [readDirent_eq, if_pos (Or.inl free)]

/-- The slots of the front stay in front. -/
theorem direntAt_front (small : k < n) (whole : front.length = direntSize * n) :
    direntAt (front ++ back) k = direntAt front k := by
  have inside : direntSize * k + direntSize ≤ front.length := by
    rw [whole, ← Nat.mul_succ]
    exact Nat.mul_le_mul_left _ small
  unfold direntAt
  rw [List.drop_append_of_le_length (by omega),
    List.take_append_of_le_length (by rw [List.length_drop]; omega)]

/-- The slots of the back follow. -/
theorem direntAt_back (whole : front.length = direntSize * n) :
    direntAt (front ++ back) (n + k) = direntAt back k := by
  unfold direntAt
  rw [Nat.mul_add, ← List.drop_drop, List.drop_left' whole]

/-- The entries of the two parts of a directory. -/
theorem dirEntries_append (whole : front.length = direntSize * n) :
    dirEntries (front ++ back) = dirEntries front ++ dirEntries back := by
  have some : 0 < direntSize := by decide
  have count : (front ++ back).length / direntSize = n + back.length / direntSize := by
    rw [List.length_append, whole, Nat.add_comm, Nat.add_mul_div_left _ _ some, Nat.add_comm]
  unfold dirEntries
  rw [count, List.range_add, List.filterMap_append, whole, Nat.mul_div_cancel_left n some,
    List.filterMap_map]
  refine congrArg₂ (· ++ ·) ?_ ?_
  · refine List.filterMap_congr fun k member => ?_
    rw [direntAt_front (List.mem_range.mp member) whole]
  · refine List.filterMap_congr fun k _ => ?_
    rw [Function.comp_apply, direntAt_back whole]

/-- A single slot. -/
theorem dirEntries_single (whole : entry.length = direntSize) :
    dirEntries entry = (readDirent entry).toList := by
  have single : direntAt entry 0 = entry := by
    unfold direntAt
    rw [Nat.mul_zero, List.drop_zero, List.take_of_length_le (Nat.le_of_eq whole)]
  unfold dirEntries
  rw [whole, Nat.div_self (by decide), List.range_one, List.filterMap_cons, List.filterMap_nil,
    single]
  cases readDirent entry <;> rfl

/-- The entries around a slot. -/
theorem dirEntries_slot (front' : front.length = direntSize * n)
    (whole : entry.length = direntSize) :
    dirEntries (front ++ entry ++ back) =
      dirEntries front ++ ((readDirent entry).toList ++ dirEntries back) := by
  rw [List.append_assoc, dirEntries_append front',
    dirEntries_append (n := 1) (by rw [whole, Nat.mul_one]), dirEntries_single whole]

end Slots

/-! ## The scan -/

section Scan

variable {body : List (BitVec 8)} {name : PosixPath}

/-- The loop of the scan over some of the slots. -/
theorem scanDirent_foldlM (body : List (BitVec 8)) (name : PosixPath) (slots : List Nat)
    (reuse : Option Nat) :
    slots.foldlM (scanDirent body name) reuse =
      if ∃ k ∈ slots, direntIno (direntAt body k) ≠ 0 ∧ direntName (direntAt body k) = name then
        .error (.entryExists name)
      else .ok (reuse.or ((slots.find? (freeAt body)).map (direntSize * ·))) := by
  induction slots generalizing reuse with
  | nil =>
    rw [List.foldlM_nil, if_neg (by rintro ⟨k, member, -⟩; cases member), List.find?_nil,
      Option.map_none, Option.or_none]
    rfl
  | cons k slots inductionHypothesis =>
    have step : scanDirent body name reuse k =
        if direntIno (direntAt body k) = 0 then .ok (some (reuse.getD (direntSize * k)))
        else if direntName (direntAt body k) = name then .error (.entryExists name)
        else .ok reuse := rfl
    rw [List.foldlM_cons, step]
    by_cases free : direntIno (direntAt body k) = 0
    · have later : (∃ j ∈ k :: slots, direntIno (direntAt body j) ≠ 0 ∧
          direntName (direntAt body j) = name) ↔
          ∃ j ∈ slots, direntIno (direntAt body j) ≠ 0 ∧ direntName (direntAt body j) = name := by
        rw [List.exists_mem_cons_iff]
        exact or_iff_right fun both => both.1 free
      rw [if_pos free, List.find?_cons_of_pos (p := freeAt body) (decide_eq_true free)]
      refine (inductionHypothesis _).trans ?_
      rw [if_congr later rfl rfl]
      cases reuse <;> rfl
    · rw [if_neg free, List.find?_cons_of_neg (p := freeAt body) fun eq =>
        free (of_decide_eq_true eq)]
      by_cases clash : direntName (direntAt body k) = name
      · rw [if_pos clash, if_pos ⟨k, List.mem_cons_self, free, clash⟩]
        rfl
      · have later : (∃ j ∈ k :: slots, direntIno (direntAt body j) ≠ 0 ∧
            direntName (direntAt body j) = name) ↔
            ∃ j ∈ slots, direntIno (direntAt body j) ≠ 0 ∧ direntName (direntAt body j) = name := by
          rw [List.exists_mem_cons_iff]
          exact or_iff_right fun both => clash both.2
        rw [if_neg clash, if_congr later rfl rfl]
        exact inductionHypothesis reuse

/-- An entry with the name ends the scan. -/
theorem scanDir_clash {ino : Nat} (present : (ino, name) ∈ dirEntries body) :
    scanDir body name = .error (.entryExists name) := by
  obtain ⟨k, member, read⟩ := List.mem_filterMap.mp present
  rw [readDirent_eq] at read
  split at read
  · cases read
  · next used =>
    obtain ⟨rfl, rfl⟩ := Prod.mk.inj (Option.some.inj read)
    unfold scanDir
    rw [scanDirent_foldlM, if_pos ⟨k, member, fun free => used (Or.inl free), rfl⟩]

/-- A scan that returns has seen every name and has the first free slot. -/
theorem scanDir_ok {reuse : Option Nat} (scanned : scanDir body name = .ok reuse) :
    reuse = insertOffset body ∧ ∀ entry ∈ dirEntries body, entry.2 ≠ name := by
  constructor
  · unfold scanDir at scanned
    rw [scanDirent_foldlM] at scanned
    split at scanned
    · cases scanned
    · exact (Except.ok.inj scanned).symm.trans Option.none_or
  · rintro ⟨ino, _⟩ member rfl
    rw [scanDir_clash member] at scanned
    cases scanned

/-- The scan raises nothing else. -/
theorem scanDir_error {e : FsError} (scanned : scanDir body name = .error e) :
    e = .entryExists name := by
  unfold scanDir at scanned
  rw [scanDirent_foldlM] at scanned
  split at scanned
  · exact (Except.error.inj scanned).symm
  · cases scanned

/-- The slot that is found is free, and lies in the directory. -/
theorem insertOffset_some {off : Nat} (found : insertOffset body = some off) :
    ∃ k < body.length / direntSize, off = direntSize * k ∧ direntIno (direntAt body k) = 0 := by
  obtain ⟨k, first, rfl⟩ := Option.map_eq_some_iff.mp found
  exact ⟨k, List.mem_range.mp (List.mem_of_find?_eq_some first), rfl,
    of_decide_eq_true (List.find?_some (p := freeAt body) first)⟩

end Scan

/-! ## An entry -/

section Encoding

variable {name : PosixPath} {ino : Nat} {entry : List (BitVec 8)}

theorem validateName_ok (valid : validateName name = .ok ()) :
    name ≠ [] ∧ name ≠ ['.'] ∧ name ≠ PosixPath.dotDot ∧ '/' ∉ name ∧ Char.ofNat 0 ∉ name ∧
      name.length ≤ maxName := by
  unfold validateName at valid
  split at valid
  · cases valid
  · next proper =>
    split at valid
    · cases valid
    · next short =>
      rw [not_or, not_or, not_or, not_or] at proper
      exact ⟨proper.1, proper.2.1, proper.2.2.1, proper.2.2.2.1, proper.2.2.2.2,
        Nat.not_lt.mp short⟩

theorem validateName_error {e : FsError} (invalid : validateName name = .error e) :
    e = .invalidName name ∨ e = .nameTooLong name := by
  unfold validateName at invalid
  split at invalid
  · exact Or.inl (Except.error.inj invalid).symm
  split at invalid
  · exact Or.inr (Except.error.inj invalid).symm
  · cases invalid

theorem encodeDirent_ok (encoded : encodeDirent ino name = .ok entry) :
    ino ≤ 65535 ∧ (∀ c ∈ name, c.toNat ≤ 255) ∧
      entry = BitVec.ofNat 8 ino :: BitVec.ofNat 8 (ino / 256) ::
        (name.map (fun c => BitVec.ofNat 8 c.toNat) ++ List.replicate (maxName - name.length) 0) := by
  unfold encodeDirent at encoded
  split at encoded
  · cases encoded
  · next word =>
    split at encoded
    · cases encoded
    · next latin =>
      refine ⟨Nat.not_lt.mp word, fun c member => ?_, (Except.ok.inj encoded).symm⟩
      by_contra wide
      exact latin (List.any_eq_true.mpr ⟨c, member, decide_eq_true (Nat.not_le.mp wide)⟩)

/-- The encoding fails for a number of more than 16 bits and for a character beyond Latin-1. -/
theorem encodeDirent_error {e : FsError} (failed : encodeDirent ino name = .error e) :
    (65535 < ino ∧ e = .packOutside) ∨ ((∃ c ∈ name, 255 < c.toNat) ∧ e = .encodeOutside) := by
  unfold encodeDirent at failed
  split at failed
  · next wide => exact Or.inl ⟨wide, (Except.error.inj failed).symm⟩
  split at failed
  · next foreign =>
    obtain ⟨c, member, above⟩ := List.any_eq_true.mp foreign
    exact Or.inr ⟨⟨c, member, of_decide_eq_true above⟩, (Except.error.inj failed).symm⟩
  · cases failed

theorem encodeDirent_length (encoded : encodeDirent ino name = .ok entry)
    (short : name.length ≤ maxName) : entry.length = direntSize := by
  obtain ⟨-, -, rfl⟩ := encodeDirent_ok encoded
  rw [List.length_cons, List.length_cons, List.length_append, List.length_map,
    List.length_replicate]
  unfold maxName at short ⊢
  unfold direntSize
  omega

/-- A character of one byte is the byte. -/
theorem latin_byte {c : Char} (latin : c.toNat ≤ 255) :
    Char.ofNat (BitVec.ofNat 8 c.toNat).toNat = c := by
  rw [BitVec.toNat_ofNat, Nat.mod_eq_of_lt (by omega), Char.ofNat_toNat]

/-- The encoded name ends at the padding. -/
theorem takeWhile_name (latin : ∀ c ∈ name, c.toNat ≤ 255) (proper : Char.ofNat 0 ∉ name)
    (padding : Nat) :
    (name.map (fun c : Char => BitVec.ofNat 8 c.toNat) ++ List.replicate padding 0).takeWhile (· ≠ 0) =
      name.map fun c : Char => BitVec.ofNat 8 c.toNat := by
  rw [List.takeWhile_append_of_pos]
  · have none : (List.replicate padding (0 : BitVec 8)).takeWhile (· ≠ 0) = [] := by
      cases padding with
      | zero => rfl
      | succ padding => rw [List.replicate_succ, List.takeWhile_cons_of_neg (by decide)]
    rw [none, List.append_nil]
  · intro b member
    obtain ⟨c, inName, rfl⟩ := List.mem_map.mp member
    refine decide_eq_true fun zero => proper ?_
    have same := latin_byte (latin c inName)
    rw [zero] at same
    exact same ▸ inName

theorem direntIno_encoded (encoded : encodeDirent ino name = .ok entry) : direntIno entry = ino := by
  obtain ⟨word, -, rfl⟩ := encodeDirent_ok encoded
  unfold direntIno
  rw [List.getD_cons_zero, List.getD_cons_succ, List.getD_cons_zero, BitVec.toNat_ofNat,
    BitVec.toNat_ofNat]
  omega

theorem direntName_encoded (proper : Char.ofNat 0 ∉ name) (encoded : encodeDirent ino name = .ok entry) :
    direntName entry = name := by
  obtain ⟨-, latin, rfl⟩ := encodeDirent_ok encoded
  unfold direntName
  rw [List.drop_succ_cons, List.drop_succ_cons, List.drop_zero, takeWhile_name latin proper,
    List.map_map]
  refine (List.map_congr_left fun c member => ?_).trans (List.map_id name)
  exact latin_byte (latin c member)

/-- An entry is read back as it was encoded. -/
theorem readDirent_encoded (valid : validateName name = .ok ()) (used : ino ≠ 0)
    (encoded : encodeDirent ino name = .ok entry) : readDirent entry = some (ino, name) := by
  obtain ⟨-, notDot, notDotDot, -, proper, -⟩ := validateName_ok valid
  rw [readDirent_eq, direntIno_encoded encoded, direntName_encoded proper encoded, if_neg]
  rintro (zero | dot | dotDot)
  · exact used zero
  · exact notDot dot
  · exact notDotDot dotDot

/-- The entries of a directory for itself and for its parent are left out. -/
theorem readDirent_dots (encoded : encodeDirent ino name = .ok entry)
    (dots : name = ['.'] ∨ name = PosixPath.dotDot) : readDirent entry = none := by
  have proper : Char.ofNat 0 ∉ name := by rcases dots with rfl | rfl <;> decide
  rw [readDirent_eq, direntName_encoded proper encoded, if_pos (Or.inr dots)]

end Encoding

end C900
