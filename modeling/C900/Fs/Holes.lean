import C900.Fs.Agreement

/-!
# The holes of a file

The places before the end of a file that have no block. A growth fills them, each with a block of
its own, so that their number says how many blocks it takes.
-/

namespace C900

/-- The places of a file of `n` data blocks that are holes. -/
def CoherentFs.holes (fs : CoherentFs) (image : Image) (inode : Inode) (n : Nat) :
    List BlockPlace :=
  (placesBelow n).filter fun p => fs.pointer image inode p = 0

section Holes

variable {fs : CoherentFs} {n : Nat} {image after : Image} {inode inode' : Inode}
  {p : BlockPlace}

theorem CoherentFs.mem_holes :
    p ∈ fs.holes image inode n ↔ p.Valid ∧ p.first < n ∧ fs.pointer image inode p = 0 := by
  rw [CoherentFs.holes, List.mem_filter, mem_placesBelow, decide_eq_true_eq, and_assoc]

theorem CoherentFs.holes_nodup (fs : CoherentFs) (image : Image) (inode : Inode) (n : Nat) :
    (fs.holes image inode n).Nodup :=
  (placesBelow_nodup n).filter _

/-- The holes depend on the pointers. -/
theorem CoherentFs.holes_congr
    (same : ∀ {p : BlockPlace}, p.Valid → fs.pointer after inode' p = fs.pointer image inode p) :
    fs.holes after inode' n = fs.holes image inode n := by
  refine List.filter_congr fun p member => ?_
  rw [same (mem_placesBelow.mp member).1]

/-- A file without blocks has nothing but holes. -/
theorem CoherentFs.holes_empty (none : ∀ {p : BlockPlace}, p.Valid → fs.pointer image inode p = 0) :
    fs.holes image inode n = placesBelow n :=
  List.filter_eq_self.mpr fun _ member => decide_eq_true (none (mem_placesBelow.mp member).1)

/-- A place on the way to a data block that is there is no hole. -/
theorem CoherentFs.pointer_first (valid : p.Valid)
    (present : fs.pointer image inode (dataPlace p.first) ≠ 0) : fs.pointer image inode p ≠ 0 := by
  rw [dataPlace_below valid] at present
  exact PointerTree.follow_ne_zero_of_append present

/-- A file whose data blocks are all there has no holes before its end. -/
theorem CoherentFs.pointer_dense
    (present : ∀ idx < n, idx < maxBlocks → fs.pointer image inode (dataPlace idx) ≠ 0)
    (valid : p.Valid) (before : p.first < n) : fs.pointer image inode p ≠ 0 :=
  CoherentFs.pointer_first valid (present _ before (BlockPlace.first_lt valid))

theorem CoherentFs.holes_dense
    (present : ∀ idx < n, idx < maxBlocks → fs.pointer image inode (dataPlace idx) ≠ 0) :
    fs.holes image inode n = [] := by
  refine List.eq_nil_iff_forall_not_mem.mpr fun p member => ?_
  obtain ⟨valid, before, hole⟩ := CoherentFs.mem_holes.mp member
  exact CoherentFs.pointer_dense present valid before hole

end Holes

end C900
