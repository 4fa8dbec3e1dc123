import C900.Fs.Grow
import C900.Fs.InodeTable

/-!
# The bytes of a file

`read_file` returns the bytes of the data blocks up to the size, with zeros for the holes. What
it returns depends on the block map and on the data blocks alone.
-/

namespace C900

open PointerTree

/-- Byte `i` of a file: a byte of its block, or 0 in a hole. -/
def CoherentFs.fileByte (fs : CoherentFs) (image : Image) (inode : Inode) (i : Nat) : BitVec 8 :=
  image.readEntry (fs.absolute (fs.pointer image inode (dataPlace (i / blockSize)))) (i % blockSize)

/-- The loop of `read_file` over a list of blocks. -/
theorem Image.readSteps_eq (image : Image) (blocks : BlockList) (bytes : List (BitVec 8))
    (remaining : Nat) :
    blocks.foldl image.readStep (bytes, remaining) =
      (bytes ++ (List.range (min remaining (blocks.length * blockSize))).map fun i =>
        image.readEntry (blocks.getD (i / blockSize) none) (i % blockSize),
        remaining - blocks.length * blockSize) := by
  induction blocks generalizing bytes remaining with
  | nil => simp
  | cons b blocks inductionHypothesis =>
    have next : (blocks.length + 1) * blockSize = blockSize + blocks.length * blockSize := by
      rw [Nat.succ_mul, Nat.add_comm]
    have step : image.readStep (bytes, remaining) b =
        (bytes ++ (List.range (min blockSize remaining)).map (image.readEntry b),
          remaining - blockSize) := by
      unfold Image.readStep
      dsimp only
      by_cases done : remaining = 0
      · subst done
        simp
      · have left : remaining - min blockSize remaining = remaining - blockSize := by omega
        rw [if_neg done, left]
    have split : min remaining ((blocks.length + 1) * blockSize) =
        min blockSize remaining +
          min (remaining - blockSize) (blocks.length * blockSize) := by
      rw [next]
      omega
    rw [List.foldl_cons, step, inductionHypothesis, List.length_cons, split, List.range_add,
      List.map_append, List.map_map, ← List.append_assoc]
    refine Prod.ext ?_ (by rw [next]; exact Nat.sub_sub ..)
    dsimp only
    refine congrArg₂ (· ++ ·) (congrArg (bytes ++ ·) ?_) ?_
    · refine List.map_congr_left fun i member => ?_
      have small : i < blockSize := Nat.lt_of_lt_of_le (List.mem_range.mp member)
        (Nat.min_le_left _ _)
      rw [Nat.div_eq_of_lt small, Nat.mod_eq_of_lt small]
      rfl
    · refine List.map_congr_left fun i member => ?_
      have below := List.mem_range.mp member
      have whole : min blockSize remaining = blockSize := by omega
      have some : 0 < blockSize := by decide
      rw [Function.comp_apply, whole, Nat.add_mod_left, Nat.add_div_left _ some,
        List.getD_cons_succ]

section Contents

variable {fs : CoherentFs} {image after : Image} {inode inode' : Inode}

/-- `read_file` returns the bytes up to the size. -/
theorem CoherentFs.readFile_eq (addrs : inode.addrs.length = rootCount) :
    fs.readFile image inode =
      (List.range (min inode.size (maxBlocks * blockSize))).map (fs.fileByte image inode) := by
  unfold CoherentFs.readFile
  rw [fs.fileBlocks_eq image inode addrs, image.readSteps_eq, List.nil_append,
    CoherentFs.blocksBelow_length]
  dsimp only
  have some : 0 < blockSize := by decide
  have count : min inode.size
      (min ((inode.size + blockSize - 1) / blockSize) maxBlocks * blockSize) =
      min inode.size (maxBlocks * blockSize) := by
    have enough : inode.size ≤ (inode.size + blockSize - 1) / blockSize * blockSize := by
      unfold blockSize
      omega
    rw [← Nat.mul_min_mul_right]
    omega
  rw [count]
  refine List.map_congr_left fun i member => ?_
  have below := List.mem_range.mp member
  have inside : i / blockSize < min ((inode.size + blockSize - 1) / blockSize) maxBlocks := by
    unfold blockSize at below ⊢
    omega
  unfold CoherentFs.fileByte CoherentFs.blocksBelow
  rw [List.getD_eq_getElem?_getD, List.getElem?_map, List.getElem?_range inside]
  rfl

/-- Two files of one size with the same bytes. -/
theorem CoherentFs.readFile_congr (addrs : inode.addrs.length = rootCount)
    (addrs' : inode'.addrs.length = rootCount) (size : inode'.size = inode.size)
    (bytes : ∀ i < inode.size, i < maxBlocks * blockSize →
      fs.fileByte after inode' i = fs.fileByte image inode i) :
    fs.readFile after inode' = fs.readFile image inode := by
  rw [CoherentFs.readFile_eq addrs, CoherentFs.readFile_eq addrs', size]
  refine List.map_congr_left fun i member => ?_
  have below := List.mem_range.mp member
  exact bytes i (by omega) (by omega)

/-- Nothing changes in a file whose blocks stay. -/
theorem CoherentFs.readFile_untouched (addrs : inode.addrs.length = rootCount)
    (blocks : ∀ {p : BlockPlace}, p.Valid → fs.pointer image inode p ≠ 0 →
      after.readBlock (fs.partOff + fs.pointer image inode p) =
        image.readBlock (fs.partOff + fs.pointer image inode p)) :
    (∀ {p : BlockPlace}, p.Valid → fs.pointer after inode p = fs.pointer image inode p) ∧
      fs.readFile after inode = fs.readFile image inode := by
  have same : ∀ {p : BlockPlace}, p.Valid →
      fs.pointer after inode p = fs.pointer image inode p := fun valid =>
    CoherentFs.pointer_same rfl (fun {q} valid _ found => by
      funext j
      unfold CoherentFs.entry
      rw [blocks valid found]) valid
  refine ⟨same, CoherentFs.readFile_congr addrs addrs rfl fun i _ below => ?_⟩
  have small : i / blockSize < maxBlocks := Nat.div_lt_of_lt_mul (by rwa [Nat.mul_comm])
  have valid := (dataPlace_spec small).1
  unfold CoherentFs.fileByte
  rw [same valid]
  by_cases hole : fs.pointer image inode (dataPlace (i / blockSize)) = 0
  · rw [hole]
    rfl
  · unfold CoherentFs.absolute Image.readEntry
    rw [if_pos hole]
    dsimp only
    rw [blocks valid hole]

end Contents

end C900
