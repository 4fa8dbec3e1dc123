import C900.Fs.Agreement

/-!
# The inode table

`write_inode` replaces the 63 bytes of one inode, and `stat` reads its fields back: the mode, the
link count and the owners as words, the size and the times as 32 bits and an address as 24 bits.
The other inodes of the table stay.
-/

namespace C900

section Packing

variable {buf : Buffer} {off p v : Nat}

theorem writeAddr24_apply_of_ne {i : Nat} (apart : i < p ∨ p + 3 ≤ i) :
    writeAddr24 buf p v i = buf i := by
  unfold writeAddr24
  rw [Buffer.set16_apply_of_ne (by omega), Buffer.set8_apply_of_ne (by omega)]

theorem readAddr24_congr {other : Buffer} (same : ∀ i < 3, buf (off + i) = other (off + i)) :
    readAddr24 buf off = readAddr24 other off := by
  have high : buf off = other off := same 0 (by decide)
  have low : buf.get16 (off + 1) = other.get16 (off + 1) :=
    Buffer.get16_congr _ (same 1 (by decide)) (same 2 (by decide))
  unfold readAddr24
  rw [high, low]

/-- An address keeps 24 bits. -/
theorem readAddr24_writeAddr24 : readAddr24 (writeAddr24 buf p v) p = v % 2 ^ 24 := by
  have low : (writeAddr24 buf p v).get16 (p + 1) = v % 65536 :=
    Buffer.get16_set16_same (Nat.mod_lt _ (by decide))
  have high : writeAddr24 buf p v p = BitVec.ofNat 8 (v / 65536) := by
    unfold writeAddr24
    rw [Buffer.set16_apply_of_ne (by omega), Buffer.set8, if_pos rfl]
  unfold readAddr24
  rw [low, high, BitVec.toNat_ofNat]
  omega

/-- The loop over the addresses. -/
theorem packAddrs_spec (addrs : List Nat) (n : Nat) :
    (∀ i, i < off + 12 ∨ off + 12 + n * 3 ≤ i →
      forUpTo n (fun j out => writeAddr24 out (off + 12 + j * 3) (addrs.getD j 0)) buf i = buf i) ∧
    ∀ j < n, readAddr24 (forUpTo n
      (fun j out => writeAddr24 out (off + 12 + j * 3) (addrs.getD j 0)) buf) (off + 12 + j * 3) =
        addrs.getD j 0 % 2 ^ 24 := by
  refine forUpTo.invariant (fun n (out : Buffer) =>
    (∀ i, i < off + 12 ∨ off + 12 + n * 3 ≤ i → out i = buf i) ∧
    ∀ j < n, readAddr24 out (off + 12 + j * 3) = addrs.getD j 0 % 2 ^ 24) n
    ⟨fun _ _ => rfl, nofun⟩ ?_
  rintro j out - ⟨kept, packed⟩
  refine ⟨fun i apart => ?_, fun k small => ?_⟩
  · rw [writeAddr24_apply_of_ne (by omega)]
    exact kept i (by omega)
  · by_cases here : k = j
    · rw [here]
      exact readAddr24_writeAddr24
    · rw [readAddr24_congr fun i _ => writeAddr24_apply_of_ne (by omega)]
      exact packed k (by omega)

variable {inode : OpenInode} {out : Buffer}

/-- The bytes of the other inodes, and the unused byte, stay. -/
theorem packInode_apply_of_ne {i : Nat} (apart : i < off ∨ off + 63 ≤ i) :
    packInode out off inode i = out i := by
  unfold packInode
  rw [Buffer.set32_apply_of_ne (by omega), Buffer.set32_apply_of_ne (by omega),
    Buffer.set32_apply_of_ne (by omega), (packAddrs_spec inode.addrs 13).1 i (by omega),
    Buffer.set32_apply_of_ne (by omega), Buffer.set16_apply_of_ne (by omega),
    Buffer.set16_apply_of_ne (by omega), Buffer.set16_apply_of_ne (by omega),
    Buffer.set16_apply_of_ne (by omega)]

/-- The loop over the addresses does not reach the fields before them. -/
theorem packAddrs_before {buf : Buffer} (addrs : List Nat) {p : Nat} (low : p < off + 12) :
    forUpTo 13 (fun j out => writeAddr24 out (off + 12 + j * 3) (addrs.getD j 0)) buf p = buf p :=
  (packAddrs_spec addrs 13).1 p (Or.inl low)

/-- The fields before the size are words. -/
theorem packInode_word {p : Nat} (low : p + 2 ≤ off + 8) :
    (packInode out off inode).get16 p =
      ((((out.set16 off (inode.mode % 65536)).set16 (off + 2) (inode.nlinks % 65536)).set16
        (off + 4) (inode.uid % 65536)).set16 (off + 6) (inode.gid % 65536)).get16 p := by
  unfold packInode
  dsimp only
  rw [Buffer.get16_set32_apart (by omega), Buffer.get16_set32_apart (by omega),
    Buffer.get16_set32_apart (by omega),
    Buffer.get16_congr _ (packAddrs_before _ (by omega)) (packAddrs_before _ (by omega)),
    Buffer.get16_set32_apart (by omega)]

theorem packInode_mode : (packInode out off inode).get16 off = inode.mode % 65536 := by
  rw [packInode_word (by omega), Buffer.get16_set16_apart (by omega),
    Buffer.get16_set16_apart (by omega), Buffer.get16_set16_apart (by omega),
    Buffer.get16_set16_same (Nat.mod_lt _ (by decide))]

theorem packInode_nlinks : (packInode out off inode).get16 (off + 2) = inode.nlinks % 65536 := by
  rw [packInode_word (by omega), Buffer.get16_set16_apart (by omega),
    Buffer.get16_set16_apart (by omega), Buffer.get16_set16_same (Nat.mod_lt _ (by decide))]

theorem packInode_uid : (packInode out off inode).get16 (off + 4) = inode.uid % 65536 := by
  rw [packInode_word (by omega), Buffer.get16_set16_apart (by omega),
    Buffer.get16_set16_same (Nat.mod_lt _ (by decide))]

theorem packInode_gid : (packInode out off inode).get16 (off + 6) = inode.gid % 65536 := by
  rw [packInode_word (by omega), Buffer.get16_set16_same (Nat.mod_lt _ (by decide))]

theorem packInode_size : (packInode out off inode).get32 (off + 8) = inode.size % 2 ^ 32 := by
  unfold packInode
  dsimp only
  rw [Buffer.get32_set32_apart (by omega), Buffer.get32_set32_apart (by omega),
    Buffer.get32_set32_apart (by omega),
    Buffer.get32_congr _ fun i _ => packAddrs_before _ (by omega), Buffer.get32_set32_same]

theorem packInode_atime : (packInode out off inode).get32 (off + 51) = inode.atime % 2 ^ 32 := by
  unfold packInode
  dsimp only
  rw [Buffer.get32_set32_apart (by omega), Buffer.get32_set32_apart (by omega),
    Buffer.get32_set32_same]

theorem packInode_mtime : (packInode out off inode).get32 (off + 55) = inode.mtime % 2 ^ 32 := by
  unfold packInode
  dsimp only
  rw [Buffer.get32_set32_apart (by omega), Buffer.get32_set32_same]

theorem packInode_ctime : (packInode out off inode).get32 (off + 59) = inode.ctime % 2 ^ 32 :=
  Buffer.get32_set32_same

theorem packInode_addr {j : Nat} (small : j < 13) :
    readAddr24 (packInode out off inode) (off + 12 + j * 3) = inode.addrs.getD j 0 % 2 ^ 24 := by
  unfold packInode
  dsimp only
  rw [readAddr24_congr fun i near => (Buffer.set32_apply_of_ne (by omega)).trans
    ((Buffer.set32_apply_of_ne (by omega)).trans (Buffer.set32_apply_of_ne (by omega)))]
  exact (packAddrs_spec inode.addrs 13).2 j small

/-- The fields of an inode in its block. -/
def unpackInode (raw : Buffer) (off ino : Nat) : OpenInode where
  ino := ino
  mode := raw.get16 off
  nlinks := raw.get16 (off + 2)
  uid := raw.get16 (off + 4)
  gid := raw.get16 (off + 6)
  size := raw.get32 (off + 8)
  addrs := (List.range 13).map fun j => readAddr24 raw (off + 12 + j * 3)
  atime := raw.get32 (off + 51)
  mtime := raw.get32 (off + 55)
  ctime := raw.get32 (off + 59)

/-- The inode in the widths of its fields on the disk. -/
def OpenInode.masked (inode : OpenInode) : OpenInode where
  ino := inode.ino
  mode := inode.mode % 65536
  nlinks := inode.nlinks % 65536
  uid := inode.uid % 65536
  gid := inode.gid % 65536
  size := inode.size % 2 ^ 32
  addrs := (List.range 13).map fun j => inode.addrs.getD j 0 % 2 ^ 24
  atime := inode.atime % 2 ^ 32
  mtime := inode.mtime % 2 ^ 32
  ctime := inode.ctime % 2 ^ 32

/-- Addresses that fit stay as they are. -/
theorem masked_addrs {addrs : List Nat} (length : addrs.length = rootCount)
    (narrow : ∀ b ∈ addrs, b < 2 ^ 24) :
    ((List.range 13).map fun j => addrs.getD j 0 % 2 ^ 24) = addrs := by
  refine List.ext_getElem ?_ fun j inMap inAddrs => ?_
  · rw [List.length_map, List.length_range, length, rootCount]
  · rw [List.getElem_map, List.getElem_range, List.getD_eq_getElem?_getD,
      List.getElem?_eq_getElem inAddrs]
    exact Nat.mod_eq_of_lt (narrow _ (List.getElem_mem inAddrs))

/-- What is packed is read back in the widths of the fields. -/
theorem unpackInode_packInode :
    unpackInode (packInode out off inode) off inode.ino = inode.masked := by
  have addrs : (List.range 13).map (fun j =>
      readAddr24 (packInode out off inode) (off + 12 + j * 3)) =
        (List.range 13).map fun j => inode.addrs.getD j 0 % 2 ^ 24 :=
    List.map_congr_left fun j member => packInode_addr (List.mem_range.mp member)
  unfold unpackInode OpenInode.masked
  rw [packInode_mode, packInode_nlinks, packInode_uid, packInode_gid, packInode_size, addrs,
    packInode_atime, packInode_mtime, packInode_ctime]

/-- The fields depend on the first 63 bytes of the slot. -/
theorem unpackInode_congr {raw other : Buffer} {ino : Nat}
    (same : ∀ i, off ≤ i → i < off + 63 → raw i = other i) :
    unpackInode raw off ino = unpackInode other off ino := by
  have word : ∀ k, k + 2 ≤ 63 → raw.get16 (off + k) = other.get16 (off + k) := fun k low =>
    Buffer.get16_congr _ (same _ (by omega) (by omega)) (same _ (by omega) (by omega))
  have long : ∀ k, k + 4 ≤ 63 → raw.get32 (off + k) = other.get32 (off + k) := fun k low =>
    Buffer.get32_congr _ fun i _ => same _ (by omega) (by omega)
  have addrs : (List.range 13).map (fun j => readAddr24 raw (off + 12 + j * 3)) =
      (List.range 13).map fun j => readAddr24 other (off + 12 + j * 3) := by
    refine List.map_congr_left fun j member => ?_
    have small := List.mem_range.mp member
    exact readAddr24_congr fun i _ => same _ (by omega) (by omega)
  have mode : raw.get16 off = other.get16 off := word 0 (by decide)
  unfold unpackInode
  rw [mode, word 2 (by decide), word 4 (by decide), word 6 (by decide), long 8 (by decide), addrs,
    long 51 (by decide), long 55 (by decide), long 59 (by decide)]

end Packing

/-! ## `stat` after `write_inode` -/

section Stat

variable {fs : CoherentFs} {image after : Image} {ino : Nat} {inode : OpenInode}

/-- The block of an inode, as `stat` computes it. -/
theorem CoherentFs.inodeBlock_eq (fs : CoherentFs) (real : 1 ≤ ino) :
    fs.inodeBlock ino = fs.partOff + 2 + (ino - 1) / inodesPerBlock := by
  unfold CoherentFs.inodeBlock inodesPerBlock
  omega

theorem inodeOffset_eq (real : 1 ≤ ino) :
    inodeOffset ino = (ino - 1) % inodesPerBlock * inodeSize := by
  unfold inodeOffset inodesPerBlock
  congr 1
  omega

/-- The block of an inode of the table. -/
theorem CoherentFs.inodeBlock_lt (fs : CoherentFs) {isize : Nat} (real : 1 ≤ ino)
    (last : ino ≤ (isize - 2) * inodesPerBlock) :
    fs.partOff + 1 < fs.inodeBlock ino ∧ fs.inodeBlock ino < fs.partOff + isize := by
  rw [fs.inodeBlock_eq real]
  unfold inodesPerBlock at last ⊢
  omega

theorem inodeOffset_lt (ino : Nat) : inodeOffset ino + inodeSize ≤ blockSize := by
  unfold inodeOffset inodesPerBlock inodeSize blockSize
  omega

/-- `stat`, with all the fields. -/
def CoherentFs.openStat (fs : CoherentFs) (image : Image) (ino : Nat) : Option OpenInode :=
  if ino < 1 then none
  else
    let idx := ino - 1
    let raw := image.readBlock (fs.partOff + 2 + idx / inodesPerBlock)
    let off := idx % inodesPerBlock * inodeSize
    let mode := raw.get16 off
    if mode = 0 then none
    else some (unpackInode raw off ino)

/-- The fields that the readers use. -/
theorem CoherentFs.openStat_toInode (fs : CoherentFs) (image : Image) (ino : Nat) :
    (fs.openStat image ino).map OpenInode.toInode = fs.stat image ino := by
  unfold CoherentFs.openStat CoherentFs.stat
  by_cases real : ino < 1
  · rw [if_pos real, if_pos real]
    rfl
  · rw [if_neg real, if_neg real]
    dsimp only
    split
    · rfl
    · rfl

/-- The modes of the table are words other than 0. -/
theorem CoherentFs.stat_mode {inode : Inode} (found : fs.stat image ino = some inode) :
    inode.mode ≠ 0 ∧ inode.mode < 65536 := by
  unfold CoherentFs.stat at found
  by_cases real : ino < 1
  · rw [if_pos real] at found
    cases found
  · rw [if_neg real] at found
    dsimp only at found
    split at found
    · cases found
    · next used =>
      cases found
      exact ⟨used, Buffer.get16_lt _ _⟩

/-- The inode that was packed is read back. -/
theorem CoherentFs.openStat_packed {out : Buffer} (real : 1 ≤ inode.ino)
    (packed : ∀ i < blockSize, image.readBlock (fs.inodeBlock inode.ino) i =
      packInode out (inodeOffset inode.ino) inode i)
    (used : inode.mode % 65536 ≠ 0) :
    fs.openStat image inode.ino = some inode.masked := by
  have room := inodeOffset_lt inode.ino
  rw [fs.inodeBlock_eq real, inodeOffset_eq real] at packed
  rw [inodeOffset_eq real] at room
  unfold inodeSize at room
  have mode : (image.readBlock (fs.partOff + 2 + (inode.ino - 1) / inodesPerBlock)).get16
      ((inode.ino - 1) % inodesPerBlock * inodeSize) = inode.mode % 65536 := by
    unfold inodeSize at *
    rw [Buffer.get16_congr _ (packed _ (by omega)) (packed _ (by omega)), packInode_mode]
  unfold CoherentFs.openStat
  rw [if_neg (by omega)]
  dsimp only
  rw [if_neg (by rwa [mode])]
  congr 1
  unfold inodeSize at *
  rw [unpackInode_congr fun i _ _ => packed i (by omega), unpackInode_packInode]

/-- The fields that the readers use, where they fit. -/
theorem CoherentFs.stat_packed (here : inode.ino = ino) (real : 1 ≤ ino) {out : Buffer}
    (packed : ∀ i < blockSize,
      image.readBlock (fs.inodeBlock ino) i = packInode out (inodeOffset ino) inode i)
    (mode : inode.mode < 65536) (used : inode.mode ≠ 0) (size : inode.size < 2 ^ 32)
    (length : inode.addrs.length = rootCount) (narrow : ∀ b ∈ inode.addrs, b < 2 ^ 24) :
    fs.stat image ino = some inode.toInode := by
  subst here
  have small := Nat.mod_eq_of_lt mode
  rw [← fs.openStat_toInode, CoherentFs.openStat_packed real packed (by rwa [small])]
  unfold OpenInode.masked
  dsimp only [Option.map_some]
  rw [small, Nat.mod_eq_of_lt size, masked_addrs length narrow]

/-- The bytes that `stat` reads. -/
theorem CoherentFs.openStat_congr {other : Nat} (real : 1 ≤ other)
    (same : ∀ i, inodeOffset other ≤ i → i < inodeOffset other + 63 →
      after.readBlock (fs.inodeBlock other) i = image.readBlock (fs.inodeBlock other) i) :
    fs.openStat after other = fs.openStat image other := by
  rw [fs.inodeBlock_eq real, inodeOffset_eq real] at same
  unfold CoherentFs.openStat
  have notZero : ¬ other < 1 := Nat.not_lt.mpr real
  rw [if_neg notZero, if_neg notZero]
  dsimp only
  rw [Buffer.get16_congr _ (same _ (by omega) (by omega)) (same _ (by omega) (by omega)),
    unpackInode_congr same]

theorem CoherentFs.stat_congr {other : Nat} (real : 1 ≤ other)
    (same : ∀ i, inodeOffset other ≤ i → i < inodeOffset other + 63 →
      after.readBlock (fs.inodeBlock other) i = image.readBlock (fs.inodeBlock other) i) :
    fs.stat after other = fs.stat image other := by
  rw [← fs.openStat_toInode, ← fs.openStat_toInode, CoherentFs.openStat_congr real same]

/-- Another inode is not touched where one is packed. -/
theorem CoherentFs.openStat_other {other : Nat} (real : 1 ≤ ino) (ne : other ≠ ino)
    (packed : ∀ i < blockSize, after.readBlock (fs.inodeBlock ino) i =
      packInode (image.readBlock (fs.inodeBlock ino)) (inodeOffset ino) inode i)
    (apart : fs.inodeBlock other ≠ fs.inodeBlock ino →
      after.readBlock (fs.inodeBlock other) = image.readBlock (fs.inodeBlock other)) :
    fs.openStat after other = fs.openStat image other := by
  by_cases real' : 1 ≤ other
  swap
  · unfold CoherentFs.openStat
    rw [if_pos (by omega), if_pos (by omega)]
  refine CoherentFs.openStat_congr real' fun i low high => ?_
  by_cases same : fs.inodeBlock other = fs.inodeBlock ino
  · have room := inodeOffset_lt other
    unfold inodeSize at room
    rw [same, packed i (by omega)]
    refine packInode_apply_of_ne ?_
    rw [fs.inodeBlock_eq real, fs.inodeBlock_eq real'] at same
    rw [inodeOffset_eq real] at *
    rw [inodeOffset_eq real'] at *
    unfold inodesPerBlock inodeSize at *
    omega
  · rw [apart same]

end Stat

/-! ## `write_inode` -/

section WriteInode

variable {fs : CoherentFs} {s : Session}

/-- The inode is packed into its block. -/
theorem CoherentFs.writeInode_ends (fs : CoherentFs) {s : Session}
    (inside : s.image.hasBlock (fs.inodeBlock s.inode.ino) = true) :
    Ends fs.writeInode s (fun _ t => ∃ image, t = { s with image := image } ∧
      image = s.image.setBlock (fs.inodeBlock s.inode.ino)
        (packInode (s.image.readBlock (fs.inodeBlock s.inode.ino)) (inodeOffset s.inode.ino)
          s.inode)) noRaise := by
  refine .bind (.state (.bind (.of_ok (readBlock_session _ s) ?_)))
  exact .of_ok (writeBlock_session inside _) ⟨_, rfl, rfl⟩

/-- The fields of an inode are within their widths on the disk. -/
structure OpenInode.Narrow (inode : OpenInode) : Prop where
  mode : inode.mode < 65536
  nlinks : inode.nlinks < 65536
  uid : inode.uid < 65536
  gid : inode.gid < 65536
  size : inode.size < 2 ^ 32
  length : inode.addrs.length = rootCount
  addrs : ∀ b ∈ inode.addrs, b < 2 ^ 24
  atime : inode.atime < 2 ^ 32
  mtime : inode.mtime < 2 ^ 32
  ctime : inode.ctime < 2 ^ 32

theorem OpenInode.Narrow.masked {inode : OpenInode} (narrow : inode.Narrow) :
    inode.masked = inode := by
  unfold OpenInode.masked
  rw [Nat.mod_eq_of_lt narrow.mode, Nat.mod_eq_of_lt narrow.nlinks, Nat.mod_eq_of_lt narrow.uid,
    Nat.mod_eq_of_lt narrow.gid, Nat.mod_eq_of_lt narrow.size,
    masked_addrs narrow.length narrow.addrs, Nat.mod_eq_of_lt narrow.atime,
    Nat.mod_eq_of_lt narrow.mtime, Nat.mod_eq_of_lt narrow.ctime]

/-- `stat` after `write_inode` gives every field of the inode back; the other inodes, the unused
byte of the slot and the other blocks are as before. -/
theorem CoherentFs.writeInode_roundTrip (fs : CoherentFs) {isize : Nat} {s : Session}
    (real : 1 ≤ s.inode.ino) (table : s.inode.ino ≤ (isize - 2) * inodesPerBlock)
    (whole : (fs.partOff + isize) * blockSize ≤ s.image.len) (used : s.inode.mode ≠ 0)
    (narrow : s.inode.Narrow) :
    ∃ t, fs.writeInode s = .ok ⟨⟩ t ∧
      fs.openStat t.image s.inode.ino = some s.inode ∧
      (∀ other, other ≠ s.inode.ino → fs.openStat t.image other = fs.openStat s.image other) ∧
      t.image.readBlock (fs.inodeBlock s.inode.ino) (inodeOffset s.inode.ino + 63) =
        s.image.readBlock (fs.inodeBlock s.inode.ino) (inodeOffset s.inode.ino + 63) ∧
      ∀ bno, bno ≠ fs.inodeBlock s.inode.ino → t.image.readBlock bno = s.image.readBlock bno := by
  have block := fs.inodeBlock_lt real table
  have room := inodeOffset_lt s.inode.ino
  unfold inodeSize at room
  have inside : s.image.hasBlock (fs.inodeBlock s.inode.ino) = true := by
    have below := Nat.mul_le_mul_right blockSize (Nat.succ_le_of_lt block.2)
    rw [Nat.succ_mul] at below
    exact decide_eq_true (below.trans whole)
  obtain ⟨_, t, ran, image, rfl, rfl⟩ := (fs.writeInode_ends inside).returns
  have packed : ∀ i < blockSize, (s.image.setBlock (fs.inodeBlock s.inode.ino)
      (packInode (s.image.readBlock (fs.inodeBlock s.inode.ino)) (inodeOffset s.inode.ino)
        s.inode)).readBlock (fs.inodeBlock s.inode.ino) i =
      packInode (s.image.readBlock (fs.inodeBlock s.inode.ino)) (inodeOffset s.inode.ino)
        s.inode i := fun _ small => Image.readBlock_setBlock_same _ inside small
  refine ⟨_, ran, ?_, fun other ne => ?_, ?_, fun bno ne => ?_⟩
  · rw [CoherentFs.openStat_packed real packed (by rwa [Nat.mod_eq_of_lt narrow.mode]),
      narrow.masked]
  · exact CoherentFs.openStat_other real ne packed fun apart =>
      Image.readBlock_setBlock_other _ _ apart
  · have last : inodeOffset s.inode.ino + 63 < blockSize := by omega
    rw [packed _ last]
    exact packInode_apply_of_ne (Or.inr (Nat.le_refl _))
  · exact Image.readBlock_setBlock_other _ _ ne

end WriteInode

/-- A file whose fields use every byte. -/
def wideInode : OpenInode where
  ino := 3
  mode := 0x81A4
  nlinks := 0x0102
  uid := 0xFFFE
  gid := 0x8001
  size := 0x12345678
  addrs := 0xABCDEF :: List.replicate 12 0x010203
  atime := 0xFEDCBA98
  mtime := 0x00010000
  ctime := 0x0000FFFF

theorem writeInode_roundTrip_wide :
    (1 ≤ wideInode.ino ∧ wideInode.ino ≤ (3 - 2) * inodesPerBlock ∧
      ((⟨0⟩ : CoherentFs).partOff + 3) * blockSize ≤ 2048 ∧ wideInode.mode ≠ 0 ∧
      wideInode.Narrow) ∧
    ∃ t, CoherentFs.writeInode ⟨0⟩ ⟨⟨2048, fun _ => 7⟩, fun _ => 0, wideInode, []⟩ = .ok ⟨⟩ t ∧
      CoherentFs.openStat ⟨0⟩ t.image 3 = some wideInode ∧
      (∀ other, other ≠ 3 → CoherentFs.openStat ⟨0⟩ t.image other =
        CoherentFs.openStat ⟨0⟩ ⟨2048, fun _ => 7⟩ other) ∧
      t.image.readBlock (CoherentFs.inodeBlock ⟨0⟩ 3) (inodeOffset 3 + 63) =
        Image.readBlock ⟨2048, fun _ => 7⟩ (CoherentFs.inodeBlock ⟨0⟩ 3) (inodeOffset 3 + 63) ∧
      ∀ bno, bno ≠ CoherentFs.inodeBlock ⟨0⟩ 3 →
        t.image.readBlock bno = Image.readBlock ⟨2048, fun _ => 7⟩ bno := by
  have narrow : wideInode.Narrow := by constructor <;> decide
  have table : wideInode.ino ≤ (3 - 2) * inodesPerBlock := by decide
  have whole : ((⟨0⟩ : CoherentFs).partOff + 3) * blockSize ≤ 2048 := by decide
  exact ⟨⟨by decide, table, whole, by decide, narrow⟩,
    CoherentFs.writeInode_roundTrip ⟨0⟩ (s := ⟨⟨2048, fun _ => 7⟩, fun _ => 0, wideInode, []⟩)
      (by decide) table whole (by decide) narrow⟩

end C900
