import C900.Uexec.Capacity
import C900.Uexec.Exit

/-!
# The initial break of a guest

`run_exec` starts the break of a guest after the last group of its file. The load loop rolls
an address of the group over into the next segments; the break packs the segment and the
address into one word.
-/

namespace C900

open HostInt

/-- `brk_addr` as `run_exec` sets it, after the last group. -/
def LoutPlaced.brkAddr (g : LoutPlaced) : Long :=
  g.seg.setWidth 32 <<< 24 ||| BitVec.ofInt 32 (g.base + g.group.span + g.group.bss)

/-- The unused bits 16 to 23 of a far pointer. -/
def farUnused (v : Long) : Byte := v.extractLsb' 16 8

/-- The break decodes to the address `stop` of the group, and its unused bits are zero. -/
def LoutPlaced.BreakFollows (g : LoutPlaced) (stop : Int) : Prop :=
  (((uAddr g.brkAddr 0).1 : Int), ((uAddr g.brkAddr 0).2 : Int)) =
      (g.first + stop / 0x10000, stop % 0x10000) ∧
    farUnused g.brkAddr = 0

/-- The groups that `lout_layout` keeps, with their exact sizes. -/
def LoutHdr.survivors (h : LoutHdr) : List (LoutGroup × Int) :=
  ((loutGroups h).zip h.demands).filter fun p => p.1.nonempty

/-- The exact size of the last group that `lout_layout` keeps, bss included. -/
def LoutHdr.lastDemand (h : LoutHdr) : Int := (h.survivors.getLast?.map Prod.snd).getD 0

/-! ## The last group -/

/-- The span of a piece at the start of a group, or behind the piece there. -/
theorem LoutGroup.piece_span {g : LoutGroup} (fo : Int) {mo ln : Int} (next : mo = g.span)
    (start : 0 ≤ mo) (size : 0 ≤ ln) (small : mo + ln < 2 ^ 31) :
    (g.piece fo mo ln).span = mo + ln := by
  unfold piece
  dsimp only
  rw [cInt_eq (by omega) small]
  split_ifs <;> omega

/-- A group has its exact size as long as that is in the range of an `int`. -/
theorem loutGroups_demand {h : LoutHdr} (valid : h.Valid) :
    ∀ p ∈ (loutGroups h).zip h.demands,
      0 ≤ p.2 ∧ (p.2 < 2 ^ 31 → p.1.span + p.1.bss = p.2) := by
  have si := valid.sizes 0
  have pi := valid.sizes 1
  have bi := valid.sizes 2
  have sd := valid.sizes 3
  have pd := valid.sizes 4
  have bd := valid.sizes 5
  have first : ∀ (fo ln : Int), 0 ≤ ln → ln < 2 ^ 31 →
      (emptyGroup.piece fo 0 ln).span = ln := fun fo ln size small => by
    have own := @LoutGroup.piece_span emptyGroup fo 0 ln rfl (Int.le_refl 0) size (by omega)
    rw [own, Int.zero_add]
  have second : ∀ (fo ln fo' ln' : Int), 0 ≤ ln → 0 ≤ ln' → ln + ln' < 2 ^ 31 →
      ((emptyGroup.piece fo 0 ln).piece fo' ln ln').span = ln + ln' :=
    fun fo ln fo' ln' size size' small =>
      LoutGroup.piece_span fo' (first fo ln size (by omega)).symm size size' small
  have bss : ∀ (fo ln : Int), (emptyGroup.piece fo 0 ln).bss = 0 := fun _ _ => rfl
  have bssSecond : ∀ (fo ln fo' ln' : Int),
      ((emptyGroup.piece fo 0 ln).piece fo' ln ln').bss = 0 := fun _ _ _ _ => rfl
  unfold loutGroups LoutHdr.demands
  generalize (h.flag &&& 0x03).toNat = mode
  rcases mode with _ | _ | _ | mode <;>
    simp only [List.zip_cons_cons, List.zip_nil_right, List.mem_cons, List.not_mem_nil, or_false,
      forall_eq_or_imp, forall_eq, bss, bssSecond]
  · refine ⟨by omega, fun small => ?_⟩
    rw [cInt_of_nonneg (h.ss 0 + h.ss 1 + h.ss 3 + h.ss 4) (by omega) (by omega),
      cInt_of_nonneg (h.ss 2 + h.ss 5) (by omega) (by omega), first _ _ (by omega) (by omega)]
  · refine ⟨⟨by omega, fun small => ?_⟩, by omega, fun small => ?_⟩
    · rw [second _ _ _ _ si sd small, Int.add_zero]
    · rw [cInt_of_nonneg (h.ss 2 + h.ss 5) (by omega) (by omega), second _ _ _ _ pi pd (by omega)]
  · refine ⟨⟨by omega, fun small => ?_⟩, by omega, fun small => ?_⟩
    · rw [cInt_of_nonneg (h.ss 0 + h.ss 1) (by omega) (by omega), first _ _ (by omega) (by omega)]
    · rw [cInt_of_nonneg (h.ss 3 + h.ss 4) (by omega) (by omega), first _ _ (by omega) (by omega)]
  · refine ⟨⟨by omega, fun small => ?_⟩, ⟨by omega, fun small => ?_⟩, ⟨by omega, fun small => ?_⟩,
      by omega, fun small => ?_⟩
    · rw [first _ _ si small, Int.add_zero]
    · rw [first _ _ pi (by omega)]
    · rw [first _ _ sd small, Int.add_zero]
    · rw [first _ _ pd (by omega)]

/-! ## The break -/

/-- The decoded break. -/
theorem uAddr_zero (v : Long) :
    uAddr v 0 = (v.toNat / 2 ^ 24 % 0x80, v.toNat % 0x10000) := by
  have low : (v &&& 0xFFFF).toNat = v.toNat % 0x10000 := by
    rw [BitVec.toNat_and]
    exact Nat.and_two_pow_sub_one_eq_mod v.toNat 16
  have high : ((v >>> 24) &&& 0x7F).toNat = v.toNat / 2 ^ 24 % 0x80 := by
    rw [BitVec.toNat_and, BitVec.toNat_ushiftRight, Nat.shiftRight_eq_div_pow]
    exact Nat.and_two_pow_sub_one_eq_mod _ 7
  have carry : v.toNat % 0x10000 / 0x10000 = 0 := by omega
  have inSpace : ¬ 0x7F < v.toNat / 2 ^ 24 % 0x80 := by omega
  unfold uAddr
  dsimp only
  rw [low, high, Nat.add_zero, carry, Nat.add_zero, if_neg inSpace, Nat.mod_mod]

/-- The groups of the layout are those that survive. -/
theorem LoutHdr.survivors_fst (h : LoutHdr) :
    h.survivors.map Prod.fst = (loutGroups h).filter LoutGroup.nonempty := by
  have sizes : (loutGroups h).length ≤ h.demands.length := by
    unfold loutGroups demands
    generalize (h.flag &&& 0x03).toNat = mode
    rcases mode with _ | _ | _ | mode <;> exact Nat.le_refl _
  rw [survivors, ← List.map_fst_zip sizes, List.filter_map, List.map_fst_zip sizes]
  rfl

/-- What `lout_layout` says of the last group. -/
theorem loutLayout_last {h : LoutHdr} (valid : h.Valid) {l : LoutLayout} {g : LoutPlaced}
    (laid : loutLayout h = .ok l) (last : l.groups.getLast? = some g) :
    0 ≤ g.base ∧ g.first ≤ 0x7F ∧ 0 ≤ h.lastDemand ∧
      (h.lastDemand < 2 ^ 31 → g.group.span + g.group.bss = h.lastDemand) := by
  obtain ⟨order, places⟩ := loutLayout_placed laid
  have same : h.survivors.getLast?.map Prod.fst = some g.group := by
    rw [← List.getLast?_map, h.survivors_fst, ← order, List.getLast?_map, last]
    rfl
  obtain ⟨p, final, group⟩ := Option.map_eq_some_iff.mp same
  have demand : h.lastDemand = p.2 := by
    rw [LoutHdr.lastDemand, final]
    rfl
  have member := (List.mem_filter.mp (List.mem_of_getLast? final)).1
  obtain ⟨base, seg⟩ := places g (List.mem_of_getLast? last)
  obtain ⟨positive, exact⟩ := loutGroups_demand valid p member
  rw [group] at exact
  exact ⟨base, seg, demand ▸ positive, demand ▸ exact⟩

/-- The break as a number. -/
theorem LoutPlaced.brkAddr_toNat {g : LoutPlaced} {total : Nat} (seg : g.first ≤ 0x7F)
    (sum : g.base + g.group.span + g.group.bss = total) (inside : total < 2 ^ 24) :
    g.brkAddr.toNat = g.seg.toNat * 2 ^ 24 + total := by
  have narrow : g.seg.toNat ≤ 0x7F := by
    unfold first at seg
    omega
  have high : (g.seg.setWidth 32 <<< 24 : Long).toNat = g.seg.toNat <<< 24 := by
    rw [BitVec.toNat_shiftLeft, BitVec.toNat_setWidth, Nat.shiftLeft_eq, Nat.shiftLeft_eq]
    omega
  have low : (BitVec.ofInt 32 (total : Int)).toNat = total := by
    rw [BitVec.ofInt_natCast, BitVec.toNat_ofNat]
    omega
  rw [brkAddr, sum, BitVec.toNat_or, high, low, ← Nat.shiftLeft_add_eq_or_of_lt inside,
    Nat.shiftLeft_eq]

/-- For a file that `run_exec` lays out, the initial break is the first address after the
last group exactly when the group, in its exact size, ends inside its first segment. -/
theorem brkAddr_follows_iff {b : Buffer} {len : Nat} {h : LoutHdr} {l : LoutLayout}
    {g : LoutPlaced} (parsed : loutParse b len = .ok h) (laid : loutLayout h = .ok l)
    (last : l.groups.getLast? = some g) :
    g.BreakFollows (g.base + h.lastDemand) ↔ g.base + h.lastDemand < 0x10000 := by
  obtain ⟨base, seg, positive, exact⟩ := loutLayout_last (loutParse_valid parsed) laid last
  have segment : 0 ≤ g.first := Int.natCast_nonneg _
  have unused : farUnused g.brkAddr = 0 ↔ g.brkAddr.toNat / 0x10000 % 0x100 = 0 := by
    rw [← BitVec.toNat_inj, farUnused, BitVec.extractLsb'_toNat, Nat.shiftRight_eq_div_pow]
    rfl
  have packed : g.base + h.lastDemand < 2 ^ 24 →
      (g.brkAddr.toNat : Int) = g.first * 2 ^ 24 + (g.base + h.lastDemand) := by
    intro small
    have size := exact (by omega)
    have sum : g.base + g.group.span + g.group.bss = (g.base + h.lastDemand).toNat := by omega
    have number := g.brkAddr_toNat seg sum (by omega)
    unfold LoutPlaced.first
    omega
  unfold LoutPlaced.BreakFollows
  rw [unused, uAddr_zero, Prod.mk.injEq]
  dsimp only
  constructor
  · -- A segment that is decoded is below 0x80, so the group is small and its sums are exact.
    rintro ⟨⟨decoded, -⟩, zero⟩
    have number := packed (by omega)
    omega
  · intro inside
    have number := packed (by omega)
    omega

/-- The last group of the file with three groups. -/
def sharedData : LoutPlaced := sharedLayout.groups.getLast (by decide)

theorem sharedImage_break : sharedLayout.groups.getLast? = some sharedData ∧
    (sharedData.BreakFollows (sharedData.base + sharedHdr.lastDemand) ↔
      sharedData.base + sharedHdr.lastDemand < 0x10000) := by
  have parsed : loutParse sharedImage 128 = .ok sharedHdr := eq_ok_get _
  have laid : loutLayout sharedHdr = .ok sharedLayout := eq_ok_get _
  have last : sharedLayout.groups.getLast? = some sharedData := by decide
  exact ⟨last, brkAddr_follows_iff parsed laid last⟩

/-- A file of 128 bytes with four bytes of text and a bss of two segments. -/
def largeBssImage : Buffer := fun i =>
  [0x07, 0x01, 0, 0, 0, 0, 48, 0, 0, 0, 4, 0, 0, 0, 0, 0, 2, 0, 0, 0].getD i 0

/-- Its header. -/
def largeBssHdr : LoutHdr := (loutParse largeBssImage 128).toOption.get (by decide)

/-- Its layout: one group from segment 0 on. -/
def largeBssLayout : LoutLayout := (loutLayout largeBssHdr).toOption.get (by decide)

/-- The group ends at offset 4 of segment 2, and the break is in the text of segment 0. -/
theorem largeBss_break : ∃ g, loutParse largeBssImage 128 = .ok largeBssHdr ∧
    loutLayout largeBssHdr = .ok largeBssLayout ∧ largeBssLayout.groups.getLast? = some g ∧
    g.base + largeBssHdr.lastDemand = 0x20004 ∧ uAddr g.brkAddr 0 = (0, 4) ∧
    farUnused g.brkAddr = 2 ∧ ¬ g.BreakFollows (g.base + largeBssHdr.lastDemand) := by
  refine ⟨largeBssLayout.groups.getLast (by decide), eq_ok_get _, eq_ok_get _,
    by decide, by decide, by decide, by decide, ?_⟩
  rintro ⟨-, unused⟩
  revert unused
  decide

end C900
