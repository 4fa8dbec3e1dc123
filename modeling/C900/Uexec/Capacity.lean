import C900.Uexec.Layout
import Mathlib.Data.List.Forall2

/-!
# The capacity test of the layout

`lout_layout` adds up the sizes of a group in a C `int`, and the sizes of the bss are bounded
by nothing in the file. `loutLayout_covers_iff` tells the accepted headers whose groups have
the room that the capacity test is there for.
-/

namespace C900

/-! ## What the test is for -/

/-- The exact sizes of the groups by the link mode, bss included. -/
def LoutHdr.demands (h : LoutHdr) : List Int :=
  match (h.flag &&& 0x03).toNat with
  | 0 => [h.ss 0 + h.ss 1 + h.ss 3 + h.ss 4 + (h.ss 2 + h.ss 5)]
  | 1 => [h.ss 0 + h.ss 3, h.ss 1 + h.ss 4 + (h.ss 2 + h.ss 5)]
  | 2 => [h.ss 0 + h.ss 1 + h.ss 2, h.ss 3 + h.ss 4 + h.ss 5]
  | _ => [h.ss 0, h.ss 1 + h.ss 2, h.ss 3, h.ss 4 + h.ss 5]

/-- The number of segments of each group: up to the first one of the next group. -/
def segmentsGiven (lastSeg : Int) : List LoutPlaced → List Int
  | [] => []
  | [g] => [lastSeg + 1 - g.first]
  | g :: next :: rest => (next.first - g.first) :: segmentsGiven lastSeg (next :: rest)

/-- Every group with content has a place in the layout, and its base, its bytes and its bss fit
in the segments it was given, which end by 0x7F. -/
structure LoutLayout.Covers (l : LoutLayout) (h : LoutHdr) : Prop where
  fits : List.Forall₂ (fun demand (place : LoutPlaced × Int) =>
    place.1.base + demand ≤ 65536 * place.2)
      (h.demands.filter (0 < ·)) (l.groups.zip (segmentsGiven l.lastSeg l.groups))
  last : l.lastSeg ≤ 0x7F

/-! ## Covered headers -/

/-- The sizes of a mode add up to the six sections. -/
theorem LoutHdr.demands_sum (h : LoutHdr) : h.demands.sum = h.sections := by
  unfold demands sections
  split <;> simp only [List.sum_cons, List.sum_nil] <;> omega

theorem LoutHdr.demands_length (h : LoutHdr) : h.demands.length ≤ 4 := by
  unfold demands
  split <;> simp

/-- The sizes of the groups are those of the sections. -/
theorem exactGroups_demands {h : LoutHdr} (valid : h.Valid) :
    (exactGroups h).map (fun g => g.span + g.bss) = h.demands := by
  have si := valid.sizes 0
  have pi := valid.sizes 1
  have sd := valid.sizes 3
  have pd := valid.sizes 4
  have first : ∀ (fo ln : Int), 0 ≤ ln → (emptyGroup.exactPiece fo 0 ln).span = ln := by
    intro fo ln size
    rw [(emptyGroup_sound.exactPiece fo 0 rfl size).2, Int.zero_add]
  have second : ∀ (fo ln fo' ln' : Int), 0 ≤ ln → 0 ≤ ln' →
      ((emptyGroup.exactPiece fo 0 ln).exactPiece fo' ln ln').span = ln + ln' := by
    intro fo ln fo' ln' size size'
    obtain ⟨sound, span⟩ := emptyGroup_sound.exactPiece fo 0 rfl size
    exact (sound.exactPiece fo' ln (by omega) size').2
  have bss : ∀ (fo ln : Int), (emptyGroup.exactPiece fo 0 ln).bss = 0 := fun _ _ => rfl
  have bssSecond : ∀ (fo ln fo' ln' : Int),
      ((emptyGroup.exactPiece fo 0 ln).exactPiece fo' ln ln').bss = 0 := fun _ _ _ _ => rfl
  unfold exactGroups LoutHdr.demands
  generalize (h.flag &&& 0x03).toNat = mode
  rcases mode with _ | _ | _ | mode <;>
    simp only [List.map_cons, List.map_nil, bss, bssSecond, Int.add_zero]
  · rw [first _ _ (by omega)]
  · rw [second _ _ _ _ si sd, second _ _ _ _ pi pd]
  · rw [first _ _ (by omega), first _ _ (by omega)]
  · rw [first _ _ si, first _ _ pi, first _ _ sd, first _ _ pd]

/-- Groups laid end to end are given the segments they ask for. -/
theorem segmentsGiven_eq {start lastSeg : Int} {groups : List LoutPlaced}
    (laid : EndToEnd LoutPlaced.first LoutPlaced.exactNseg start groups (lastSeg + 1)) :
    segmentsGiven lastSeg groups = groups.map LoutPlaced.exactNseg := by
  induction groups generalizing start with
  | nil => rfl
  | cons g rest inductionHypothesis =>
    obtain ⟨begins, later⟩ := laid
    have others := inductionHypothesis later
    cases rest with
    | nil =>
      have ends : start + g.exactNseg = lastSeg + 1 := later
      have given : lastSeg + 1 - g.first = g.exactNseg := by omega
      exact congrArg (fun n => [n]) given
    | cons next rest =>
      have adjacent : next.first = start + g.exactNseg := later.1
      have given : next.first - g.first = g.exactNseg := by omega
      exact congrArg₂ List.cons given others

/-- The exact layout covers the groups. -/
theorem exactLayout_covers {h : LoutHdr} (valid : h.Valid) {l : LoutLayout}
    (laid : exactLayout h = .ok l) : l.Covers h := by
  have placing := exactLayout_placing laid
  have last := placing.last (by have narrow := valid.entrySeg; omega)
  have survives : ∀ g ∈ exactGroups h, decide (0 < g.span + g.bss) = g.nonempty := fun g member => by
    obtain ⟨sound, -⟩ := exactGroups_sound valid g member
    have span := sound.packed.start_le_stop sound.pieces
    have bss := sound.bss
    unfold LoutGroup.nonempty
    rw [← Bool.decide_or, decide_eq_decide]
    omega
  have sizes : h.demands.filter (0 < ·) =
      l.groups.map ((fun g => g.span + g.bss) ∘ LoutPlaced.group) := by
    rw [← exactGroups_demands valid, List.filter_map, ← List.map_map, placing.order]
    exact congrArg _ (List.filter_congr survives)
  refine ⟨?_, last⟩
  rw [segmentsGiven_eq placing.consecutive, ← List.map_prod_left_eq_zip, sizes, List.forall₂_map_left_iff,
    List.forall₂_map_right_iff, List.forall₂_same]
  intro g _
  have room := g.exactNseg_spec.2
  unfold LoutPlaced.total at room
  dsimp only [Function.comp_apply]
  omega

/-- The surviving groups are placed in their order, each in a segment of the machine and from
no negative base. -/
theorem placeGroups_placed {h : LoutHdr} {i : Nat} {start : Int} {groups : List LoutGroup}
    {l : LoutLayout} (begins : 0 ≤ start) (placed : placeGroups h i start groups = .ok l) :
    l.groups.map LoutPlaced.group = groups ∧ ∀ g ∈ l.groups, 0 ≤ g.base ∧ g.first ≤ 0x7F := by
  induction groups generalizing i start l with
  | nil =>
    obtain rfl := Except.ok.inj placed
    exact ⟨rfl, fun g member => absurd member List.not_mem_nil⟩
  | cons g rest inductionHypothesis =>
    have size : 0 < (h.slot i (BitVec.ofInt 8 start) g).nseg := by
      unfold LoutPlaced.nseg
      dsimp only
      split_ifs <;> omega
    unfold placeGroups at placed
    dsimp only at placed
    split_ifs at placed with fits
    split at placed
    next => cases placed
    next later laid =>
      obtain rfl := Except.ok.inj placed
      obtain ⟨order, others⟩ := inductionHypothesis (by omega) laid
      refine ⟨congrArg (g :: ·) order, fun x member => ?_⟩
      rcases List.mem_cons.mp member with rfl | inRest
      · refine ⟨?_, ?_⟩
        · unfold LoutHdr.slot
          dsimp only
          split_ifs <;> omega
        · unfold LoutPlaced.first LoutHdr.slot
          rw [BitVec.toNat_ofInt]
          omega
      · exact others x inRest

/-- What `lout_layout` lays out are the surviving groups. -/
theorem loutLayout_placed {h : LoutHdr} {l : LoutLayout} (laid : loutLayout h = .ok l) :
    l.groups.map LoutPlaced.group = (loutGroups h).filter LoutGroup.nonempty ∧
      ∀ g ∈ l.groups, 0 ≤ g.base ∧ g.first ≤ 0x7F := by
  unfold loutLayout at laid
  split at laid
  next => cases laid
  next => exact placeGroups_placed (Int.natCast_nonneg _) laid

/-- A group is given 255 segments at most. -/
theorem segmentsGiven_le {lastSeg : Int} (last : lastSeg ≤ 0x7F) (groups : List LoutPlaced) :
    ∀ n ∈ segmentsGiven lastSeg groups, n ≤ 255 := by
  have number : ∀ g : LoutPlaced, 0 ≤ g.first ∧ g.first ≤ 255 := fun g => by
    have narrow := g.seg.isLt
    unfold LoutPlaced.first
    omega
  induction groups with
  | nil => exact fun n member => absurd member List.not_mem_nil
  | cons g rest inductionHypothesis =>
    have own := number g
    cases rest with
    | nil =>
      intro n member
      obtain rfl := List.mem_singleton.mp member
      omega
    | cons next rest =>
      have following := number next
      intro n member
      rcases List.mem_cons.mp member with rfl | later
      · omega
      · exact inductionHypothesis n later

/-- Demands that are met in places of a bounded size are bounded together. -/
theorem sum_le_of_forall₂ {demands : List Int} {places : List (LoutPlaced × Int)}
    (met : List.Forall₂ (fun demand (place : LoutPlaced × Int) =>
      place.1.base + demand ≤ 65536 * place.2) demands places)
    (bases : ∀ p ∈ places, 0 ≤ p.1.base ∧ p.2 ≤ 255) :
    demands.sum ≤ 2 ^ 24 * demands.length := by
  induction met with
  | nil => exact Int.le_refl 0
  | @cons demand place demands places own _ inductionHypothesis =>
    have bound := bases place List.mem_cons_self
    have others := inductionHypothesis fun p member => bases p (List.mem_cons_of_mem place member)
    rw [List.sum_cons, List.length_cons]
    push_cast
    omega

/-- The positive numbers of a list that has no others sum up to its sum. -/
theorem sum_filter_pos {numbers : List Int} (nonneg : ∀ n ∈ numbers, 0 ≤ n) :
    (numbers.filter (0 < ·)).sum = numbers.sum := by
  induction numbers with
  | nil => rfl
  | cons n rest inductionHypothesis =>
    have own := nonneg n List.mem_cons_self
    have others := inductionHypothesis fun x member => nonneg x (List.mem_cons_of_mem n member)
    by_cases positive : 0 < n
    · simp only [List.filter_cons, positive, decide_true, if_true, List.sum_cons, others]
    · have zero : n = 0 := by omega
      simp only [List.filter_cons, zero, Int.lt_irrefl, decide_false, Bool.false_eq_true, if_false,
        List.sum_cons, others, Int.zero_add]

/-- A covered header is bounded. -/
theorem LoutLayout.Covers.bounded {h : LoutHdr} {l : LoutLayout} (valid : h.Valid)
    (laid : loutLayout h = .ok l) (covers : l.Covers h) : h.Bounded := by
  obtain ⟨-, places⟩ := loutLayout_placed laid
  have met := sum_le_of_forall₂ covers.fits fun p member =>
    ⟨(places p.1 (List.of_mem_zip member).1).1,
      segmentsGiven_le covers.last l.groups p.2 (List.of_mem_zip member).2⟩
  have nonneg : ∀ n ∈ h.demands, 0 ≤ n := by
    rw [← exactGroups_demands valid]
    intro n member
    obtain ⟨g, inGroups, rfl⟩ := List.mem_map.mp member
    obtain ⟨sound, -⟩ := exactGroups_sound valid g inGroups
    have span := sound.packed.start_le_stop sound.pieces
    have bss := sound.bss
    omega
  have count : (h.demands.filter (0 < ·)).length ≤ 4 :=
    Nat.le_trans (List.length_filter_le _ _) h.demands_length
  have narrow := h.entryOff.isLt
  rw [sum_filter_pos nonneg, h.demands_sum] at met
  unfold LoutHdr.Bounded
  omega

/-- A header that `lout_layout` accepts has its groups covered exactly when its sums stay in
the range of an `int`. -/
theorem loutLayout_covers_iff {h : LoutHdr} (loadable : Loadable h) {l : LoutLayout}
    (laid : loutLayout h = .ok l) : l.Covers h ↔ h.Bounded := by
  have valid := loadable.valid
  constructor
  · intro covers
    exact covers.bounded valid laid
  · intro bounded
    rw [loutLayout_eq valid bounded] at laid
    exact exactLayout_covers valid laid

/-- A file of 128 bytes with four bytes of text and 2^31 - 1 bytes of bss. -/
def hugeBssImage : Buffer := fun i =>
  [0x07, 0x01, 0, 0, 0, 0, 48, 0, 0, 0, 4, 0, 0, 0, 0, 0, 0xFF, 0x7F, 0xFF, 0xFF].getD i 0

/-- Its header. -/
def hugeBssHdr : LoutHdr := (loutParse hugeBssImage 128).toOption.get (by decide)

theorem loutLayout_covers_iff_hugeBss :
    ∃ l, loutLayout hugeBssHdr = .ok l ∧ (l.Covers hugeBssHdr ↔ hugeBssHdr.Bounded) :=
  have parsed : loutParse hugeBssImage 128 = .ok hugeBssHdr := eq_ok_get _
  have laid := eq_ok_get (x := loutLayout hugeBssHdr) (by decide)
  ⟨_, laid, loutLayout_covers_iff (.runExec parsed) laid⟩

/-- The group of 2^31 + 3 bytes is laid out in segment 0. -/
theorem hugeBss_bypasses : Loadable hugeBssHdr ∧
    ∃ l, loutLayout hugeBssHdr = .ok l ∧ l.lastSeg = 0 ∧ ¬l.Covers hugeBssHdr := by
  let l : LoutLayout := (loutLayout hugeBssHdr).toOption.get (by decide)
  have laid : loutLayout hugeBssHdr = .ok l := eq_ok_get _
  have parsed : loutParse hugeBssImage 128 = .ok hugeBssHdr := eq_ok_get _
  refine ⟨.runExec parsed, l, laid, by decide, fun covers => ?_⟩
  have bounded := covers.bounded (loutParse_valid parsed) laid
  have huge : hugeBssHdr.sections = 2 ^ 31 + 3 := by decide
  unfold LoutHdr.Bounded at bounded
  omega

end C900
