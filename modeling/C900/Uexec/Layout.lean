import C900.Logic.Packing
import C900.Uexec.Lout

/-!
# The layout of an executable file

In each of the four link modes the pieces of the groups are laid end to end in memory and
cut up the initialised part of the file, and the surviving groups are laid end to end in
the segments from the entry segment on. The load loops then send the bytes of the file to
places of their own.
-/

namespace C900

open HostInt

/-! ## Headers -/

/-- What `lout_parse` promises of a header. -/
structure LoutHdr.Valid (h : LoutHdr) : Prop where
  sizes : ∀ i, 0 ≤ h.ss i
  tbase : 0 ≤ h.tbase ∧ h.tbase ≤ 88
  entrySeg : h.entrySeg.toNat ≤ 0x7F

/-- `lout_check` accepts no negative size. -/
theorem loutCheck_ok {len : Nat} {h k : LoutHdr} (accepted : loutCheck len h = .ok k) :
    k = h ∧ ∀ i, 0 ≤ h.ss i := by
  unfold loutCheck at accepted
  split at accepted
  next negative => exact absurd accepted nofun
  next none =>
    have sizes : ∀ i, 0 ≤ h.ss i := fun i => by
      have small := List.find?_eq_none.mp none i (List.mem_finRange i)
      simpa using small
    dsimp only at accepted
    split_ifs at accepted
    exact ⟨(Except.ok.inj accepted).symm, sizes⟩

theorem and_7F_le (v : Byte) : (v &&& 0x7F).toNat ≤ 0x7F := by
  rw [BitVec.toNat_and]
  exact Nat.and_le_right

/-- `lout_parse` accepts valid headers only. -/
theorem loutParse_valid {b : Buffer} {len : Nat} {h : LoutHdr} (parsed : loutParse b len = .ok h) :
    h.Valid := by
  unfold loutParse at parsed
  split_ifs at parsed with short native magic legacy
  · obtain ⟨rfl, sizes⟩ := loutCheck_ok parsed
    have base : (0 : Int) ≤ 48 ∧ (48 : Int) ≤ 88 := by decide
    exact ⟨sizes, base, and_7F_le _⟩
  · obtain ⟨rfl, sizes⟩ := loutCheck_ok parsed
    have base : be16 b 6 = 88 := not_not.mp (not_or.mp legacy).2
    refine ⟨sizes, ?_, and_7F_le _⟩
    dsimp only
    omega

/-! ## The layout in exact integers -/

/-- A piece of a group. -/
def LoutGroup.exactPiece (g : LoutGroup) (fo mo ln : Int) : LoutGroup :=
  { g with
    p := if 0 < ln then g.p ++ [⟨fo, mo, ln⟩] else g.p
    span := if g.span < mo + ln then mo + ln else g.span }

/-- The groups of a header. -/
def exactGroups (h : LoutHdr) : List LoutGroup :=
  let si := h.ss 0
  let pi := h.ss 1
  let bi := h.ss 2
  let sd := h.ss 3
  let pd := h.ss 4
  let bd := h.ss 5
  let fSi := h.tbase
  let fPi := fSi + si
  let fSd := fPi + pi
  let fPd := fSd + sd
  match (h.flag &&& 0x03).toNat with
  | 0 => [{ emptyGroup.exactPiece fSi 0 (si + pi + sd + pd) with bss := bi + bd }]
  | 1 =>
    [(emptyGroup.exactPiece fSi 0 si).exactPiece fSd si sd,
      { (emptyGroup.exactPiece fPi 0 pi).exactPiece fPd pi pd with bss := bi + bd }]
  | 2 =>
    [{ emptyGroup.exactPiece fSi 0 (si + pi) with bss := bi },
      { emptyGroup.exactPiece fSd 0 (sd + pd) with bss := bd }]
  | _ =>
    [emptyGroup.exactPiece fSi 0 si, { emptyGroup.exactPiece fPi 0 pi with bss := bi },
      emptyGroup.exactPiece fSd 0 sd, { emptyGroup.exactPiece fPd 0 pd with bss := bd }]

/-- The bytes of a group, its bss and what lies below its base. -/
def LoutPlaced.total (g : LoutPlaced) : Int := g.base + g.group.span + g.group.bss

/-- The segments of a group. -/
def LoutPlaced.exactNseg (g : LoutPlaced) : Int :=
  let segments := (g.total + 0xFFFF) / 0x10000
  if segments < 1 then 1 else segments

/-- The surviving groups in their segments, from group `i` and segment `segN` on. -/
def placeExact (h : LoutHdr) : Nat → Int → List LoutGroup → Except LoutError LoutLayout
  | _, segN, [] => .ok ⟨[], segN - 1⟩
  | i, segN, g :: rest =>
    let placed : LoutPlaced :=
      ⟨g, BitVec.ofInt 8 segN, if i = 0 then (h.entryOff.toNat : Int) else 0⟩
    if 0x7F < segN + placed.exactNseg - 1 then
      .error (.pastSegments i segN (segN + placed.exactNseg - 1))
    else
      match placeExact h (i + 1) (segN + placed.exactNseg) rest with
      | .error e => .error e
      | .ok l => .ok ⟨placed :: l.groups, l.lastSeg⟩

/-- The layout in exact integers: what the sums of `lout_layout` are for. It is the layout of
the program where they stay in the range of an `int` (`loutLayout_eq`). -/
def exactLayout (h : LoutHdr) : Except LoutError LoutLayout :=
  match (exactGroups h).filter LoutGroup.nonempty with
  | [] => .error .noContent
  | groups => placeExact h 0 h.entrySeg.toNat groups

/-! ## Groups -/

/-- The byte of the file is in the piece. -/
def LoutPiece.has (x : Int) (p : LoutPiece) : Bool := p.foff ≤ x && x < p.foff + p.len

/-- A group whose pieces fill its span. -/
structure LoutGroup.Sound (g : LoutGroup) : Prop where
  pieces : ∀ p ∈ g.p, 0 < p.len
  packed : EndToEnd LoutPiece.moff LoutPiece.len 0 g.p g.span
  bss : 0 ≤ g.bss

theorem emptyGroup_sound : emptyGroup.Sound :=
  ⟨fun _ member => absurd member List.not_mem_nil, rfl, Int.le_refl 0⟩

/-- A piece at the end of a group. -/
theorem LoutGroup.Sound.exactPiece {g : LoutGroup} (sound : g.Sound) (fo mo : Int) {ln : Int}
    (next : mo = g.span) (size : 0 ≤ ln) :
    (g.exactPiece fo mo ln).Sound ∧ (g.exactPiece fo mo ln).span = mo + ln := by
  unfold LoutGroup.exactPiece
  by_cases some : 0 < ln
  · have grows : g.span < mo + ln := by omega
    rw [if_pos some, if_pos grows]
    refine ⟨⟨fun p member => ?_, ?_, sound.bss⟩, rfl⟩
    · rcases List.mem_append.mp member with old | new
      · exact sound.pieces p old
      · rw [List.mem_singleton.mp new]
        exact some
    · have laid := sound.packed.append_singleton (a := ⟨fo, mo, ln⟩) next
      dsimp only at laid ⊢
      rw [next] at laid ⊢
      exact laid
  · have stays : ¬g.span < mo + ln := by omega
    rw [if_neg some, if_neg stays]
    refine ⟨sound, ?_⟩
    dsimp only
    omega

/-- The bss of a group. -/
theorem LoutGroup.Sound.with_bss {g : LoutGroup} (sound : g.Sound) {bss : Int} (size : 0 ≤ bss) :
    ({ g with bss := bss } : LoutGroup).Sound := ⟨sound.pieces, sound.packed, size⟩

/-- The six sections with their bss. -/
def LoutHdr.sections (h : LoutHdr) : Int :=
  h.ss 0 + h.ss 1 + h.ss 2 + h.ss 3 + h.ss 4 + h.ss 5

/-- The groups of the four link modes. -/
theorem exactGroups_sound {h : LoutHdr} (valid : h.Valid) :
    ∀ g ∈ exactGroups h, g.Sound ∧ g.span + g.bss ≤ h.sections := by
  have si := valid.sizes 0
  have pi := valid.sizes 1
  have bi := valid.sizes 2
  have sd := valid.sizes 3
  have pd := valid.sizes 4
  have bd := valid.sizes 5
  have single : ∀ fo ln bss, 0 ≤ ln → 0 ≤ bss → ln + bss ≤ h.sections →
      ({ emptyGroup.exactPiece fo 0 ln with bss := bss } : LoutGroup).Sound ∧
        (emptyGroup.exactPiece fo 0 ln).span + bss ≤ h.sections := fun fo ln bss size bssSize within => by
    obtain ⟨sound, span⟩ := emptyGroup_sound.exactPiece fo 0 rfl size
    exact ⟨sound.with_bss bssSize, by omega⟩
  have double : ∀ fo ln fo' ln' bss, 0 ≤ ln → 0 ≤ ln' → 0 ≤ bss → ln + ln' + bss ≤ h.sections →
      ({ (emptyGroup.exactPiece fo 0 ln).exactPiece fo' ln ln' with bss := bss } : LoutGroup).Sound ∧
        ((emptyGroup.exactPiece fo 0 ln).exactPiece fo' ln ln').span + bss ≤ h.sections :=
    fun fo ln fo' ln' bss size size' bssSize within => by
      obtain ⟨sound, span⟩ := emptyGroup_sound.exactPiece fo 0 rfl size
      obtain ⟨both, total⟩ := sound.exactPiece fo' ln (by omega) size'
      exact ⟨both.with_bss bssSize, by omega⟩
  unfold LoutHdr.sections at *
  intro g member
  unfold exactGroups at member
  dsimp only at member
  split at member
  · obtain rfl := List.mem_singleton.mp member
    exact single _ _ _ (by omega) (by omega) (by omega)
  · simp only [List.mem_cons, List.not_mem_nil, or_false] at member
    rcases member with rfl | rfl
    · exact double _ _ _ _ 0 si sd (Int.le_refl 0) (by omega)
    · exact double _ _ _ _ _ pi pd (by omega) (by omega)
  · simp only [List.mem_cons, List.not_mem_nil, or_false] at member
    rcases member with rfl | rfl
    · exact single _ _ _ (by omega) bi (by omega)
    · exact single _ _ _ (by omega) bd (by omega)
  · simp only [List.mem_cons, List.not_mem_nil, or_false] at member
    rcases member with rfl | rfl | rfl | rfl
    · exact single _ _ 0 si (Int.le_refl 0) (by omega)
    · exact single _ _ _ pi bi (by omega)
    · exact single _ _ 0 sd (Int.le_refl 0) (by omega)
    · exact single _ _ _ pd bd (by omega)

/-- Where the initialised sections end in the file. -/
def LoutHdr.fileEnd (h : LoutHdr) : Int := h.tbase + h.ss 0 + h.ss 1 + h.ss 3 + h.ss 4

/-- A piece counts for the bytes of its range. -/
theorem LoutGroup.exactPiece_count (g : LoutGroup) (fo mo ln x : Int) :
    (g.exactPiece fo mo ln).p.countP (LoutPiece.has x) =
      g.p.countP (LoutPiece.has x) + if fo ≤ x ∧ x < fo + ln then 1 else 0 := by
  unfold LoutGroup.exactPiece
  by_cases some : 0 < ln
  · rw [if_pos some]
    dsimp only
    rw [List.countP_append, List.countP_singleton]
    simp only [LoutPiece.has, Bool.and_eq_true, decide_eq_true_eq]
  · have nothing : ¬(fo ≤ x ∧ x < fo + ln) := by omega
    rw [if_neg some, if_neg nothing]
    rfl

/-- Every byte of the initialised sections is in one piece. -/
theorem exactGroups_count {h : LoutHdr} (valid : h.Valid) (x : Int) :
    ((exactGroups h).flatMap LoutGroup.p).countP (LoutPiece.has x) =
      if h.tbase ≤ x ∧ x < h.fileEnd then 1 else 0 := by
  have si := valid.sizes 0
  have pi := valid.sizes 1
  have sd := valid.sizes 3
  have pd := valid.sizes 4
  have none : emptyGroup.p.countP (LoutPiece.has x) = 0 := rfl
  unfold exactGroups LoutHdr.fileEnd
  dsimp only
  split <;>
    simp only [List.flatMap_cons, List.flatMap_nil, List.append_nil, List.countP_append,
      LoutGroup.exactPiece_count, none] <;>
    split_ifs <;> omega

/-- A group without a segment has no pieces. -/
theorem LoutGroup.Sound.pieces_of_empty {g : LoutGroup} (sound : g.Sound)
    (empty : g.nonempty = false) : g.p = [] := by
  obtain ⟨noSpan, -⟩ := Bool.or_eq_false_iff.mp empty
  have span : ¬0 < g.span := of_decide_eq_false noSpan
  cases parts : g.p with
  | nil => rfl
  | cons p rest =>
    have member : p ∈ g.p := by
      rw [parts]
      exact List.mem_cons_self
    have size := sound.pieces p member
    have within := sound.packed.bounds sound.pieces member
    omega

/-- Dropping the empty groups drops no piece. -/
theorem filter_nonempty_pieces {groups : List LoutGroup} (sound : ∀ g ∈ groups, g.Sound) :
    (groups.filter LoutGroup.nonempty).flatMap LoutGroup.p = groups.flatMap LoutGroup.p := by
  induction groups with
  | nil => rfl
  | cons g rest inductionHypothesis =>
    have others := inductionHypothesis fun k member => sound k (List.mem_cons_of_mem g member)
    cases survives : g.nonempty with
    | true => rw [List.filter_cons_of_pos survives, List.flatMap_cons, List.flatMap_cons, others]
    | false =>
      have nothing := (sound g List.mem_cons_self).pieces_of_empty survives
      rw [List.filter_cons_of_neg (by rw [survives]; exact Bool.false_ne_true), List.flatMap_cons,
        others, nothing]
      rfl

/-! ## Segments -/

/-- The first segment of a group. -/
def LoutPlaced.first (g : LoutPlaced) : Int := g.seg.toNat

/-- A group has a segment, and room for its bytes. -/
theorem LoutPlaced.exactNseg_spec (g : LoutPlaced) : 0 < g.exactNseg ∧ g.total ≤ g.exactNseg * 65536 := by
  unfold exactNseg
  dsimp only
  split_ifs <;> omega

/-- The groups laid end to end in the segments, from group `i` and segment `start` on. -/
structure Placing (h : LoutHdr) (i : Nat) (start : Int) (groups : List LoutGroup)
    (l : LoutLayout) : Prop where
  order : l.groups.map LoutPlaced.group = groups
  consecutive : EndToEnd LoutPlaced.first LoutPlaced.exactNseg start l.groups (l.lastSeg + 1)
  last : start ≤ 0x80 → l.lastSeg ≤ 0x7F
  base : ∀ k g, l.groups[k]? = some g → g.base = if i + k = 0 then (h.entryOff.toNat : Int) else 0

/-- The layout of a group and of those behind it. -/
theorem placeExact_cons {h : LoutHdr} {i : Nat} {start : Int} {g : LoutGroup}
    {rest : List LoutGroup} (own : LoutPlaced)
    (here : own = ⟨g, BitVec.ofInt 8 start, if i = 0 then (h.entryOff.toNat : Int) else 0⟩) :
    placeExact h i start (g :: rest) =
      if 0x7F < start + own.exactNseg - 1 then
        .error (.pastSegments i start (start + own.exactNseg - 1))
      else
        match placeExact h (i + 1) (start + own.exactNseg) rest with
        | .error e => .error e
        | .ok l => .ok ⟨own :: l.groups, l.lastSeg⟩ := here ▸ rfl

/-- The groups are laid end to end. -/
theorem placeExact_placing {h : LoutHdr} {i : Nat} {start : Int} {groups : List LoutGroup}
    {l : LoutLayout} (begins : 0 ≤ start) (placed : placeExact h i start groups = .ok l) :
    Placing h i start groups l := by
  induction groups generalizing i start l with
  | nil =>
    obtain rfl := Except.ok.inj placed
    refine ⟨rfl, ?_, fun bound => ?_, fun k g found => ?_⟩
    · exact (Int.sub_add_cancel start 1).symm
    · dsimp only
      omega
    · cases List.getElem?_nil.symm.trans found
  | cons g rest inductionHypothesis =>
    let own : LoutPlaced := ⟨g, BitVec.ofInt 8 start, if i = 0 then (h.entryOff.toNat : Int) else 0⟩
    have size := own.exactNseg_spec.1
    rw [placeExact_cons own rfl] at placed
    split_ifs at placed with fits
    split at placed
    next => cases placed
    next later laid =>
      obtain rfl := Except.ok.inj placed
      obtain ⟨order, consecutive, last, base⟩ := inductionHypothesis (by omega) laid
      have number : own.first = start := by
        unfold LoutPlaced.first
        rw [BitVec.toNat_ofInt]
        omega
      refine ⟨congrArg (g :: ·) order, ⟨number, consecutive⟩, fun _ => last (by omega), ?_⟩
      intro k found inSlot
      cases k with
      | zero =>
        obtain rfl := Option.some.inj inSlot
        rfl
      | succ k =>
        rw [base k found inSlot, if_neg (by omega), if_neg (by omega)]

/-- What the exact layout is. -/
theorem exactLayout_placing {h : LoutHdr} {l : LoutLayout} (laid : exactLayout h = .ok l) :
    Placing h 0 h.entrySeg.toNat ((exactGroups h).filter LoutGroup.nonempty) l := by
  unfold exactLayout at laid
  split at laid
  next => exact absurd laid nofun
  next => exact placeExact_placing (Int.natCast_nonneg _) laid

/-! ## Places of their own -/

/-- The location is in the segments of the group. -/
def LoutPlaced.Owns (g : LoutPlaced) (place : Byte × Word) : Prop :=
  g.first ≤ place.1.toNat ∧ place.1.toNat < g.first + g.exactNseg

/-- An address below the total of a group whose segments are segments of the machine. -/
structure LoutPlaced.Room (g : LoutPlaced) (a : Int) : Prop where
  start : 0 ≤ a
  stop : a < g.total
  segments : g.first + g.exactNseg ≤ 0x80

namespace LoutPlaced.Room

variable {g : LoutPlaced} {a : Int}

/-- The segment and the offset of an address. -/
theorem runExecAt (room : g.Room a) :
    ((runExecAt g a).1.toNat : Int) = g.first + a / 65536 ∧
      ((runExecAt g a).2.toNat : Int) = a % 65536 := by
  obtain ⟨start, stop, segments⟩ := room
  have space := g.exactNseg_spec.2
  have seg : 0 ≤ g.first := Int.natCast_nonneg _
  have number : (g.seg.toNat : Int) = g.first := rfl
  unfold C900.runExecAt gw8At
  dsimp only
  rw [BitVec.toNat_ofInt, BitVec.toNat_ofInt, number]
  omega

/-- A byte of a group is in its segments. -/
theorem owns (room : g.Room a) : g.Owns (C900.runExecAt g a) := by
  obtain ⟨seg, -⟩ := room.runExecAt
  obtain ⟨start, stop, segments⟩ := room
  have space := g.exactNseg_spec.2
  unfold Owns
  omega

/-- The two load loops put a byte at the same place. -/
theorem segImageAt (room : g.Room a) : segImageAt g a = C900.runExecAt g a := by
  obtain ⟨start, stop, segments⟩ := room
  have space := g.exactNseg_spec.2
  have seg : 0 ≤ g.first := Int.natCast_nonneg _
  have number : (g.seg.toNat : Int) = g.first := rfl
  have high : ((BitVec.ofInt 8 (g.seg.toNat + a / 65536)).toNat : Int) = g.seg.toNat + a / 65536 := by
    rw [BitVec.toNat_ofInt, number]
    omega
  have low : ((BitVec.ofInt 16 (a % 65536)).toNat : Int) = a % 65536 := by
    rw [BitVec.toNat_ofInt]
    omega
  unfold C900.segImageAt C900.runExecAt
  rw [high, low]

end LoutPlaced.Room

/-- The pieces of a layout. -/
def LoutLayout.pieces (l : LoutLayout) : List LoutPiece := l.groups.flatMap (·.group.p)

/-- The load loops write the byte at `x` in the file to a place. -/
def LoutLayout.Loads (l : LoutLayout) (x : Int) (place : Byte × Word) : Prop :=
  ∃ g ∈ l.groups, ∃ p ∈ g.group.p, ∃ j, 0 ≤ j ∧ j < p.len ∧ x = p.foff + j ∧
    place = runExecAt g (g.addr p j)

/-- A layout that loads each byte of the file once, each group in segments of its own. -/
structure Laid (h : LoutHdr) (l : LoutLayout) : Prop where
  /-- The pieces have each byte of the initialised sections once, and no other byte. -/
  partition : ∀ x, l.pieces.countP (LoutPiece.has x) =
    if h.tbase ≤ x ∧ x < h.fileEnd then 1 else 0
  injective : ∀ {x y place}, l.Loads x place → l.Loads y place → x = y
  loaded : ∀ g ∈ l.groups, ∀ p ∈ g.group.p, ∀ j, 0 ≤ j → j < p.len →
    g.Owns (runExecAt g (g.addr p j)) ∧ segImageAt g (g.addr p j) = runExecAt g (g.addr p j)
  bss : ∀ g ∈ l.groups, ∀ j, 0 ≤ j → j < g.group.bss →
    g.Owns (runExecAt g (g.base + g.group.span + j))
  apart : ∀ {i k : Nat} {g o : LoutPlaced} {place : Byte × Word}, l.groups[i]? = some g →
    l.groups[k]? = some o → g.Owns place → o.Owns place → i = k
  order : l.groups.map LoutPlaced.group = (exactGroups h).filter LoutGroup.nonempty
  consecutive : EndToEnd LoutPlaced.first LoutPlaced.exactNseg h.entrySeg.toNat l.groups (l.lastSeg + 1)
  last : ∀ g ∈ l.groups, g.first + g.exactNseg - 1 ≤ l.lastSeg ∧ l.lastSeg ≤ 0x7F
  /-- The sums of `lout_layout` are C `int` values. -/
  noOverflow : h.fileEnd < 2 ^ 31 ∧ ∀ g ∈ l.groups, g.total + 0xFFFF < 2 ^ 31

namespace Placing

variable {h : LoutHdr} {l : LoutLayout}

/-- The group of a slot. -/
theorem sound (valid : h.Valid)
    (placing : Placing h 0 h.entrySeg.toNat ((exactGroups h).filter LoutGroup.nonempty) l)
    {g : LoutPlaced} (member : g ∈ l.groups) :
    g.group.Sound ∧ g.group.span + g.group.bss ≤ h.sections ∧ 0 ≤ g.base ∧
      g.base ≤ h.entryOff.toNat ∧ g.first + g.exactNseg - 1 ≤ l.lastSeg ∧ l.lastSeg ≤ 0x7F := by
  have kept : g.group ∈ (exactGroups h).filter LoutGroup.nonempty := by
    rw [← placing.order]
    exact List.mem_map_of_mem member
  obtain ⟨sound, size⟩ := exactGroups_sound valid g.group (List.mem_filter.mp kept).1
  obtain ⟨k, inSlot⟩ := List.mem_iff_getElem?.mp member
  have base := placing.base k g inSlot
  have positive : ∀ x ∈ l.groups, 0 < x.exactNseg := fun x _ => x.exactNseg_spec.1
  have within := placing.consecutive.bounds positive member
  have last := placing.last (by have narrow := valid.entrySeg; omega)
  refine ⟨sound, size, ?_, ?_, by omega, last⟩
  · split_ifs at base <;> omega
  · split_ifs at base <;> omega

/-- The addresses of a group have room. -/
theorem room (valid : h.Valid)
    (placing : Placing h 0 h.entrySeg.toNat ((exactGroups h).filter LoutGroup.nonempty) l)
    {g : LoutPlaced} (member : g ∈ l.groups) {a : Int} (start : 0 ≤ a) (stop : a < g.total) :
    g.Room a := by
  obtain ⟨-, -, -, -, segments, last⟩ := placing.sound valid member
  exact ⟨start, stop, by omega⟩

/-- The address of a loaded byte. -/
theorem room_piece (valid : h.Valid)
    (placing : Placing h 0 h.entrySeg.toNat ((exactGroups h).filter LoutGroup.nonempty) l)
    {g : LoutPlaced} (member : g ∈ l.groups) {p : LoutPiece} (inGroup : p ∈ g.group.p) {j : Int}
    (start : 0 ≤ j) (stop : j < p.len) : g.Room (g.addr p j) := by
  obtain ⟨sound, -, base, -⟩ := placing.sound valid member
  have within := sound.packed.bounds sound.pieces inGroup
  have bss := sound.bss
  refine placing.room valid member ?_ ?_
  · unfold LoutPlaced.addr
    omega
  · unfold LoutPlaced.addr LoutPlaced.total
    omega

end Placing

/-- The exact layout of a header lays the file out. -/
theorem Laid.of_exactLayout {h : LoutHdr} (valid : h.Valid)
    (small : h.sections + h.entryOff.toNat < 2 ^ 31 - 65536) {l : LoutLayout}
    (laid : exactLayout h = .ok l) : Laid h l := by
  have placing := exactLayout_placing laid
  have positive : ∀ x ∈ l.groups, 0 < x.exactNseg := fun x _ => x.exactNseg_spec.1
  have apart : ∀ {i k : Nat} {g o : LoutPlaced} {place : Byte × Word}, l.groups[i]? = some g →
      l.groups[k]? = some o → g.Owns place → o.Owns place → i = k := fun inI inK ownsI ownsK =>
    placing.consecutive.unique positive inI inK ownsI ownsK
  refine ⟨fun x => ?_, ?_, ?_, ?_, apart, placing.order, placing.consecutive, ?_, ?_, ?_⟩
  · have pieces : l.pieces = ((exactGroups h).filter LoutGroup.nonempty).flatMap LoutGroup.p := by
      rw [← placing.order, List.flatMap_map]
      rfl
    rw [pieces, filter_nonempty_pieces fun g member => (exactGroups_sound valid g member).1]
    exact exactGroups_count valid x
  · rintro x y place ⟨g, inG, p, inP, i, startI, stopI, rfl, atX⟩
      ⟨o, inO, q, inQ, j, startJ, stopJ, rfl, atY⟩
    have roomX := placing.room_piece valid inG inP startI stopI
    have roomY := placing.room_piece valid inO inQ startJ stopJ
    obtain ⟨m, slotG⟩ := List.mem_iff_getElem?.mp inG
    obtain ⟨n, slotO⟩ := List.mem_iff_getElem?.mp inO
    obtain rfl := apart slotG slotO (atX ▸ roomX.owns) (atY ▸ roomY.owns)
    obtain rfl := Option.some.inj (slotG.symm.trans slotO)
    obtain ⟨segX, offX⟩ := roomX.runExecAt
    obtain ⟨segY, offY⟩ := roomY.runExecAt
    rw [← atX] at segX offX
    rw [← atY] at segY offY
    have address : g.addr p i = g.addr q j := by omega
    unfold LoutPlaced.addr at address
    obtain ⟨sound, -⟩ := placing.sound valid inG
    obtain ⟨s, slotP⟩ := List.mem_iff_getElem?.mp inP
    obtain ⟨t, slotQ⟩ := List.mem_iff_getElem?.mp inQ
    have inP : p.moff ≤ p.moff + i ∧ p.moff + i < p.moff + p.len := by omega
    obtain rfl := sound.packed.unique sound.pieces slotP slotQ inP (by omega)
    obtain rfl := Option.some.inj (slotP.symm.trans slotQ)
    omega
  · intro g inG p inP j start stop
    have room := placing.room_piece valid inG inP start stop
    exact ⟨room.owns, room.segImageAt⟩
  · intro g inG j start stop
    obtain ⟨sound, -, base, -⟩ := placing.sound valid inG
    have span := sound.packed.start_le_stop sound.pieces
    refine (placing.room valid inG ?_ ?_).owns
    · omega
    · unfold LoutPlaced.total
      omega
  · intro g inG
    exact (placing.sound valid inG).2.2.2.2
  · have base := valid.tbase
    have bi := valid.sizes 2
    have bd := valid.sizes 5
    unfold LoutHdr.fileEnd
    unfold LoutHdr.sections at small
    omega
  · intro g inG
    obtain ⟨-, size, -, base, -⟩ := placing.sound valid inG
    unfold LoutPlaced.total
    omega

/-! ## Sums that stay in range -/

/-- The sums of `lout_layout` stay in the range of an `int`. -/
def LoutHdr.Bounded (h : LoutHdr) : Prop := h.sections + h.entryOff.toNat < 2 ^ 31 - 65536

/-- A group takes a piece as in exact sums. -/
theorem LoutGroup.piece_eq (g : LoutGroup) (fo : Int) {mo ln : Int} (start : 0 ≤ mo)
    (size : 0 ≤ ln) (small : mo + ln < 2 ^ 31) : g.piece fo mo ln = g.exactPiece fo mo ln := by
  unfold LoutGroup.piece LoutGroup.exactPiece
  rw [cInt_eq (by omega) small]

/-- The groups of a bounded header. -/
theorem loutGroups_eq {h : LoutHdr} (valid : h.Valid) (bounded : h.Bounded) :
    loutGroups h = exactGroups h := by
  have si := valid.sizes 0
  have pi := valid.sizes 1
  have bi := valid.sizes 2
  have sd := valid.sizes 3
  have pd := valid.sizes 4
  have bd := valid.sizes 5
  have base := valid.tbase
  unfold LoutHdr.Bounded LoutHdr.sections at bounded
  have fPi := cInt_of_nonneg (h.tbase + h.ss 0) (by omega) (by omega)
  have fSd := cInt_of_nonneg (h.tbase + h.ss 0 + h.ss 1) (by omega) (by omega)
  have fPd := cInt_of_nonneg (h.tbase + h.ss 0 + h.ss 1 + h.ss 3) (by omega) (by omega)
  have bss := cInt_of_nonneg (h.ss 2 + h.ss 5) (by omega) (by omega)
  have all := cInt_of_nonneg (h.ss 0 + h.ss 1 + h.ss 3 + h.ss 4) (by omega) (by omega)
  have instructions := cInt_of_nonneg (h.ss 0 + h.ss 1) (by omega) (by omega)
  have data := cInt_of_nonneg (h.ss 3 + h.ss 4) (by omega) (by omega)
  have piece : ∀ (mo ln : Int), 0 ≤ mo → 0 ≤ ln → mo + ln < 2 ^ 31 → ∀ (g : LoutGroup) (fo : Int),
      g.piece fo mo ln = g.exactPiece fo mo ln := fun mo ln start size small g fo =>
    g.piece_eq fo start size small
  -- Every piece of the four forms starts at 0 or behind the piece before it.
  have mergedPiece := piece 0 (h.ss 0 + h.ss 1 + h.ss 3 + h.ss 4) (by omega) (by omega) (by omega)
  have codePiece := piece 0 (h.ss 0 + h.ss 1) (by omega) (by omega) (by omega)
  have dataPiece := piece 0 (h.ss 3 + h.ss 4) (by omega) (by omega) (by omega)
  have siPiece := piece 0 (h.ss 0) (by omega) (by omega) (by omega)
  have piPiece := piece 0 (h.ss 1) (by omega) (by omega) (by omega)
  have sdPiece := piece 0 (h.ss 3) (by omega) (by omega) (by omega)
  have pdPiece := piece 0 (h.ss 4) (by omega) (by omega) (by omega)
  have behindSi := piece (h.ss 0) (h.ss 3) (by omega) (by omega) (by omega)
  have behindPi := piece (h.ss 1) (h.ss 4) (by omega) (by omega) (by omega)
  unfold loutGroups exactGroups
  dsimp only
  rw [fPi, fSd, fPd, bss, all, instructions, data]
  generalize (h.flag &&& 0x03).toNat = mode
  rcases mode with _ | _ | _ | mode <;> simp only [mergedPiece, codePiece, dataPiece, siPiece,
    piPiece, sdPiece, pdPiece, behindSi, behindPi]

/-- The segments of a group whose sums stay in range. -/
theorem LoutPlaced.nseg_eq {g : LoutPlaced} (start : 0 ≤ g.total)
    (small : g.total + 0xFFFF < 2 ^ 31) : g.nseg = g.exactNseg := by
  unfold total at start small
  have sum : cInt (g.base + g.group.span + g.group.bss) = g.base + g.group.span + g.group.bss :=
    cInt_eq (by omega) (by omega)
  have rounded : cInt (g.base + g.group.span + g.group.bss + 0xFFFF) =
      g.base + g.group.span + g.group.bss + 0xFFFF := cInt_eq (by omega) small
  unfold nseg exactNseg total
  dsimp only
  rw [sum, rounded, Int.tdiv_eq_ediv_of_nonneg (by omega)]

/-- The loop over groups whose sums stay in range. -/
theorem placeGroups_eq {h : LoutHdr} {i : Nat} {start : Int} {groups : List LoutGroup}
    (sizes : ∀ g ∈ groups, 0 ≤ g.span + g.bss ∧
      g.span + g.bss + h.entryOff.toNat + 0xFFFF < 2 ^ 31) :
    placeGroups h i start groups = placeExact h i start groups := by
  induction groups generalizing i start with
  | nil => rfl
  | cons g rest inductionHypothesis =>
    obtain ⟨size, small⟩ := sizes g List.mem_cons_self
    have others (k : Int) : placeGroups h (i + 1) k rest = placeExact h (i + 1) k rest :=
      inductionHypothesis fun x member => sizes x (List.mem_cons_of_mem g member)
    have base : 0 ≤ (h.slot i (BitVec.ofInt 8 start) g).base ∧
        (h.slot i (BitVec.ofInt 8 start) g).base ≤ h.entryOff.toNat := by
      unfold LoutHdr.slot
      dsimp only
      split_ifs <;> omega
    have own : (h.slot i (BitVec.ofInt 8 start) g).nseg =
        (h.slot i (BitVec.ofInt 8 start) g).exactNseg := by
      have group : (h.slot i (BitVec.ofInt 8 start) g).group = g := rfl
      refine LoutPlaced.nseg_eq ?_ ?_ <;> unfold LoutPlaced.total <;> rw [group] <;> omega
    unfold placeGroups placeExact
    dsimp only
    rw [own, others]
    rfl

/-- A bounded header is laid out as in exact sums. -/
theorem loutLayout_eq {h : LoutHdr} (valid : h.Valid) (bounded : h.Bounded) :
    loutLayout h = exactLayout h := by
  have sizes : ∀ g ∈ (exactGroups h).filter LoutGroup.nonempty, 0 ≤ g.span + g.bss ∧
      g.span + g.bss + h.entryOff.toNat + 0xFFFF < 2 ^ 31 := fun g member => by
    obtain ⟨sound, size⟩ := exactGroups_sound valid g (List.mem_filter.mp member).1
    have span := sound.packed.start_le_stop sound.pieces
    have bss := sound.bss
    unfold LoutHdr.Bounded at bounded
    omega
  unfold loutLayout exactLayout
  rw [loutGroups_eq valid bounded]
  generalize (exactGroups h).filter LoutGroup.nonempty = groups at sizes ⊢
  cases groups with
  | nil => rfl
  | cons g rest => exact placeGroups_eq sizes

/-! ## Loaders -/

/-- The headers that are laid out: `run_exec` takes the entry of the file, `seg_image` the
segment of a symbol and an offset of its own. -/
inductive Loadable : LoutHdr → Prop where
  | runExec {b : Buffer} {len : Nat} {h : LoutHdr} (parsed : loutParse b len = .ok h) : Loadable h
  | segImage {b : Buffer} {len : Nat} {h : LoutHdr} (parsed : loutParse b len = .ok h)
      (seg : Byte) :
    Loadable { h with
      entrySeg := seg &&& 0x7F, entryOff := if seg &&& 0x7F = 0 then 0x200 else 0 }

theorem Loadable.valid {h : LoutHdr} (loadable : Loadable h) : h.Valid := by
  cases loadable with
  | runExec parsed => exact loutParse_valid parsed
  | segImage parsed seg =>
    have valid := loutParse_valid parsed
    exact ⟨valid.sizes, valid.tbase, and_7F_le seg⟩

/-- A file whose sizes and entry offset stay below the range of an `int` is laid out with
every byte in a place of its own. -/
theorem loutLayout_laid {h : LoutHdr} (loadable : Loadable h)
    (small : h.sections + h.entryOff.toNat < 2 ^ 31 - 65536) {l : LoutLayout}
    (laid : loutLayout h = .ok l) : Laid h l :=
  Laid.of_exactLayout loadable.valid small ((loutLayout_eq loadable.valid small).symm.trans laid)

/-- The value of a computation that does not fail. -/
theorem eq_ok_get {ε α : Type} {x : Except ε α} (some : x.toOption.isSome = true) :
    x = .ok (x.toOption.get some) := by
  cases x with
  | error e => exact absurd some Bool.false_ne_true
  | ok a => rfl

/-- A `ld -n -i` file of 128 bytes: four bytes of text, shared data and two bytes of
private data. -/
def sharedImage : Buffer := fun i =>
  [0x07, 0x01, 3, 0, 0, 0, 48, 0, 0, 0, 4, 0, 0, 0, 0, 0, 0, 0, 0, 0, 0, 0, 4, 0, 0, 0, 2].getD i 0

/-- Its header. -/
def sharedHdr : LoutHdr := (loutParse sharedImage 128).toOption.get (by decide)

/-- Its layout: three groups in the segments from 0 to 2. -/
def sharedLayout : LoutLayout := (loutLayout sharedHdr).toOption.get (by decide)

theorem sharedImage_laid : Laid sharedHdr sharedLayout ∧ sharedLayout.lastSeg = 2 := by
  have parsed : loutParse sharedImage 128 = .ok sharedHdr := eq_ok_get _
  have laid : loutLayout sharedHdr = .ok sharedLayout := eq_ok_get _
  exact ⟨loutLayout_laid (.runExec parsed) (by decide) laid, by decide +kernel⟩

end C900
