import C900.Cpu.Fetch

/-!
# The words of an instruction

The length table, the reduction for short addresses, the sub-decoders and the operand
readers each count the words of an instruction on their own. `CtrlWord.wordsRead` is the
count of the readers; no instruction that the decoder accepts is shorter.
-/

namespace C900

/-! ## The count of the readers -/

/-- The number of words up to the end of the address operand at word `idx`. -/
def addressEnd (idx : Nat) (long : Bool) : Nat := if long then idx + 2 else idx + 1

theorem addressEnd_pos (idx : Nat) (long : Bool) : idx + 1 ≤ addressEnd idx long := by
  unfold addressEnd
  split
  · exact Nat.le_succ _
  · exact Nat.le_refl _

/-- The words that a source operand reads. `long` tells that the address at word 1 takes two
words, `moved` that the reader of a second immediate looks for such an address. -/
def SrcSel.wordsRead (s : SrcSel) (width : Width) (moved long : Bool) : Nat :=
  match s with
  | .imm => if width = .long then 3 else 2
  | .imm2 => if moved && long then 4 else 3
  | .da | .x => addressEnd 1 long
  | .pcRel | .based | .bx => 2
  | _ => 1

/-- The words that a destination operand reads. -/
def DstSel.wordsRead (d : DstSel) (long : Bool) : Nat :=
  match d with
  | .da | .x => addressEnd 1 long
  | .pcRel | .based | .bx => 2
  | _ => 1

/-- The words that the handler of a control word reads; `long` and `long2` tell that the address
at word 1 or word 2 takes two words. -/
def CtrlWord.wordsRead (w : CtrlWord) (moved long long2 : Bool) : Nat :=
  match w.exec with
  | .unified =>
    max (w.src2.wordsRead w.width moved long)
      (max (w.dst.wordsRead long) (w.count.wordsRead w.width moved long))
  | .stack =>
    match w.stkMode with
    | .pushSrc | .pushLSrc => w.src2.wordsRead w.width moved long
    | .popDst | .popLDst => w.dst.wordsRead long
    | .pushImm => 2
    | _ => 1
  | .branch =>
    match w.brMode with
    | .jpDa | .jpX | .callDa | .callX => addressEnd 1 long
    | _ => 1
  | .exchange | .lea => w.src2.wordsRead w.width moved long
  | .mul | .div => w.src2.wordsRead (if w.width = .word then .word else .long) moved long
  | .shift | .bitDynamic | .blockTransfer | .blockCompare | .blockString | .blockIo
  | .translate => 2
  | .io => if w.src2 = .ir then 1 else 2
  | .ldps => if w.src2 = .ir then 1 else addressEnd 1 long
  | .ldm => if w.src2 = .ir then 2 else addressEnd 2 long2
  | _ => 1

/-! ## The count of the decoder -/

/-- The length of an instruction; the flags tell that words 1 and 2 have the bit of a long
address. -/
def reducedLength (op : Word) (seg bit1 bit2 : Bool) : Nat :=
  let need := decodeLength op seg
  let need := if 3 ≤ need ∧ decodeSegAddrW1 op seg ∧ bit1 = false then need - 1 else need
  if 4 ≤ need ∧ decodeSegAddrW2 op seg ∧ bit2 = false then need - 1 else need

/-- The slots with a second word in every form. -/
def pairSlot (hi : Nat) : Prop :=
  0x30 ≤ hi ∧ hi ≤ 0x37 ∨ hi = 0x3A ∨ hi = 0x3B ∨ hi = 0xB8 ∨ hi = 0xBA ∨ hi = 0xBB

instance : DecidablePred pairSlot := fun _ => inferInstanceAs (Decidable (_ ∨ _))

/-- The slots with an address at word 1 or 2. -/
def addressSlot (hi : Nat) : Prop := 0x40 ≤ hi ∧ hi ≤ 0x77 ∨ hi = 0x79

instance : DecidablePred addressSlot := fun _ => inferInstanceAs (Decidable (_ ∨ _))

/-- The words that every instruction of a slot has. -/
def slotWords (hi : Nat) (long : Bool) : Nat :=
  if pairSlot hi then 2 else if addressSlot hi then addressEnd 1 long else 1

theorem decodeSegAddrW2_iff (op : Word) (seg : Bool) : decodeSegAddrW2 op seg = true ↔
    seg = true ∧ (op >>> 8).toNat = 0x5C ∧ ((nib3 op).toNat = 1 ∨ (nib3 op).toNat = 9) := by
  simp only [decodeSegAddrW2, Bool.and_eq_true, Bool.or_eq_true, beq_iff_eq, and_assoc,
    BitVec.toNat_eq]
  rfl

theorem decodeSegAddrW1_iff (op : Word) (seg : Bool) : decodeSegAddrW1 op seg = true ↔
    seg = true ∧ decodeSegAddrW2 op seg = false ∧ addressSlot (op >>> 8).toNat := by
  simp only [decodeSegAddrW1, Bool.and_eq_true, Bool.or_eq_true, decide_eq_true_eq, beq_iff_eq,
    Bool.not_eq_true', addressSlot, and_assoc]

/-- A choice between two lengths. -/
theorem le_choice {p : Prop} [Decidable p] {n a b : Nat} (yes : p → n ≤ a) (no : ¬ p → n ≤ b) :
    n ≤ if p then a else b := by
  split
  · exact yes ‹_›
  · exact no ‹_›

/-- A length that is decided further on. -/
theorem le_later {p : Prop} [Decidable p] {n a b : Nat} (skipped : ¬ p) (rest : n ≤ b) :
    n ≤ if p then a else b := by
  rw [if_neg skipped]
  exact rest

/-- An address takes one word, two in segmented mode. -/
theorem decodeLength_address {op : Word} (address : addressSlot (op >>> 8).toNat) (seg : Bool) :
    addressEnd 1 seg ≤ decodeLength op seg := by
  have words : addressEnd 1 seg = 1 + if seg then 2 else 1 := by cases seg <;> rfl
  unfold addressSlot at address
  rw [words]
  unfold decodeLength
  revert address
  generalize (op >>> 8).toNat = hi
  intro address
  dsimp only
  generalize (if seg then 2 else 1 : Nat) = more
  -- The slots below 0x40.
  iterate 9 refine le_later (by omega) ?_
  refine le_choice (fun _ => ?_) fun behind => ?_
  · refine le_choice (fun _ => Nat.le_succ _) fun _ => ?_
    exact le_choice (fun _ => Nat.le_succ _) fun _ => Nat.le_refl _
  refine le_choice (fun _ => Nat.le_refl _) fun other => ?_
  refine le_choice (fun _ => Nat.le_refl _) fun last => ?_
  omega

theorem decodeLength_pair {op : Word} (pair : pairSlot (op >>> 8).toNat) (seg : Bool) :
    2 ≤ decodeLength op seg := by
  unfold pairSlot at pair
  unfold decodeLength
  revert pair
  generalize (op >>> 8).toNat = hi
  intro pair
  dsimp only
  rcases pair with block | rfl | rfl | rfl | rfl | rfl
  · iterate 7 refine le_later (by omega) ?_
    rw [if_pos block]
  all_goals exact Nat.le_refl 2

theorem reducedLength_nonseg (op : Word) (bit1 bit2 : Bool) :
    reducedLength op false bit1 bit2 = decodeLength op false := by
  have first : decodeSegAddrW1 op false = false := rfl
  have second : decodeSegAddrW2 op false = false := rfl
  simp [reducedLength, first, second]

/-- Only the slots with an address are reduced. -/
theorem reducedLength_of_not_address {op : Word} (other : ¬ addressSlot (op >>> 8).toNat)
    (seg bit1 bit2 : Bool) : reducedLength op seg bit1 bit2 = decodeLength op seg := by
  have first : ¬ decodeSegAddrW1 op seg = true := fun is =>
    other ((decodeSegAddrW1_iff op seg).mp is).2.2
  have second : ¬ decodeSegAddrW2 op seg = true := fun is => by
    obtain ⟨-, block, -⟩ := (decodeSegAddrW2_iff op seg).mp is
    unfold addressSlot at other
    omega
  simp [reducedLength, first, second]

/-- An address that is not long costs one word. -/
theorem reducedLength_address {op : Word} (address : addressSlot (op >>> 8).toNat)
    (seg bit1 bit2 : Bool) : addressEnd 1 (seg && bit1) ≤ reducedLength op seg bit1 bit2 := by
  have full := decodeLength_address address seg
  cases seg with
  | false =>
    rw [reducedLength_nonseg]
    exact full
  | true =>
    have three : 3 ≤ decodeLength op true := full
    unfold reducedLength
    dsimp only
    cases bit1 with
    | false =>
      have two : addressEnd 1 (true && false) = 2 := rfl
      rw [two]
      refine le_choice (fun first => ?_) fun _ => ?_
      · omega
      · exact le_choice (fun _ => by omega) fun _ => by omega
    | true =>
      have long : addressEnd 1 (true && true) = 3 := rfl
      have still : ¬ (3 ≤ decodeLength op true ∧ decodeSegAddrW1 op true = true ∧ true = false) :=
        fun is => absurd is.2.2 nofun
      rw [long, if_neg still]
      exact le_choice (fun first => by omega) fun _ => three

/-- No instruction is shorter than its slot says. -/
theorem slotWords_le (op : Word) (seg bit1 bit2 : Bool) :
    slotWords (op >>> 8).toNat (seg && bit1) ≤ reducedLength op seg bit1 bit2 := by
  unfold slotWords
  by_cases pair : pairSlot (op >>> 8).toNat
  · have other : ¬ addressSlot (op >>> 8).toNat := by
      unfold pairSlot at pair
      unfold addressSlot
      omega
    rw [if_pos pair, reducedLength_of_not_address other]
    exact decodeLength_pair pair seg
  · rw [if_neg pair]
    by_cases address : addressSlot (op >>> 8).toNat
    · rw [if_pos address]
      exact reducedLength_address address seg bit1 bit2
    · rw [if_neg address, reducedLength_of_not_address address]
      exact (decodeLength_bounds op seg).1

theorem reducedLength_pos (op : Word) (seg bit1 bit2 : Bool) :
    0 < reducedLength op seg bit1 bit2 := by
  refine Nat.lt_of_lt_of_le ?_ (slotWords_le op seg bit1 bit2)
  unfold slotWords
  refine le_choice (fun _ => by decide) fun _ => le_choice (fun _ => ?_) fun _ => by decide
  exact Nat.zero_lt_of_lt (addressEnd_pos 1 _)

/-- The slots with a form whose length the next nibbles decide: an immediate for a zero second
nibble, and tables by the third. -/
def immediateSlots : List Nat :=
  [0x00, 0x01, 0x02, 0x03, 0x04, 0x05, 0x06, 0x07, 0x08, 0x09, 0x0A, 0x0B, 0x10, 0x12, 0x14, 0x16,
    0x18, 0x19, 0x1A, 0x1B, 0x20, 0x21, 0x22, 0x23, 0x24, 0x25, 0x26, 0x27]

def tableSlots : List Nat := [0x0C, 0x0D, 0x1C, 0x4C, 0x4D, 0x5C, 0xB2, 0xB3]

/-- The other slots read the same words in every form. -/
theorem rom_wordsRead : ∀ entry ∈ rom, entry.1 ∉ immediateSlots → entry.1 ∉ tableSlots →
    ∀ c ∈ entry.2.words, ∀ moved long long2 : Bool,
      c.wordsRead moved long long2 ≤ slotWords entry.1 long := by
  unfold rom
  simp only [List.forall_mem_append]
  -- A table at a time.
  and_intros
  all_goals decide +kernel

/-- An immediate takes one word, or two for a long one. -/
def immediateWords (hi : Nat) : Nat :=
  if hi ∈ [0x10, 0x12, 0x14, 0x16, 0x18, 0x1A] then 3 else 2

theorem immediate_forms : ∀ hi ∈ immediateSlots, ∃ zero nonzero,
    rom.lookup hi = some (.fork2 zero nonzero) ∧
      (∀ moved long long2, zero.wordsRead moved long long2 ≤ immediateWords hi) ∧
      ∀ moved long long2, nonzero.wordsRead moved long long2 ≤ 1 := by
  unfold immediateSlots
  repeat refine List.forall_mem_cons.mpr ⟨⟨_, _, rfl, by decide, by decide⟩, ?_⟩
  exact List.forall_mem_nil _

theorem decodeLength_immediate : ∀ hi ∈ immediateSlots, ∀ op : Word, (op >>> 8).toNat = hi →
    (nib2 op).toNat = 0 → ∀ seg, immediateWords hi ≤ decodeLength op seg := by
  unfold immediateSlots
  repeat
    refine List.forall_mem_cons.mpr ⟨fun op slot zero seg => ?_, ?_⟩
    · unfold decodeLength
      rw [slot, zero]
      exact Nat.le_refl _
  exact List.forall_mem_nil _

theorem lookup_key_mem {β : Type} {table : List (Nat × β)} {key : Nat} {value : β}
    (found : table.lookup key = some value) : (key, value) ∈ table := by
  induction table with
  | nil => exact absurd found nofun
  | cons row rows inductionHypothesis =>
    obtain ⟨k, v⟩ := row
    rw [List.lookup_cons] at found
    by_cases same : key = k
    · subst same
      rw [beq_self_eq_true] at found
      obtain rfl := Option.some.inj found
      exact List.mem_cons_self
    · rw [beq_false_of_ne same] at found
      exact List.mem_cons_of_mem _ (inductionHypothesis found)

/-- What a slot with a table decodes to is in its table. -/
theorem decode_sub {f : SubFn} {table : List (Nat × CtrlWord)} {op w : Word} {n : Nat}
    {c : CtrlWord} (decoded : (RomEntry.sub f table).decode op w n = some c) :
    ∃ i, f op w n = some i ∧ (i, c) ∈ table := by
  obtain ⟨i, index, found⟩ := Option.bind_eq_some_iff.mp decoded
  exact ⟨i, index, lookup_key_mem found⟩

/-- The forms of a table, by the third nibble `l`, that take a word more than the others. -/
def longForm (hi l : Nat) : Bool :=
  if hi = 0x0C ∨ hi = 0x0D ∨ hi = 0x4C ∨ hi = 0x4D then l == 1 || l == 5 || l == 9
  else if hi = 0x1C ∨ hi = 0x5C then l == 1 || l == 9
  else l % 2 == 1

/-- The words of a form of a table slot. -/
def tableWords (hi l : Nat) (long long2 : Bool) : Nat :=
  if hi = 0x5C ∧ longForm hi l then addressEnd 2 long2
  else (if hi = 0x4C ∨ hi = 0x4D ∨ hi = 0x5C then addressEnd 1 long else 1) +
    (longForm hi l).toNat

/-- The third nibble that an index of a table stands for. -/
def tableRow (hi i : Nat) : Nat := if hi = 0x4C ∨ hi = 0x4D ∨ hi = 0x5C then i / 2 else i

theorem column_row (row : Reg) (second : Bool) : column row second / 2 = row.toNat := by
  unfold column
  cases second
  · exact Nat.mul_div_cancel _ (by decide)
  · have one : true.toNat = 1 := rfl
    rw [one]
    omega

/-- A guarded index. -/
theorem guarded_index {p : Prop} [Decidable p] {i j : Nat}
    (found : (if p then none else some j) = some i) : j = i := by
  split at found
  · exact absurd found nofun
  · exact Option.some.inj found

/-- The tables of the slots. -/
theorem table_forms : ∀ hi ∈ tableSlots, ∃ f table, rom.lookup hi = some (.sub f table) ∧
    (∀ op w n i, f op w n = some i → tableRow hi i = (nib3 op).toNat) ∧
    ∀ form ∈ table, ∀ moved long long2 : Bool,
      (long = true → hi = 0x4C ∨ hi = 0x4D → moved = true) →
        form.2.wordsRead moved long long2 ≤ tableWords hi (tableRow hi form.1) long long2 := by
  have plain : ∀ hi, (∀ i, tableRow hi i = i) → ∀ op w n i, subNib3 op w n = some i →
      tableRow hi i = (nib3 op).toNat := fun hi same op w n i index => by
    rw [same]
    exact (Option.some.inj index).symm
  have columns : ∀ hi, (∀ i, tableRow hi i = i / 2) → ∀ op w n i, sub4C op w n = some i →
      tableRow hi i = (nib3 op).toNat := fun hi same op w n i index => by
    rw [same, ← Option.some.inj index]
    exact column_row _ _
  unfold tableSlots
  refine List.forall_mem_cons.mpr ⟨⟨subNib3, tbl0C, rfl, plain _ fun _ => rfl, by decide⟩, ?_⟩
  refine List.forall_mem_cons.mpr ⟨⟨subNib3, tbl0D, rfl, plain _ fun _ => rfl, by decide⟩, ?_⟩
  refine List.forall_mem_cons.mpr ⟨⟨sub1C, _, rfl, fun op w n i index => ?_, by decide⟩, ?_⟩
  · exact (guarded_index index).symm
  refine List.forall_mem_cons.mpr ⟨⟨sub4C, _, rfl, columns _ fun _ => rfl, by decide⟩, ?_⟩
  refine List.forall_mem_cons.mpr ⟨⟨sub4C, _, rfl, columns _ fun _ => rfl, by decide⟩, ?_⟩
  refine List.forall_mem_cons.mpr ⟨⟨sub5C, _, rfl, fun op w n i index => ?_, by decide⟩, ?_⟩
  · unfold sub5C at index
    split at index
    · exact absurd index nofun
    · rw [← guarded_index index]
      exact column_row _ _
  refine List.forall_mem_cons.mpr ⟨⟨subB2, tblB2, rfl, fun op w n i index => ?_, by decide⟩, ?_⟩
  · exact (guarded_index index).symm
  refine List.forall_mem_cons.mpr ⟨⟨subB3, tblB3, rfl, fun op w n i index => ?_, by decide⟩, ?_⟩
  · exact (guarded_index index).symm
  exact List.forall_mem_nil _

/-- A word more for the long forms. -/
theorem choice_words {p : Prop} [Decidable p] {b : Bool} (same : b = true ↔ p) (n : Nat) :
    n + b.toNat = if p then n + 1 else n := by
  cases b with
  | true => rw [if_pos (same.mp rfl)]; rfl
  | false => rw [if_neg fun is => absurd (same.mpr is) Bool.false_ne_true]; rfl

/-- The tables without an address. -/
theorem decodeLength_table : ∀ hi ∈ [0x0C, 0x0D, 0x1C, 0xB2, 0xB3], ∀ op : Word,
    (op >>> 8).toNat = hi → ∀ seg,
      1 + (longForm hi (nib3 op).toNat).toNat = decodeLength op seg := by
  have three : ∀ l : Nat, (l == 1 || l == 5 || l == 9) = true ↔ l = 1 ∨ l = 5 ∨ l = 9 := by
    simp [or_assoc]
  have two : ∀ l : Nat, (l == 1 || l == 9) = true ↔ l = 1 ∨ l = 9 := by simp
  have odd : ∀ l : Nat, (l % 2 == 1) = true ↔ l % 2 = 1 := by simp
  refine List.forall_mem_cons.mpr ⟨fun op slot seg => ?_, ?_⟩
  · rw [decodeLength, slot]
    exact choice_words (three _) 1
  refine List.forall_mem_cons.mpr ⟨fun op slot seg => ?_, ?_⟩
  · rw [decodeLength, slot]
    exact choice_words (three _) 1
  refine List.forall_mem_cons.mpr ⟨fun op slot seg => ?_, ?_⟩
  · rw [decodeLength, slot]
    exact choice_words (two _) 1
  refine List.forall_mem_cons.mpr ⟨fun op slot seg => ?_, ?_⟩
  · rw [decodeLength, slot]
    exact choice_words ((odd _).trans ⟨fun is => ⟨.inl rfl, is⟩, And.right⟩) 1
  refine List.forall_mem_cons.mpr ⟨fun op slot seg => ?_, List.forall_mem_nil _⟩
  · rw [decodeLength, slot]
    exact choice_words ((odd _).trans ⟨fun is => ⟨.inr rfl, is⟩, And.right⟩) 1

/-- The single-operand tables: an address and perhaps an immediate. -/
theorem decodeLength_operand {op : Word} {hi : Nat} (slot : (op >>> 8).toNat = hi)
    (block : hi = 0x4C ∨ hi = 0x4D) (seg : Bool) :
    1 + (if seg then 2 else 1) + (longForm hi (nib3 op).toNat).toNat = decodeLength op seg := by
  have form : longForm hi (nib3 op).toNat = true ↔ (hi = 0x4C ∨ hi = 0x4D) ∧
      ((nib3 op).toNat = 1 ∨ (nib3 op).toNat = 5 ∨ (nib3 op).toNat = 9) := by
    rcases block with rfl | rfl <;> simp [longForm, or_assoc]
  rw [decodeLength, slot, choice_words form]
  rcases block with rfl | rfl <;> rfl

/-- LDM: the registers, then the address. -/
theorem decodeLength_multiple {op : Word} (slot : (op >>> 8).toNat = 0x5C) (seg : Bool) :
    1 + (if seg then 2 else 1) + (longForm 0x5C (nib3 op).toNat).toNat = decodeLength op seg := by
  have form : longForm 0x5C (nib3 op).toNat = true ↔
      0x5C = 0x5C ∧ ((nib3 op).toNat = 1 ∨ (nib3 op).toNat = 9) := by
    simp [longForm]
  rw [decodeLength, slot, choice_words form]
  rfl

/-- An immediate behind an address. -/
theorem operandWords_le {op : Word} {hi : Nat} (slot : (op >>> 8).toNat = hi)
    (block : hi = 0x4C ∨ hi = 0x4D) (seg bit1 bit2 : Bool) :
    addressEnd 1 (seg && bit1) + (longForm hi (nib3 op).toNat).toNat ≤
      reducedLength op seg bit1 bit2 := by
  have full := decodeLength_operand slot block seg
  cases seg with
  | false =>
    rw [reducedLength_nonseg, ← full]
    exact Nat.le_refl _
  | true =>
    have single : ¬ decodeSegAddrW2 op true = true := fun is => by
      have other := ((decodeSegAddrW2_iff op true).mp is).2.1
      omega
    have first : decodeSegAddrW1 op true = true := by
      refine (decodeSegAddrW1_iff op true).mpr ⟨rfl, (Bool.not_eq_true _).mp single, ?_⟩
      unfold addressSlot
      omega
    have three : 3 ≤ decodeLength op true := by
      rw [← full]
      exact Nat.le_add_right 3 _
    unfold reducedLength
    dsimp only
    rw [if_neg fun is => single is.2.1, ← full]
    cases bit1 with
    | false =>
      rw [if_pos ⟨by rw [full]; exact three, first, rfl⟩]
      have short : addressEnd 1 (true && false) = 2 := rfl
      have more : 1 + (if true = true then 2 else 1) = 3 := rfl
      rw [short, more]
      omega
    | true =>
      rw [if_neg fun is => absurd is.2.2 nofun]
      exact Nat.le_refl _

/-- The length of a form of a table slot. -/
theorem tableWords_le : ∀ hi ∈ tableSlots, ∀ op : Word, (op >>> 8).toNat = hi →
    ∀ seg bit1 bit2, tableWords hi (nib3 op).toNat (seg && bit1) (seg && bit2) ≤
      reducedLength op seg bit1 bit2 := by
  intro hi tabled op slot seg bit1 bit2
  have cases : ∀ hi ∈ tableSlots, hi ∈ [0x0C, 0x0D, 0x1C, 0xB2, 0xB3] ∨ hi = 0x4C ∨ hi = 0x4D ∨
      hi = 0x5C := by decide
  rcases cases hi tabled with plain | operand | operand | multiple
  · have facts : ∀ hi ∈ [0x0C, 0x0D, 0x1C, 0xB2, 0xB3], hi ≠ 0x5C ∧ hi ≠ 0x4C ∧ hi ≠ 0x4D ∧
        ¬ addressSlot hi := by decide
    obtain ⟨not5C, not4C, not4D, noAddress⟩ := facts hi plain
    rw [tableWords, if_neg fun is => not5C is.1, if_neg (by omega),
      reducedLength_of_not_address (slot ▸ noAddress)]
    exact Nat.le_of_eq (decodeLength_table hi plain op slot seg)
  · rw [tableWords, if_neg fun is => by omega, if_pos (.inl operand)]
    exact operandWords_le slot (.inl operand) seg bit1 bit2
  · rw [tableWords, if_neg fun is => by omega, if_pos (.inr (.inl operand))]
    exact operandWords_le slot (.inr operand) seg bit1 bit2
  · subst multiple
    have address : addressSlot (op >>> 8).toNat := by rw [slot]; decide
    unfold tableWords
    cases form : longForm 0x5C (nib3 op).toNat with
    | false =>
      rw [if_neg fun is => absurd is.2 Bool.false_ne_true]
      exact reducedLength_address address seg bit1 bit2
    | true =>
      have full := decodeLength_multiple slot seg
      rw [form] at full
      rw [if_pos ⟨rfl, rfl⟩]
      cases seg with
      | false =>
        rw [reducedLength_nonseg, ← full]
        exact Nat.le_refl _
      | true =>
        have four : decodeLength op true = 4 := full.symm
        have second : decodeSegAddrW2 op true = true := by
          refine (decodeSegAddrW2_iff op true).mpr ⟨rfl, slot, ?_⟩
          simpa [longForm] using form
        have first : ¬ (3 ≤ decodeLength op true ∧ decodeSegAddrW1 op true = true ∧
            bit1 = false) := fun is => by
          rw [((decodeSegAddrW1_iff op true).mp is.2.1).2.1] at second
          exact absurd second Bool.false_ne_true
        unfold reducedLength
        dsimp only
        rw [if_neg first, four]
        cases bit2 with
        | false =>
          rw [if_pos ⟨Nat.le_refl _, second, rfl⟩]
          exact Nat.le_refl _
        | true =>
          rw [if_neg fun is => absurd is.2.2 nofun]
          exact Nat.le_refl _

theorem decode_fork2 (zero nonzero : CtrlWord) (op w : Word) (n : Nat) :
    (RomEntry.fork2 zero nonzero).decode op w n =
      some (if nib2 op = 0 then zero else nonzero) := by
  unfold RomEntry.fork2 RomEntry.decode subNib2fork
  dsimp only
  split <;> rfl

/-- Only the words of the instruction decide about its length. -/
theorem reducedLength_congr {op : Word} {n : Nat} {seg bit1 bit2 other1 other2 : Bool}
    (length : n = reducedLength op seg bit1 bit2) (second : 2 ≤ n → other1 = bit1)
    (third : 3 ≤ n → other2 = bit2) : n = reducedLength op seg other1 other2 := by
  unfold reducedLength at length ⊢
  dsimp only at length ⊢
  by_cases long : 3 ≤ decodeLength op seg
  · have same : other1 = bit1 := second (by split_ifs at length <;> omega)
    subst same
    generalize (if 3 ≤ decodeLength op seg ∧ decodeSegAddrW1 op seg = true ∧ other1 = false then
      decodeLength op seg - 1 else decodeLength op seg) = need at length ⊢
    by_cases longer : 4 ≤ need
    · have same : other2 = bit2 := third (by split_ifs at length <;> omega)
      rw [same]
      exact length
    · rw [if_neg fun is => longer is.1] at length ⊢
      exact length
  · have plain : ∀ bit, ¬ (3 ≤ decodeLength op seg ∧ decodeSegAddrW1 op seg = true ∧
        bit = false) := fun bit is => long is.1
    have short : ∀ bit, ¬ (4 ≤ decodeLength op seg ∧ decodeSegAddrW2 op seg = true ∧
        bit = false) := fun bit is => long (Nat.le_of_succ_le is.1)
    rw [if_neg (plain _), if_neg (short _)] at length ⊢
    exact length

/-! ## The second word -/

/-- The second word does not decide the form. -/
def RomEntry.OneWord (e : RomEntry) : Prop :=
  ∀ (op v w : Word) (n : Nat), e.decode op v n = e.decode op w n

theorem rom_oneWord : ∀ row ∈ rom, ¬ pairSlot row.1 → row.2.OneWord := by
  unfold rom
  simp only [List.forall_mem_append]
  and_intros
  all_goals
    repeat' first
      | exact List.forall_mem_nil _
      | refine List.forall_mem_cons.mpr ⟨fun other => ?_, ?_⟩
  all_goals
    first
    | exact fun _ _ _ _ => rfl
    | exact absurd (by decide) other

/-- An instruction of one word decodes the same whatever is behind it. -/
theorem decodeLookup_second {op v w : Word} {n : Nat} {seg bit1 bit2 : Bool}
    (length : n = reducedLength op seg bit1 bit2) (second : 2 ≤ n → v = w) :
    decodeLookup op v n = decodeLookup op w n := by
  by_cases two : 2 ≤ n
  · rw [second two]
  · have single : ¬ pairSlot (op >>> 8).toNat := by
      intro pair
      have words := slotWords_le op seg bit1 bit2
      rw [slotWords, if_pos pair] at words
      omega
    refine Option.bind_congr fun e found => ?_
    exact rom_oneWord _ (lookup_key_mem found) single op v w n

/-! ## Every instruction -/

/-- The readers of an instruction that the decoder accepts stay within its length. -/
theorem wordsRead_le {op w : Word} {n : Nat} {c : CtrlWord}
    (decoded : decodeLookup op w n = some c) (seg bit1 bit2 : Bool) :
    c.wordsRead (decodeSegAddrW1 op seg) (seg && bit1) (seg && bit2) ≤
      reducedLength op seg bit1 bit2 := by
  obtain ⟨e, slot, resolved⟩ := Option.bind_eq_some_iff.mp decoded
  by_cases immediate : (op >>> 8).toNat ∈ immediateSlots
  · obtain ⟨zero, nonzero, known, zeroReads, nonzeroReads⟩ := immediate_forms _ immediate
    have noAddress : ∀ hi ∈ immediateSlots, ¬ addressSlot hi := by decide
    rw [reducedLength_of_not_address (noAddress _ immediate)]
    obtain rfl := Option.some.inj (slot.symm.trans known)
    rw [decode_fork2] at resolved
    obtain rfl := Option.some.inj resolved
    split
    · rename_i none
      refine Nat.le_trans (zeroReads _ _ _) (decodeLength_immediate _ immediate op rfl ?_ seg)
      rw [none]
      rfl
    · exact Nat.le_trans (nonzeroReads _ _ _) (decodeLength_bounds op seg).1
  by_cases tabled : (op >>> 8).toNat ∈ tableSlots
  · obtain ⟨f, table, known, rows, reads⟩ := table_forms _ tabled
    obtain rfl := Option.some.inj (slot.symm.trans known)
    obtain ⟨i, index, member⟩ := decode_sub resolved
    have row := rows _ _ _ _ index
    have moves : (seg && bit1) = true → (op >>> 8).toNat = 0x4C ∨ (op >>> 8).toNat = 0x4D →
        decodeSegAddrW1 op seg = true := by
      intro long block
      obtain ⟨segmented, -⟩ := (Bool.and_eq_true _ _).mp long
      have single : ¬ decodeSegAddrW2 op seg = true := fun is => by
        have other := ((decodeSegAddrW2_iff op seg).mp is).2.1
        omega
      refine (decodeSegAddrW1_iff op seg).mpr ⟨segmented, (Bool.not_eq_true _).mp single, ?_⟩
      unfold addressSlot
      omega
    refine Nat.le_trans (reads _ member _ _ _ moves) ?_
    rw [row]
    exact tableWords_le _ tabled op rfl seg bit1 bit2
  · exact Nat.le_trans (rom_wordsRead _ (lookup_key_mem slot) immediate tabled c
      (RomEntry.decode_mem resolved) _ _ _) (slotWords_le op seg bit1 bit2)

end C900
