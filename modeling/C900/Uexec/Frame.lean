import C900.Logic.HostInt
import C900.Logic.Strings
import C900.Uexec.Exit

/-!
# The frame of a program

`run_exec` hands a program its arguments and its environment in segment 0: the frame that the
startup code reads, the two arrays of far pointers, and the strings. The offsets are `int`s. For
the strings that a host hands over no sum leaves the type.
-/

namespace C900

open HostInt

/-! ## The layout -/

/-- `USER_SP`. -/
def userSp : Nat := 0xCF00

/-- `ARGDESC`. -/
def argdesc : Nat := 0xCF10

/-- `POOL_BASE`. -/
def poolBase : Nat := 0xD000

/-- `POOL_LIMIT`. -/
def poolLimit : Nat := 0xFF00

/-- `ERRNO_OFF`. -/
def errnoOff : Nat := 0xFFFE

/-- What `harness_fatal` reports of a command line. -/
inductive FrameError where
  /-- "argv(%d)+envp(%d) pointer arrays need %#x..%#x, past the guard band at %#x", the constants
  left out -/
  | arrays (nprog nenv strOff : Int)
  /-- "argv/envp string pool overflow at %#x (limit %#x, %d bytes of strings): the command line
  does not fit below the errno word at %#x", the constants left out -/
  | pool (strOff bytes : Int)
deriving DecidableEq

/-! ## Writing -/

/-- `gw32`. -/
def Bus.gw32 (b : Bus) (seg : Byte) (off : Nat) (v : Long) : Bus :=
  (b.gw16 seg off ((v >>> 16).setWidth 16)).gw16 seg (off + 2) (v.setWidth 16)

/-- The far pointer at a place. -/
def Bus.gr32 (b : Bus) (seg : Byte) (off : Nat) : Long := b.gr16 seg off ++ b.gr16 seg (off + 2)

/-- `off & 0xFFFF`. -/
def intOff (off : Int) : Nat := (off % 0x10000).toNat

/-- The guest memory and `str_off`. -/
structure StringPool where
  bus : Bus
  strOff : Int

/-- The loop of `put_str`. -/
def putChars (b : Bus) (place : Int) : List Byte → Bus
  | [] => b
  | c :: rest => putChars (b.gw8 0 (intOff place) c) (cInt (place + 1)) rest

/-- `put_str`. -/
def putStr (s : List Byte) (p : StringPool) : Except FrameError (Long × StringPool) :=
  let l := cInt s.length
  if poolLimit < cInt (cInt (p.strOff + l) + 1) then
    .error (.pool p.strOff (cInt (p.strOff - poolBase)))
  else
    let place := p.strOff
    let b := putChars p.bus place (s.take l.toNat)
    .ok (BitVec.ofInt 32 place,
      ⟨b.gw8 0 (intOff (cInt (place + l))) 0, cInt (place + cInt (l + 1))⟩)

/-- `gw32(0, slot, put_str(s))`. -/
def putArg (slot : Int) (s : List Byte) (p : StringPool) : Except FrameError StringPool := do
  let (pointer, p) ← putStr s p
  return { p with bus := p.bus.gw32 0 (intOff slot) pointer }

/-- The loop over a list of strings. -/
def putArgs : Int → List (List Byte) → StringPool → Except FrameError StringPool
  | _, [], p => .ok p
  | slot, s :: rest, p => do putArgs (cInt (slot + 4)) rest (← putArg slot s p)

/-- The entries of `N2ENV` that `run_exec` takes: the first 64 tokens between colons. -/
def envEntries (n2env : Option (List Byte)) : List (List Byte) :=
  match n2env with
  | none => []
  | some e => if e = [] then [] else tokens 0x3A 64 e

/-- The part of `run_exec` that builds argc, argv and envp. -/
def buildFrame (path : List Byte) (args env : List (List Byte)) (b : Bus) :
    Except FrameError Bus := do
  let nprog := cInt (args.length + 1)
  let nenv := cInt env.length
  let argvArr : Int := argdesc
  let envpArr := cInt (argvArr + cInt (cInt (nprog + 1) * 4))
  let strOff := cInt (envpArr + cInt (cInt (nenv + 1) * 4))
  let strOff := if strOff < poolBase then (poolBase : Int) else strOff
  if poolLimit < strOff then throw (.arrays nprog nenv strOff)
  let p ← putArg argvArr path ⟨b, strOff⟩
  let p ← putArgs (cInt (argvArr + 4)) args p
  let p := { p with bus := p.bus.gw32 0 (intOff (cInt (argvArr + cInt (nprog * 4)))) 0 }
  let p ← putArgs envpArr env p
  let b := p.bus.gw32 0 (intOff (cInt (envpArr + cInt (nenv * 4)))) 0
  let b := b.gw16 0 userSp (BitVec.ofInt 16 nprog)
  let b := b.gw32 0 (userSp + 2) (BitVec.ofInt 32 argvArr)
  return b.gw32 0 (userSp + 6) (BitVec.ofInt 32 envpArr)

/-- Words of segment 0, in order. -/
def Bus.gw16s (b : Bus) (words : List (Nat × Word)) : Bus :=
  words.foldl (fun b w => b.gw16 0 w.1 w.2) b

/-- The reset and system call vectors. -/
def psaWords : List (Nat × Word) :=
  [(0x0002, 0xC000), (0x0004, 0x0000), (0x0006, 0x0040), (0x001A, 0xC000), (0x001C, 0x0000),
    (0x001E, 0x0060)]

/-- The bootstrap stub, the IRET stub and the HALT stub. -/
def stubWords (entrySeg : Byte) (entryOff : Word) : List (Nat × Word) :=
  [(0x0040, 0x210E), (0x0042, 0x0000), (0x0044, 0x210F), (0x0046, BitVec.ofNat 16 userSp),
    (0x0048, 0x5E08), (0x004A, 0x8000 ||| entrySeg.setWidth 16 <<< 8), (0x004C, entryOff),
    (0x0060, 0x7B00), (0x0062, 0x7A00)]

/-- What `run_exec` writes into segment 0 before it starts the program. -/
def runExecSetup (path : List Byte) (args : List (List Byte)) (n2env : Option (List Byte))
    (entrySeg : Byte) (entryOff : Word) (b : Bus) : Except FrameError Bus := do
  let b ← buildFrame path args (envEntries n2env) (b.gw16s psaWords)
  return b.gw16s (stubWords entrySeg entryOff)

/-! ## Reading -/

/-- The segment of a far pointer. -/
def farSeg (v : Long) : Byte := ((v >>> 24) &&& 0x7F).setWidth 8

/-- The offset of a far pointer. -/
def farOff (v : Long) : Nat := (v.setWidth 16).toNat

/-- The string behind a far pointer. A string ends with its segment at the latest. -/
def Bus.farString (b : Bus) (v : Long) : List Byte :=
  scanTo 0 (b.gr8 (farSeg v)) 0x10000 (farOff v)

/-- The strings behind an array of far pointers, up to the null pointer. -/
def Bus.vector (b : Bus) (seg : Byte) : Nat → Nat → List (List Byte)
  | 0, _ => []
  | n + 1, off =>
    let v := b.gr32 seg off
    if v = 0 then [] else b.farString v :: b.vector seg n (off + 4)

/-- The strings behind a far pointer to an array. -/
def Bus.farVector (b : Bus) (v : Long) : List (List Byte) := b.vector (farSeg v) 0x4000 (farOff v)

/-! ## Where the writes go -/

/-- The places from `lo` up to `hi`. -/
def extent (lo hi : Nat) (a : Nat) : Prop := lo ≤ a ∧ a < hi

/-- A larger extent. -/
theorem extent_mono {lo hi low high : Nat} (below : low ≤ lo) (above : hi ≤ high) (a : Nat)
    (here : extent lo hi a) : extent low high a :=
  ⟨Nat.le_trans below here.1, Nat.lt_of_lt_of_le here.2 above⟩

/-- Extents one behind the other. -/
theorem extent_apart {lo hi low high : Nat} (apart : hi ≤ low ∨ high ≤ lo) (a : Nat)
    (here : extent lo hi a) : ¬extent low high a := by
  intro there
  unfold extent at here there
  omega

/-- `b'` comes from `b` by writes to a region of the memory. -/
structure Bus.Writes (region : Nat → Prop) (b b' : Bus) : Prop where
  frame : b' = { b with ram := b'.ram }
  spares : ∀ a, ¬region a.toNat → b'.ram a = b.ram a

/-- An offset of segment 0. -/
theorem segment0_address {off : Nat} (inside : off < 0x10000) :
    ((0 : Byte).setWidth 32 <<< 16 ||| BitVec.ofNat 32 (off % 0x10000)).toNat = off := by
  have zero : (0 : Byte).setWidth 32 <<< 16 = (0 : Long) := by decide
  rw [zero, BitVec.toNat_or, BitVec.toNat_ofNat]
  show 0 ||| _ = off
  rw [Nat.zero_or]
  omega

namespace Bus.Writes

variable {region other : Nat → Prop} {b b' b'' : Bus}

/-- No write at all. -/
theorem refl (region : Nat → Prop) (b : Bus) : b.Writes region b := ⟨rfl, fun _ _ => rfl⟩

/-- Writes one after the other. -/
theorem trans (first : b.Writes region b') (second : b'.Writes region b'') :
    b.Writes region b'' := by
  refine ⟨?_, fun a free => (second.spares a free).trans (first.spares a free)⟩
  rw [second.frame, first.frame]

/-- A larger region. -/
theorem mono (writes : b.Writes region b') (within : ∀ a, region a → other a) :
    b.Writes other b' :=
  ⟨writes.frame, fun a free => writes.spares a fun inside => free (within _ inside)⟩

/-- A byte outside the region. -/
theorem gr8 (writes : b.Writes region b') {off : Nat} (inside : off < 0x10000)
    (free : ¬region off) : b'.gr8 0 off = b.gr8 0 off := by
  refine writes.spares _ ?_
  rw [segment0_address inside]
  exact free

/-- A word outside the region. -/
theorem gr16 (writes : b.Writes region b') {off : Nat} (inside : off + 2 ≤ 0x10000)
    (free : ∀ a, extent off (off + 2) a → ¬region a) : b'.gr16 0 off = b.gr16 0 off := by
  rw [Bus.gr16, Bus.gr16, writes.gr8 (by omega) (free off ⟨by omega, by omega⟩),
    writes.gr8 (by omega) (free (off + 1) ⟨by omega, by omega⟩)]

/-- A far pointer outside the region. -/
theorem gr32 (writes : b.Writes region b') {off : Nat} (inside : off + 4 ≤ 0x10000)
    (free : ∀ a, extent off (off + 4) a → ¬region a) : b'.gr32 0 off = b.gr32 0 off := by
  rw [Bus.gr32, Bus.gr32,
    writes.gr16 (by omega) fun a here => free a (extent_mono (by omega) (by omega) a here),
    writes.gr16 (by omega) fun a here => free a (extent_mono (by omega) (by omega) a here)]

end Bus.Writes

section

variable (b : Bus) (off : Nat)

/-- A byte is written at its place. -/
theorem Bus.gw8_writes (inside : off < 0x10000) (v : Byte) :
    b.Writes (extent off (off + 1)) (b.gw8 0 off v) := by
  refine ⟨rfl, fun a free => Function.update_of_ne (fun same => free ?_) _ _⟩
  rw [same, segment0_address inside]
  exact ⟨Nat.le_refl _, Nat.lt_succ_self _⟩

/-- It is read back. -/
theorem Bus.gr8_gw8 (v : Byte) : (b.gw8 0 off v).gr8 0 off = v := Function.update_self ..

/-- A word is written at its two places. -/
theorem Bus.gw16_writes (inside : off + 2 ≤ 0x10000) (v : Word) :
    b.Writes (extent off (off + 2)) (b.gw16 0 off v) := by
  have high := b.gw8_writes off (by omega) (hiByte v)
  have low := (b.gw8 0 off (hiByte v)).gw8_writes (off + 1) (by omega) (loByte v)
  exact (high.mono (extent_mono (by omega) (by omega))).trans
    (low.mono (extent_mono (by omega) (by omega)))

/-- A word is read back. -/
theorem Bus.gr16_gw16 (inside : off + 2 ≤ 0x10000) (v : Word) :
    (b.gw16 0 off v).gr16 0 off = v := by
  have low := (b.gw8 0 off (hiByte v)).gw8_writes (off + 1) (by omega) (loByte v)
  have high : (b.gw16 0 off v).gr8 0 off = hiByte v :=
    (low.gr8 (by omega) fun here => by have := here.1; omega).trans (b.gr8_gw8 _ _)
  rw [gr16, high, gw16, gr8_gw8]
  exact word_halves v

/-- A far pointer is written at its four places. -/
theorem Bus.gw32_writes (inside : off + 4 ≤ 0x10000) (v : Long) :
    b.Writes (extent off (off + 4)) (b.gw32 0 off v) := by
  have high := b.gw16_writes off (by omega) ((v >>> 16).setWidth 16)
  have low := (b.gw16 0 off ((v >>> 16).setWidth 16)).gw16_writes (off + 2) (by omega)
    (v.setWidth 16)
  exact (high.mono (extent_mono (by omega) (by omega))).trans
    (low.mono (extent_mono (by omega) (by omega)))

/-- A far pointer is read back. -/
theorem Bus.gr32_gw32 (inside : off + 4 ≤ 0x10000) (v : Long) :
    (b.gw32 0 off v).gr32 0 off = v := by
  have low := (b.gw16 0 off ((v >>> 16).setWidth 16)).gw16_writes (off + 2) (by omega)
    (v.setWidth 16)
  have high : (b.gw32 0 off v).gr16 0 off = (v >>> 16).setWidth 16 :=
    (low.gr16 (by omega) (extent_apart (by omega))).trans (b.gr16_gw16 _ (by omega) _)
  rw [gr32, high, gw32, gr16_gw16 _ _ (by omega)]
  exact (long_halves v).symm

end

/-! ## Strings and arrays -/

/-- A string that a host hands to a program. `exec` takes none near the range of an `int`. -/
structure CString (s : List Byte) : Prop where
  noNul : 0 ∉ s
  short : s.length + 0x10000 < 2 ^ 31

/-- An offset of the segment. -/
theorem intOff_eq {off : Nat} (inside : off < 0x10000) : intOff off = off := by
  unfold intOff
  omega

/-- The bytes of a string and its terminator. -/
theorem putChars_writes (b : Bus) (place : Nat) (s : List Byte)
    (inside : place + (s.length + 1) ≤ 0x10000) :
    let b' := (putChars b place s).gw8 0 (place + s.length) 0
    b.Writes (extent place (place + (s.length + 1))) b' ∧ TerminatedAt 0 (b'.gr8 0) place s := by
  induction s generalizing b place with
  | nil => exact ⟨b.gw8_writes _ (by omega) 0, b.gr8_gw8 _ 0⟩
  | cons c rest inductionHypothesis =>
    rw [List.length_cons] at inside ⊢
    obtain ⟨writes, terminated⟩ := inductionHypothesis (b.gw8 0 place c) (place + 1) (by omega)
    have next : putChars b place (c :: rest) = putChars (b.gw8 0 place c) ↑(place + 1) rest := by
      rw [putChars, intOff_eq (by omega), cInt_eq (by omega) (by omega)]
      rfl
    rw [next, show place + (rest.length + 1) = place + 1 + rest.length by omega]
    have first := b.gw8_writes place (by omega) c
    refine ⟨?_, ?_, terminated⟩
    · exact (first.mono (extent_mono (by omega) (by omega))).trans
        (writes.mono (extent_mono (by omega) (by omega)))
    · exact (writes.gr8 (by omega) fun here => by have := here.1; omega).trans (b.gr8_gw8 _ c)

/-- A string goes into the pool if its end stays below the limit. -/
theorem putStr_eq {s : List Byte} (b : Bus) {place : Nat} (string : CString s)
    (below : place ≤ poolLimit) :
    putStr s ⟨b, place⟩ =
      if poolLimit < place + s.length + 1 then .error (.pool place (place - poolBase))
      else .ok (BitVec.ofNat 32 place,
        ⟨(putChars b place s).gw8 0 (place + s.length) 0, ↑(place + (s.length + 1))⟩) := by
  have short := string.short
  have limit : poolLimit = 0xFF00 := rfl
  have base : poolBase = 0xD000 := rfl
  have length : cInt s.length = s.length := cInt_eq (by omega) (by omega)
  have sum : cInt (place + s.length) = ↑(place + s.length) := cInt_eq (by omega) (by omega)
  have stop : cInt (↑(place + s.length) + 1) = ↑(place + s.length + 1) :=
    cInt_eq (by omega) (by omega)
  have used : cInt (place - poolBase) = place - poolBase := cInt_eq (by omega) (by omega)
  have size : cInt (s.length + 1) = s.length + 1 := cInt_eq (by omega) (by omega)
  have next : cInt (place + (s.length + 1)) = ↑(place + (s.length + 1)) :=
    cInt_eq (by omega) (by omega)
  unfold putStr
  dsimp only
  rw [length, sum, stop, used, size, next, Int.toNat_natCast, List.take_length,
    BitVec.ofInt_natCast]
  by_cases excess : poolLimit < place + s.length + 1
  · rw [if_pos excess, if_pos (by omega)]
  · rw [if_neg excess, if_neg (by omega), intOff_eq (by omega)]

/-- The memory holds an array of far pointers to strings that lie in a pool. -/
def Bus.VectorAt (b : Bus) (lo hi : Nat) : Nat → List (List Byte) → Prop
  | _, [] => True
  | slot, s :: rest =>
    (∃ place, b.gr32 0 slot = BitVec.ofNat 32 place ∧ lo ≤ place ∧ place + (s.length + 1) ≤ hi ∧
      TerminatedAt 0 (b.gr8 0) place s) ∧ b.VectorAt lo hi (slot + 4) rest

/-- Writes beside the array and the pool. -/
theorem Bus.VectorAt.writes {region : Nat → Prop} {b b' : Bus} {lo hi slot : Nat}
    {strings : List (List Byte)} (holds : b.VectorAt lo hi slot strings)
    (writes : b.Writes region b') (below : hi ≤ 0x10000)
    (inside : slot + 4 * strings.length ≤ 0x10000)
    (array : ∀ a, extent slot (slot + 4 * strings.length) a → ¬region a)
    (pool : ∀ a, extent lo hi a → ¬region a) : b'.VectorAt lo hi slot strings := by
  induction strings generalizing slot with
  | nil => trivial
  | cons s rest inductionHypothesis =>
    obtain ⟨⟨place, pointer, above, ends, terminated⟩, others⟩ := holds
    rw [List.length_cons] at inside array
    refine ⟨⟨place, ?_, above, ends, ?_⟩, ?_⟩
    · rw [writes.gr32 (by omega) fun a here => array a (extent_mono (by omega) (by omega) a here)]
      exact pointer
    · exact terminated.congr fun p after before =>
        writes.gr8 (by omega) (pool p ⟨by omega, by omega⟩)
    · exact inductionHypothesis others (by omega) fun a here =>
        array a (extent_mono (by omega) (by omega) a here)

/-- A larger pool. -/
theorem Bus.VectorAt.widen {b : Bus} {lo low hi high slot : Nat} {strings : List (List Byte)}
    (holds : b.VectorAt lo hi slot strings) (below : low ≤ lo) (above : hi ≤ high) :
    b.VectorAt low high slot strings := by
  induction strings generalizing slot with
  | nil => trivial
  | cons s rest inductionHypothesis =>
    obtain ⟨⟨place, pointer, after, ends, terminated⟩, others⟩ := holds
    exact ⟨⟨place, pointer, Nat.le_trans below after, Nat.le_trans ends above, terminated⟩,
      inductionHypothesis others⟩

/-- The bytes that strings take in the pool. -/
def poolBytes (strings : List (List Byte)) : Nat := (strings.map fun s => s.length + 1).sum

/-- One argument: its pointer and its string. -/
theorem putArg_ok {slot place : Nat} {s : List Byte} {b : Bus} {q : StringPool}
    (string : CString s) (put : putArg slot s ⟨b, place⟩ = .ok q) (below : slot + 4 ≤ place)
    (start : place ≤ poolLimit) :
    q.strOff = ↑(place + (s.length + 1)) ∧ place + (s.length + 1) ≤ poolLimit ∧
      b.Writes (fun a => extent slot (slot + 4) a ∨
        extent place (place + (s.length + 1)) a) q.bus ∧
      q.bus.gr32 0 slot = BitVec.ofNat 32 place ∧ TerminatedAt 0 (q.bus.gr8 0) place s := by
  have limit : poolLimit = 0xFF00 := rfl
  unfold putArg at put
  rw [putStr_eq b string start, intOff_eq (by omega)] at put
  by_cases excess : poolLimit < place + s.length + 1
  · rw [if_pos excess] at put
    exact nomatch put
  · rw [if_neg excess] at put
    obtain rfl := Except.ok.inj put
    obtain ⟨writes, terminated⟩ := putChars_writes b place s (by omega)
    have pointer := ((putChars b place s).gw8 0 (place + s.length) 0).gw32_writes slot (by omega)
      (BitVec.ofNat 32 place)
    refine ⟨rfl, by omega, ?_, Bus.gr32_gw32 _ _ (by omega) _, ?_⟩
    · exact (writes.mono fun a here => .inr here).trans (pointer.mono fun a here => .inl here)
    · exact terminated.congr fun q after before =>
        pointer.gr8 (by omega) fun here => by have := here.2; omega

/-- The loop over the strings fills the array and the pool. -/
theorem putArgs_ok {strings : List (List Byte)} {slot place : Nat} {b : Bus} {q : StringPool}
    (each : ∀ s ∈ strings, CString s) (put : putArgs slot strings ⟨b, place⟩ = .ok q)
    (below : slot + 4 * strings.length ≤ place) (start : place ≤ poolLimit) :
    q.strOff = ↑(place + poolBytes strings) ∧ place + poolBytes strings ≤ poolLimit ∧
      b.Writes (fun a => extent slot (slot + 4 * strings.length) a ∨
        extent place (place + poolBytes strings) a) q.bus ∧
      q.bus.VectorAt place (place + poolBytes strings) slot strings := by
  induction strings generalizing slot place b with
  | nil =>
    obtain rfl := Except.ok.inj put
    exact ⟨rfl, start, .refl _ _, trivial⟩
  | cons s rest inductionHypothesis =>
    obtain ⟨string, remaining⟩ := List.forall_mem_cons.mp each
    have limit : poolLimit = 0xFF00 := rfl
    rw [List.length_cons] at below ⊢
    have next : cInt (slot + 4) = ↑(slot + 4) := cInt_eq (by omega) (by omega)
    unfold putArgs at put
    rcases one : putArg slot s ⟨b, place⟩ with e | ⟨b', stop⟩
    · rw [one] at put
      exact nomatch put
    · rw [one, next] at put
      obtain ⟨moved, fits, first, pointer, terminated⟩ := putArg_ok string one (by omega) start
      dsimp only at moved first pointer terminated
      rw [moved] at put
      obtain ⟨last, ends, others, vector⟩ := inductionHypothesis remaining put (by omega) fits
      have total : poolBytes (s :: rest) = (s.length + 1) + poolBytes rest := List.sum_cons
      refine ⟨by omega, by omega, ?_, ⟨place, ?_, Nat.le_refl _, by omega, ?_⟩, ?_⟩
      · refine (first.mono fun a here => ?_).trans (others.mono fun a here => ?_)
        · exact here.imp (extent_mono (by omega) (by omega) a)
            (extent_mono (by omega) (by omega) a)
        · exact here.imp (extent_mono (by omega) (by omega) a)
            (extent_mono (by omega) (by omega) a)
      · refine (others.gr32 (by omega) fun a here there => ?_).trans pointer
        rcases there with array | pool
        · exact extent_apart (by omega) a here array
        · exact extent_apart (by omega) a here pool
      · refine terminated.congr fun a after before => others.gr8 (by omega) fun there => ?_
        rcases there with inArray | inPool
        · have := inArray.2
          omega
        · have := inPool.1
          omega
      · exact vector.widen (by omega) (by omega)

/-! ## Reading the frame -/

/-- The halves of a far pointer into segment 0. -/
theorem farSeg_segment0 (place : Nat) (inside : place < 0x10000) :
    farSeg (BitVec.ofNat 32 place) = 0 ∧ farOff (BitVec.ofNat 32 place) = place := by
  constructor
  · apply BitVec.eq_of_toNat_eq
    rw [farSeg, BitVec.toNat_setWidth, BitVec.toNat_and, BitVec.toNat_ushiftRight,
      Nat.shiftRight_eq_div_pow, BitVec.toNat_ofNat]
    have zero : place % 2 ^ 32 / 2 ^ 24 = 0 := by omega
    rw [zero]
    rfl
  · rw [farOff, BitVec.toNat_setWidth, BitVec.toNat_ofNat]
    omega

/-- An array that ends with a null pointer is read back. -/
theorem Bus.VectorAt.vector_eq {b : Bus} {lo hi slot fuel : Nat} {strings : List (List Byte)}
    (holds : b.VectorAt lo hi slot strings) (positive : 0 < lo) (below : hi ≤ 0x10000)
    (noNul : ∀ s ∈ strings, 0 ∉ s) (null : b.gr32 0 (slot + 4 * strings.length) = 0)
    (enough : strings.length < fuel) : b.vector 0 fuel slot = strings := by
  induction strings generalizing slot fuel with
  | nil =>
    obtain ⟨fuel, rfl⟩ := Nat.exists_eq_succ_of_ne_zero (Nat.ne_of_gt enough)
    exact if_pos null
  | cons s rest inductionHypothesis =>
    obtain ⟨⟨place, pointer, above, ends, terminated⟩, others⟩ := holds
    rw [List.length_cons] at enough null
    obtain ⟨fuel, rfl⟩ := Nat.exists_eq_succ_of_ne_zero (n := fuel) (by omega)
    obtain ⟨first, remaining⟩ := List.forall_mem_cons.mp noNul
    have inside : place < 0x10000 := by omega
    have some : BitVec.ofNat 32 place ≠ 0 := fun zero => by
      have same := congrArg BitVec.toNat zero
      rw [BitVec.toNat_ofNat] at same
      change place % 2 ^ 32 = 0 at same
      omega
    obtain ⟨segment, offset⟩ := farSeg_segment0 place inside
    have string : b.farString (BitVec.ofNat 32 place) = s := by
      rw [farString, segment, offset]
      exact terminated.scanTo_eq first (by omega)
    rw [vector, pointer, if_neg some, string, inductionHypothesis others remaining _ (by omega)]
    rw [show slot + 4 + 4 * rest.length = slot + 4 * (rest.length + 1) by omega]
    exact null

/-! ## The regions -/

/-- The layout in numbers. -/
theorem layout_constants : userSp = 0xCF00 ∧ argdesc = 0xCF10 ∧ poolBase = 0xD000 ∧
    poolLimit = 0xFF00 ∧ errnoOff = 0xFFFE := ⟨rfl, rfl, rfl, rfl, rfl⟩

section Regions

variable (prog env : List (List Byte))

/-- The place of the environment array. -/
def envpArr : Nat := argdesc + (prog.length + 1) * 4

/-- The place of the string pool. -/
def poolStart : Nat :=
  let strOff := envpArr prog + (env.length + 1) * 4
  if strOff < poolBase then poolBase else strOff

/-- The end of the string pool. -/
def poolStop : Nat := poolStart prog env + poolBytes prog + poolBytes env

/-- Where the arrays and the pool lie. -/
theorem layout_places : envpArr prog = argdesc + (prog.length + 1) * 4 ∧
    envpArr prog + (env.length + 1) * 4 ≤ poolStart prog env ∧ poolBase ≤ poolStart prog env ∧
    poolStop prog env = poolStart prog env + poolBytes prog + poolBytes env := by
  have start : envpArr prog + (env.length + 1) * 4 ≤ poolStart prog env ∧
      poolBase ≤ poolStart prog env := by
    unfold poolStart
    dsimp only
    split_ifs <;> omega
  exact ⟨rfl, start.1, start.2, rfl⟩

end Regions

/-- The frame, the two arrays with their null pointers, and the pool they point into. -/
structure Bus.Laid (b : Bus) (prog env : List (List Byte)) : Prop where
  argc : b.gr16 0 userSp = BitVec.ofNat 16 prog.length
  argv : b.gr32 0 (userSp + 2) = BitVec.ofNat 32 argdesc
  envp : b.gr32 0 (userSp + 6) = BitVec.ofNat 32 (envpArr prog)
  args : b.VectorAt (poolStart prog env) (poolStop prog env) argdesc prog
  argsNull : b.gr32 0 (argdesc + 4 * prog.length) = 0
  vars : b.VectorAt (poolStart prog env) (poolStop prog env) (envpArr prog) env
  varsNull : b.gr32 0 (envpArr prog + 4 * env.length) = 0

/-- The last null pointer and the frame. -/
theorem frame_words (b : Bus) (null : Nat) (above : userSp + 10 ≤ null)
    (inside : null + 4 ≤ 0x10000) (argc : Word) (argv envp : Long) :
    let b' := (((b.gw32 0 null 0).gw16 0 userSp argc).gw32 0 (userSp + 2) argv).gw32 0
      (userSp + 6) envp
    b.Writes (fun a => extent userSp (userSp + 10) a ∨ extent null (null + 4) a) b' ∧
      b'.gr16 0 userSp = argc ∧ b'.gr32 0 (userSp + 2) = argv ∧ b'.gr32 0 (userSp + 6) = envp ∧
      b'.gr32 0 null = 0 := by
  obtain ⟨sp, -⟩ := layout_constants
  let first := b.gw32 0 null 0
  let second := first.gw16 0 userSp argc
  let third := second.gw32 0 (userSp + 2) argv
  have one := b.gw32_writes null inside 0
  have two := first.gw16_writes userSp (by omega) argc
  have three := second.gw32_writes (userSp + 2) (by omega) argv
  have four := third.gw32_writes (userSp + 6) (by omega) envp
  have later : first.Writes (extent userSp (userSp + 10)) (third.gw32 0 (userSp + 6) envp) := by
    exact (two.mono (extent_mono (by omega) (by omega))).trans
      ((three.mono (extent_mono (by omega) (by omega))).trans
        (four.mono (extent_mono (by omega) (by omega))))
  refine ⟨(one.mono fun a here => .inr here).trans (later.mono fun a here => .inl here), ?_, ?_,
    third.gr32_gw32 _ (by omega) envp, ?_⟩
  · rw [four.gr16 (by omega) (extent_apart (by omega)),
      three.gr16 (by omega) (extent_apart (by omega))]
    exact first.gr16_gw16 _ (by omega) argc
  · rw [four.gr32 (by omega) (extent_apart (by omega))]
    exact second.gr32_gw32 _ (by omega) argv
  · rw [later.gr32 inside (extent_apart (by omega))]
    exact b.gr32_gw32 null inside 0

/-- Few enough strings that no sum over their counts leaves an `int`. -/
def FewStrings (prog env : List (List Byte)) : Prop := prog.length ≤ 0x10000 ∧ env.length ≤ 64

/-- The frame is built by two loops. The path is the first string of the first one. -/
theorem buildFrame_eq {path : List Byte} {args env : List (List Byte)} (b : Bus)
    (few : FewStrings (path :: args) env) :
    let prog := path :: args
    buildFrame path args env b =
      if poolLimit < poolStart prog env then
        .error (.arrays prog.length env.length (poolStart prog env))
      else (putArgs argdesc prog ⟨b, poolStart prog env⟩).bind fun p =>
        (putArgs (envpArr prog) env ⟨p.bus.gw32 0 (argdesc + prog.length * 4) 0, p.strOff⟩).bind
          fun q => .ok ((((q.bus.gw32 0 (envpArr prog + env.length * 4) 0).gw16 0 userSp
            (BitVec.ofNat 16 prog.length)).gw32 0 (userSp + 2) (BitVec.ofNat 32 argdesc)).gw32 0
              (userSp + 6) (BitVec.ofNat 32 (envpArr prog))) := by
  intro prog
  obtain ⟨several, vars⟩ : prog.length ≤ 0x10000 ∧ env.length ≤ 64 := few
  obtain ⟨sp, desc, base, limit, -⟩ := layout_constants
  obtain ⟨arr, after, floor, -⟩ := layout_places prog env
  have exact {sum : Int} {value : Nat} (same : sum = value) (small : value < 0x100000) :
      cInt sum = value := same ▸ cInt_of_nonneg value (by omega) (by omega)
  have nprog : cInt (args.length + 1) = prog.length := exact rfl (by omega)
  have nenv : cInt env.length = env.length := exact rfl (by omega)
  have slots : cInt (prog.length + 1) = ↑(prog.length + 1) := exact rfl (by omega)
  have bytes : cInt (↑(prog.length + 1) * 4) = ↑((prog.length + 1) * 4) := exact rfl (by omega)
  have array : cInt (argdesc + ↑((prog.length + 1) * 4)) = envpArr prog := exact rfl (by omega)
  have envSlots : cInt (env.length + 1) = ↑(env.length + 1) := exact rfl (by omega)
  have envBytes : cInt (↑(env.length + 1) * 4) = ↑((env.length + 1) * 4) := exact rfl (by omega)
  have free : cInt (envpArr prog + ↑((env.length + 1) * 4)) =
    ↑(envpArr prog + (env.length + 1) * 4) := exact rfl (by omega)
  have start : (if (↑(envpArr prog + (env.length + 1) * 4) : Int) < poolBase then (poolBase : Int)
      else ↑(envpArr prog + (env.length + 1) * 4)) = poolStart prog env := by
    unfold poolStart
    dsimp only
    split_ifs <;> omega
  have words : cInt (prog.length * 4) = ↑(prog.length * 4) := exact rfl (by omega)
  have null : cInt (argdesc + ↑(prog.length * 4)) = ↑(argdesc + prog.length * 4) :=
    exact rfl (by omega)
  have envWords : cInt (env.length * 4) = ↑(env.length * 4) := exact rfl (by omega)
  have envNull : cInt (envpArr prog + ↑(env.length * 4)) = ↑(envpArr prog + env.length * 4) :=
    exact rfl (by omega)
  unfold buildFrame
  dsimp only
  rw [nprog, nenv, slots, bytes, array, envSlots, envBytes, free, start, words, null, envWords,
    envNull]
  by_cases excess : poolLimit < poolStart prog env
  · rw [if_pos excess, if_pos (Int.ofNat_lt.mpr excess)]
    rfl
  · rw [if_neg excess, if_neg fun above => excess (Int.ofNat_lt.mp above)]
    have fits : poolStart prog env ≤ poolLimit := Nat.le_of_not_lt excess
    clear nprog nenv slots bytes array envSlots envBytes free start words null envWords envNull
    rw [intOff_eq (by omega), intOff_eq (by omega)]
    let x := putArg argdesc path ⟨b, poolStart prog env⟩
    show x.bind _ = (x.bind (putArgs (cInt (argdesc + 4)) args)).bind _
    cases x <;> rfl

/-- The two loops of a frame that fits. -/
theorem buildFrame_loops {path : List Byte} {args env : List (List Byte)} {b b' : Bus}
    (few : FewStrings (path :: args) env) (built : buildFrame path args env b = .ok b') :
    let prog := path :: args
    ∃ p q, poolStart prog env ≤ poolLimit ∧
      putArgs argdesc prog ⟨b, poolStart prog env⟩ = .ok p ∧
      putArgs (envpArr prog) env ⟨p.bus.gw32 0 (argdesc + prog.length * 4) 0, p.strOff⟩ = .ok q ∧
      (((q.bus.gw32 0 (envpArr prog + env.length * 4) 0).gw16 0 userSp
        (BitVec.ofNat 16 prog.length)).gw32 0 (userSp + 2) (BitVec.ofNat 32 argdesc)).gw32 0
          (userSp + 6) (BitVec.ofNat 32 (envpArr prog)) = b' := by
  intro prog
  rw [buildFrame_eq b few] at built
  split_ifs at built with excess
  rcases first : putArgs argdesc prog ⟨b, poolStart prog env⟩ with e | p
  · rw [first] at built
    exact nomatch built
  rw [first, Except.bind] at built
  rcases second : putArgs (envpArr prog) env
    ⟨p.bus.gw32 0 (argdesc + prog.length * 4) 0, p.strOff⟩ with e | q
  · rw [second] at built
    exact nomatch built
  rw [second] at built
  exact ⟨p, q, Nat.le_of_not_lt excess, rfl, second, Except.ok.inj built⟩

/-- A frame that fits is laid out in its regions, and nothing else is written. -/
theorem buildFrame_ok {path : List Byte} {args env : List (List Byte)} {b b' : Bus}
    (few : FewStrings (path :: args) env) (each : ∀ s ∈ path :: args, CString s)
    (others : ∀ s ∈ env, CString s) (built : buildFrame path args env b = .ok b') :
    poolStop (path :: args) env ≤ poolLimit ∧ b.Writes (extent userSp poolLimit) b' ∧
      b'.Laid (path :: args) env := by
  obtain ⟨⟨memory, place⟩, q, starts, first, second, rfl⟩ := buildFrame_loops few built
  obtain ⟨sp, desc, base, limit, -⟩ := layout_constants
  generalize path :: args = prog at each starts first second ⊢
  obtain ⟨arr, after, floor, stop⟩ := layout_places prog env
  obtain ⟨last, fits, writes, args⟩ := putArgs_ok each first (by omega) starts
  dsimp only at last writes args second
  rw [last] at second
  have null := memory.gw32_writes (argdesc + prog.length * 4) (by omega) 0
  have argsNull := memory.gr32_gw32 (argdesc + prog.length * 4) (by omega) 0
  obtain ⟨-, ends, between, vars⟩ := putArgs_ok others second (by omega) fits
  obtain ⟨final, argc, argv, envp, varsNull⟩ := frame_words q.bus
    (envpArr prog + env.length * 4) (by omega) (by omega) (BitVec.ofNat 16 prog.length)
    (BitVec.ofNat 32 argdesc) (BitVec.ofNat 32 (envpArr prog))
  have later : Bus.Writes (fun a => extent userSp (userSp + 10) a ∨
      extent (envpArr prog) (envpArr prog + (env.length + 1) * 4) a ∨
      extent (poolStart prog env + poolBytes prog) poolLimit a) _ _ :=
    (between.mono fun a here => ?_).trans (final.mono fun a here => ?_)
  rotate_left
  · rcases here with ⟨above, below⟩ | ⟨above, below⟩
    · exact .inr (.inl ⟨above, by omega⟩)
    · exact .inr (.inr ⟨above, Nat.lt_of_lt_of_le below ends⟩)
  · rcases here with frame | ⟨above, below⟩
    · exact .inl frame
    · exact .inr (.inl ⟨by omega, by omega⟩)
  refine ⟨by omega, ?_, argc, argv, envp, ?_, ?_, ?_, ?_⟩
  · refine ((writes.mono fun a here => ?_).trans (null.mono fun a here => ?_)).trans
      (later.mono fun a here => ?_)
    all_goals
      unfold extent at here ⊢
      omega
  · refine ((args.writes null (by omega) (by omega) ?_ ?_).writes later (by omega) (by omega)
      ?_ ?_).widen (Nat.le_refl _) (by omega)
    all_goals
      intro a here there
      unfold extent at here there
      omega
  · rw [Nat.mul_comm 4 prog.length]
    refine (later.gr32 (by omega) fun a here there => ?_).trans argsNull
    unfold extent at here there
    omega
  · refine (vars.writes final (by omega) (by omega) ?_ ?_).widen (by omega) (by omega)
    all_goals
      intro a here there
      unfold extent at here there
      omega
  · rw [Nat.mul_comm 4 env.length]
    exact varsNull

/-! ## What fits -/

/-- The loop over the strings stops only for strings that do not fit. -/
theorem putArgs_fits {strings : List (List Byte)} (slot place : Nat) (b : Bus)
    (each : ∀ s ∈ strings, CString s) (array : slot + 4 * strings.length ≤ place)
    (fits : place + poolBytes strings ≤ poolLimit) :
    ∃ q, putArgs slot strings ⟨b, place⟩ = .ok q ∧ q.strOff = ↑(place + poolBytes strings) := by
  induction strings generalizing slot place b with
  | nil => exact ⟨_, rfl, rfl⟩
  | cons s rest inductionHypothesis =>
    obtain ⟨string, remaining⟩ := List.forall_mem_cons.mp each
    have limit : poolLimit = 0xFF00 := rfl
    have total : poolBytes (s :: rest) = (s.length + 1) + poolBytes rest := List.sum_cons
    rw [List.length_cons] at array
    have room : ¬poolLimit < place + s.length + 1 := by omega
    have next : cInt (slot + 4) = ↑(slot + 4) := cInt_eq (by omega) (by omega)
    let x : StringPool := ⟨((putChars b place s).gw8 0 (place + s.length) 0).gw32 0 slot
      (BitVec.ofNat 32 place), ↑(place + (s.length + 1))⟩
    have one : putArg slot s ⟨b, place⟩ = .ok x := by
      unfold putArg
      rw [putStr_eq b string (by omega), if_neg room, intOff_eq (by omega)]
      rfl
    obtain ⟨q, others, ends⟩ := inductionHypothesis (slot + 4) (place + (s.length + 1)) x.bus
      remaining (by omega) (by omega)
    refine ⟨q, ?_, by omega⟩
    unfold putArgs
    rw [one, next]
    exact others

/-- A command line whose pool ends below the limit has a frame. -/
theorem buildFrame_fits {path : List Byte} {args env : List (List Byte)} (b : Bus)
    (few : FewStrings (path :: args) env) (each : ∀ s ∈ path :: args, CString s)
    (others : ∀ s ∈ env, CString s) (fits : poolStop (path :: args) env ≤ poolLimit) :
    ∃ b', buildFrame path args env b = .ok b' := by
  rw [buildFrame_eq b few]
  generalize path :: args = prog at each fits ⊢
  obtain ⟨arr, after, floor, stop⟩ := layout_places prog env
  obtain ⟨p, first, last⟩ := putArgs_fits argdesc (poolStart prog env) b each (by omega) (by omega)
  obtain ⟨q, second, -⟩ := putArgs_fits (envpArr prog) (poolStart prog env + poolBytes prog)
    (p.bus.gw32 0 (argdesc + prog.length * 4) 0) others (by omega) (by omega)
  rw [if_neg (by omega), first, Except.bind, last, second]
  exact ⟨_, rfl⟩

/-! ## The program's view -/

/-- What the startup code decodes: the count, and the two lists behind their far pointers with
the null pointers at their ends. -/
structure Bus.Decodes (b : Bus) (prog env : List (List Byte)) : Prop where
  argc : (b.gr16 0 userSp).toNat = prog.length
  argv : b.farVector (b.gr32 0 (userSp + 2)) = prog
  envp : b.farVector (b.gr32 0 (userSp + 6)) = env
  argvNull : b.gr32 (farSeg (b.gr32 0 (userSp + 2)))
    (farOff (b.gr32 0 (userSp + 2)) + 4 * prog.length) = 0
  envpNull : b.gr32 (farSeg (b.gr32 0 (userSp + 6)))
    (farOff (b.gr32 0 (userSp + 6)) + 4 * env.length) = 0

/-- The frame, the two arrays and the pool, one behind the other and below `errno`. -/
structure Separate (prog env : List (List Byte)) : Prop where
  frame : userSp + 10 ≤ argdesc
  argv : argdesc + 4 * (prog.length + 1) ≤ envpArr prog
  envp : envpArr prog + 4 * (env.length + 1) ≤ poolStart prog env
  pool : poolStop prog env ≤ poolLimit
  errno : poolLimit ≤ errnoOff

/-- The regions of a command line that fits are apart. -/
theorem separate_of_fits {prog env : List (List Byte)} (fits : poolStop prog env ≤ poolLimit) :
    Separate prog env := by
  obtain ⟨arr, after, -⟩ := layout_places prog env
  exact ⟨by decide, by omega, by omega, fits, by decide⟩

/-- A laid frame decodes. -/
theorem Bus.Laid.decodes {b : Bus} {prog env : List (List Byte)} (laid : b.Laid prog env)
    (fits : poolStop prog env ≤ poolLimit) (progNul : ∀ s ∈ prog, 0 ∉ s)
    (envNul : ∀ s ∈ env, 0 ∉ s) : b.Decodes prog env := by
  obtain ⟨sp, desc, base, limit, -⟩ := layout_constants
  obtain ⟨arr, after, floor, stop⟩ := layout_places prog env
  obtain ⟨argvSeg, argvOff⟩ := farSeg_segment0 argdesc (by omega)
  obtain ⟨envpSeg, envpOff⟩ := farSeg_segment0 (envpArr prog) (by omega)
  refine ⟨?_, ?_, ?_, ?_, ?_⟩
  · rw [laid.argc, BitVec.toNat_ofNat]
    exact Nat.mod_eq_of_lt (by omega)
  · rw [laid.argv, farVector, argvSeg, argvOff]
    exact laid.args.vector_eq (by omega) (by omega) progNul laid.argsNull (by omega)
  · rw [laid.envp, farVector, envpSeg, envpOff]
    exact laid.vars.vector_eq (by omega) (by omega) envNul laid.varsNull (by omega)
  · rw [laid.argv, argvSeg, argvOff]
    exact laid.argsNull
  · rw [laid.envp, envpSeg, envpOff]
    exact laid.varsNull

/-- Writes beside the frame and the pool leave it laid. -/
theorem Bus.Laid.writes {region : Nat → Prop} {b b' : Bus} {prog env : List (List Byte)}
    (laid : b.Laid prog env) (writes : b.Writes region b')
    (fits : poolStop prog env ≤ poolLimit) (free : ∀ a, extent userSp poolLimit a → ¬region a) :
    b'.Laid prog env := by
  obtain ⟨sp, desc, base, limit, -⟩ := layout_constants
  obtain ⟨arr, after, floor, stop⟩ := layout_places prog env
  have within {lo hi : Nat} (above : userSp ≤ lo) (below : hi ≤ poolLimit) (a : Nat)
      (here : extent lo hi a) : ¬region a := free a (extent_mono above below a here)
  refine ⟨?_, ?_, ?_, ?_, ?_, ?_, ?_⟩
  · exact (writes.gr16 (by omega) (within (by omega) (by omega))).trans laid.argc
  · exact (writes.gr32 (by omega) (within (by omega) (by omega))).trans laid.argv
  · exact (writes.gr32 (by omega) (within (by omega) (by omega))).trans laid.envp
  · exact laid.args.writes writes (by omega) (by omega) (within (by omega) (by omega))
      (within (by omega) (by omega))
  · exact (writes.gr32 (by omega) (within (by omega) (by omega))).trans laid.argsNull
  · exact laid.vars.writes writes (by omega) (by omega) (within (by omega) (by omega))
      (within (by omega) (by omega))
  · exact (writes.gr32 (by omega) (within (by omega) (by omega))).trans laid.varsNull

/-- Words are written at their places. -/
theorem Bus.gw16s_writes (b : Bus) (words : List (Nat × Word)) {hi : Nat} (below : hi ≤ 0x10000)
    (inside : ∀ w ∈ words, w.1 + 2 ≤ hi) : b.Writes (extent 0 hi) (b.gw16s words) := by
  induction words generalizing b with
  | nil => exact .refl _ _
  | cons w rest inductionHypothesis =>
    obtain ⟨first, others⟩ := List.forall_mem_cons.mp inside
    refine Bus.Writes.trans ?_ (inductionHypothesis (b.gw16 0 w.1 w.2) others)
    exact (b.gw16_writes w.1 (Nat.le_trans first below) w.2).mono
      (extent_mono (Nat.zero_le _) first)

/-- The list that `N2ENV` stands for. -/
theorem envEntries_eq {n2env : Option (List Byte)}
    (few : (entries 0x3A (n2env.getD [])).length ≤ 64) :
    envEntries n2env = entries 0x3A (n2env.getD []) := by
  unfold envEntries
  cases n2env with
  | none => rfl
  | some e =>
    dsimp only
    split_ifs with nothing
    · rw [nothing]
      rfl
    · rw [tokens_eq]
      exact List.take_of_length_le few

/-- The environment is made of strings of the host. -/
theorem envEntries_strings {n2env : Option (List Byte)} (list : CString (n2env.getD [])) :
    ∀ s ∈ envEntries n2env, CString s := by
  intro s member
  unfold envEntries at member
  cases n2env with
  | none => exact absurd member List.not_mem_nil
  | some e =>
    dsimp only at member
    split_ifs at member with nothing
    · exact absurd member List.not_mem_nil
    · have part : s.Sublist e := sublist_of_mem_tokens member
      have short : e.length + 0x10000 < 2 ^ 31 := list.short
      have length := part.length_le
      exact ⟨fun nul => list.noNul (part.mem nul), by omega⟩

/-- `run_exec` stops for a command line that does not fit, and hands over any other one whole. -/
theorem runExecSetup_decodes (path : List Byte) (args : List (List Byte))
    (n2env : Option (List Byte)) (entrySeg : Byte) (entryOff : Word) (b : Bus)
    (strings : ∀ s ∈ path :: args, CString s) (list : CString (n2env.getD []))
    (count : args.length < 0x10000) (few : (entries 0x3A (n2env.getD [])).length ≤ 64) :
    let prog := path :: args
    let env := entries 0x3A (n2env.getD [])
    (poolLimit < poolStop prog env ∧
      ∃ e, runExecSetup path args n2env entrySeg entryOff b = .error e) ∨
    ∃ framed, buildFrame path args (envEntries n2env) (b.gw16s psaWords) = .ok framed ∧
      (b.gw16s psaWords).Writes (extent userSp poolLimit) framed ∧
      runExecSetup path args n2env entrySeg entryOff b =
        .ok (framed.gw16s (stubWords entrySeg entryOff)) ∧
      (framed.gw16s (stubWords entrySeg entryOff)).Decodes prog env ∧ Separate prog env ∧
      (framed.gw16s (stubWords entrySeg entryOff)).gr16 0 errnoOff = b.gr16 0 errnoOff := by
  intro prog env
  have taken : envEntries n2env = env := envEntries_eq few
  have envStrings : ∀ s ∈ env, CString s := taken ▸ envEntries_strings list
  have several : FewStrings (path :: args) env := ⟨count, few⟩
  have setup : runExecSetup path args n2env entrySeg entryOff b =
    (buildFrame path args env (b.gw16s psaWords)).bind fun framed =>
      .ok (framed.gw16s (stubWords entrySeg entryOff)) := by
    rw [← taken]
    rfl
  obtain ⟨sp, -, -, limit, errno⟩ := layout_constants
  rcases built : buildFrame path args env (b.gw16s psaWords) with e | framed
  · refine .inl ⟨Nat.lt_of_not_le fun fits => ?_, e, by rw [setup, built]; rfl⟩
    obtain ⟨framed, fine⟩ := buildFrame_fits (b.gw16s psaWords) several strings envStrings fits
    exact nomatch built.symm.trans fine
  · obtain ⟨fits, writes, laid⟩ := buildFrame_ok several strings envStrings built
    have before := b.gw16s_writes psaWords (show 0x64 ≤ 0x10000 by decide) (by decide)
    have after := framed.gw16s_writes (stubWords entrySeg entryOff)
      (show 0x64 ≤ 0x10000 by decide) (by
        unfold stubWords
        simp only [List.forall_mem_cons]
        decide)
    refine .inr ⟨framed, taken ▸ built, writes, by rw [setup, built]; rfl, ?_,
      separate_of_fits fits, ?_⟩
    · exact (laid.writes after fits (extent_apart (by omega))).decodes fits
        (fun s member => (strings s member).noNul) fun s member => (envStrings s member).noNul
    · rw [after.gr16 (by omega) (extent_apart (by omega)),
        writes.gr16 (by omega) (extent_apart (by omega)),
        before.gr16 (by omega) (extent_apart (by omega))]

/-- The command `a b` with `T=1` and `H=/` in its environment. -/
theorem runExecSetup_decodes_command :
    ∃ b', runExecSetup [0x61] [[0x62]] (some [0x54, 0x3D, 0x31, 0x3A, 0x3A, 0x48, 0x3D, 0x2F]) 3
        0x1234 machineNew.bus = .ok b' ∧
      b'.Decodes [[0x61], [0x62]] [[0x54, 0x3D, 0x31], [0x48, 0x3D, 0x2F]] := by
  have list : entries 0x3A ((some [0x54, 0x3D, 0x31, 0x3A, 0x3A, 0x48, 0x3D, 0x2F]).getD []) =
    [[0x54, 0x3D, 0x31], [0x48, 0x3D, (0x2F : Byte)]] := by decide
  have short (s : List Byte) (noNul : 0 ∉ s) (few : s.length ≤ 8) : CString s := by
    exact ⟨noNul, by omega⟩
  rcases runExecSetup_decodes [0x61] [[0x62]]
      (some [0x54, 0x3D, 0x31, 0x3A, 0x3A, 0x48, 0x3D, 0x2F]) 3 0x1234 machineNew.bus
      (fun s member => short s (by revert s; decide) (by revert s; decide))
      (short _ (by decide) (by decide)) (by decide) (by decide) with
    ⟨excess, -⟩ | ⟨framed, -, -, done, decodes, -, -⟩
  · rw [list] at excess
    exact absurd excess (by decide)
  · rw [list] at decodes
    exact ⟨_, done, decodes⟩

end C900
