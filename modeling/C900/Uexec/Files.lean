import C900.Emu.State
import C900.Logic.History
import Mathlib.Data.Fin.Tuple.Basic
import Mathlib.Data.Finset.Basic
import Mathlib.Tactic.SplitIfs

/-!
# The files of a guest process

The guest's numbers of open files and the host descriptors behind them: `open`, `creat`
and `close` of `sys_hook`. The host is a parameter of each call: what it answers to
`stat`, `opendir` and `open`. `close` keeps the standard streams by the number that the
guest gave them, so that a descriptor behind a reused number 0, 1 or 2 stays open.
-/

namespace C900

/-! ## The table -/

/-- `MAXFD`. -/
def maxFd : Nat := 256

instance : NeZero maxFd := ⟨by decide⟩

/-- `GFile`. -/
structure GFile where
  used : Bool
  /-- The host descriptor; none, -1 in the source, for a synthesized directory. -/
  fd : Option Nat
  dir : Option (List Byte)
  pos : Nat
  path : String
deriving DecidableEq

/-- The `memset` of an entry. -/
def GFile.zero : GFile := ⟨false, some 0, none, 0, ""⟩

/-- The table of the guest, and the host descriptors that the process holds. -/
structure Shim where
  gfiles : Fin maxFd → GFile
  hostFds : Finset Nat

/-- `alloc_fd`. -/
def allocFd (s : Shim) : Option (Fin maxFd) := Fin.find? fun fd => !(s.gfiles fd).used

/-- `get_fd`. -/
def getFd (s : Shim) (fd : Word) : Option (Fin maxFd) :=
  if inTable : fd.toNat < maxFd then
    if (s.gfiles ⟨fd.toNat, inTable⟩).used then some ⟨fd.toNat, inTable⟩ else none
  else none

def cEBADF : Word := 9
def cEFAULT : Word := 14
def cEISDIR : Word := 21
def cEMFILE : Word := 24

/-- Put an entry into the table. -/
def Shim.setFile (s : Shim) (fd : Fin maxFd) (g : GFile) : Shim :=
  { s with gfiles := Function.update s.gfiles fd g }

/-- `close` of the host. -/
def Shim.hostClose (s : Shim) (hfd : Nat) : Shim := { s with hostFds := s.hostFds.erase hfd }

/-! ## The calls -/

/-- What the host answers to a call of `open`: whether `stat` finds a directory, the image
that `dir_image` makes of it, and the new descriptor. An error is the guest's number
for it. -/
structure HostAnswer where
  isDir : Bool
  image : Except Word (List Byte)
  opened : Except Word Nat

/-- A call of the guest. The path is none where `path_arg` does not find it. -/
inductive FileCall where
  | open (path : Option String) (oflag : Word) (host : HostAnswer)
  | creat (path : Option String) (opened : Except Word Nat)
  | close (fd : Word)

/-- The tail of `open` and `creat`: a descriptor of the host gets a number. -/
def openPlain (s : Shim) (path : String) (opened : Except Word Nat) : Except Word Word × Shim :=
  match opened with
  | .error e => (.error e, s)
  | .ok hfd =>
    let s := { s with hostFds := insert hfd s.hostFds }
    match allocFd s with
    | none => (.error cEMFILE, s.hostClose hfd)
    | some fd => (.ok (BitVec.ofNat 16 fd.val), s.setFile fd ⟨true, some hfd, none, 0, path⟩)

/-- System call 5, `open`. -/
def sysOpen (s : Shim) (path : Option String) (oflag : Word) (host : HostAnswer) :
    Except Word Word × Shim :=
  match path with
  | none => (.error cEFAULT, s)
  | some path =>
    if host.isDir then
      if oflag &&& 3 ≠ 0 then (.error cEISDIR, s)
      else
        match host.image with
        | .error e => (.error e, s)
        | .ok image =>
          match allocFd s with
          | none => (.error cEMFILE, s)
          | some fd => (.ok (BitVec.ofNat 16 fd.val), s.setFile fd ⟨true, none, some image, 0, path⟩)
    else openPlain s path host.opened

/-- System call 8, `creat`. -/
def sysCreat (s : Shim) (path : Option String) (opened : Except Word Nat) :
    Except Word Word × Shim :=
  match path with
  | none => (.error cEFAULT, s)
  | some path => openPlain s path opened

/-- System call 6, `close`. The guard on the standard streams tests the guest's number. -/
def sysClose (s : Shim) (fd : Word) : Except Word Word × Shim :=
  match getFd s fd with
  | none => (.error cEBADF, s)
  | some slot =>
    let s :=
      match (s.gfiles slot).fd with
      | some hfd => if 2 < fd.toNat then s.hostClose hfd else s
      | none => s
    (.ok 0, s.setFile slot GFile.zero)

/-- What a call returns, and the tables after it. -/
def FileCall.run (s : Shim) : FileCall → Except Word Word × Shim
  | .open path oflag host => sysOpen s path oflag host
  | .creat path opened => sysCreat s path opened
  | .close fd => sysClose s fd

/-- The tables after a call. -/
def fileStep (s : Shim) (call : FileCall) : Shim := (call.run s).2

/-! ## What the calls keep -/

/-- An entry of the guest holds a host descriptor. -/
def Shim.Holds (s : Shim) (fd : Fin maxFd) (d : Nat) : Prop :=
  (s.gfiles fd).used = true ∧ (s.gfiles fd).fd = some d

/-- The process holds the three inherited descriptors and those of the guest's entries. -/
def Shim.Exact (s : Shim) : Prop := ∀ d, d ∈ s.hostFds ↔ d ≤ 2 ∨ ∃ fd, s.Holds fd d

/-- No two entries hold the same descriptor, and an inherited descriptor has its own
number. -/
structure Shim.Tidy (s : Shim) : Prop where
  exact : s.Exact
  own : ∀ {fd other d}, s.Holds fd d → s.Holds other d → fd = other
  inherited : ∀ {fd d}, s.Holds fd d → d ≤ 2 → fd.val = d

/-- The host hands out descriptors that the process does not hold. -/
def Fresh (s : Shim) : FileCall → Prop
  | .open _ _ host => ∀ hfd, host.isDir = false → host.opened = .ok hfd → hfd ∉ s.hostFds
  | .creat _ opened => ∀ hfd, opened = .ok hfd → hfd ∉ s.hostFds
  | .close _ => True

/-- The call opens a file. -/
def FileCall.opens : FileCall → Bool
  | .open .. => true
  | .creat .. => true
  | .close _ => false

/-- What is expected of a call. -/
structure Proper (s : Shim) (call : FileCall) : Prop where
  exact : (fileStep s call).Exact
  lowest : ∀ {n}, call.opens = true → (call.run s).1 = .ok n → ∃ fd : Fin maxFd,
    n = BitVec.ofNat 16 fd.val ∧ (s.gfiles fd).used = false ∧ ∀ j < fd, (s.gfiles j).used = true
  failed : ∀ {e}, (call.run s).1 = .error e → fileStep s call = s
  closed : ∀ {n fd d}, call = .close n → getFd s n = some fd → s.Holds fd d → 2 < d →
    d ∉ (fileStep s call).hostFds

/-- The call closes a number below 3 behind which a descriptor was opened. -/
def Leaks (s : Shim) (call : FileCall) : Prop :=
  ∃ n fd d, call = .close n ∧ getFd s n = some fd ∧ s.Holds fd d ∧ n.toNat ≤ 2 ∧ 2 < d

section Calls

variable {s : Shim} {fd : Fin maxFd}

/-- `alloc_fd` finds the lowest free number. -/
theorem allocFd_spec (found : allocFd s = some fd) :
    (s.gfiles fd).used = false ∧ ∀ j < fd, (s.gfiles j).used = true := by
  obtain ⟨free, below⟩ := Fin.find?_eq_some_iff.mp found
  refine ⟨by simpa using free, fun j less => by simpa using below j less⟩

/-- `get_fd` finds an entry in use under its own number. -/
theorem getFd_spec {n : Word} (found : getFd s n = some fd) :
    (s.gfiles fd).used = true ∧ fd.val = n.toNat := by
  unfold getFd at found
  split_ifs at found with inTable used
  obtain rfl := Option.some.inj found
  exact ⟨used, rfl⟩

/-- What the entries hold after one has been put in. -/
theorem setFile_holds (slot : Fin maxFd) (g : GFile) (d : Nat) :
    (s.setFile slot g).Holds fd d ↔
      if fd = slot then g.used = true ∧ g.fd = some d else s.Holds fd d := by
  unfold Shim.setFile Shim.Holds
  dsimp only
  rw [Function.update_apply]
  split_ifs
  · exact Iff.rfl
  · exact Iff.rfl

/-- A free entry takes a directory. -/
theorem Shim.Tidy.directory (tidy : s.Tidy) (free : (s.gfiles fd).used = false)
    (image : List Byte) (path : String) : (s.setFile fd ⟨true, none, some image, 0, path⟩).Tidy := by
  have holds : ∀ other d,
      (s.setFile fd ⟨true, none, some image, 0, path⟩).Holds other d ↔ s.Holds other d := by
    intro other d
    rw [setFile_holds]
    split_ifs with same
    · subst same
      unfold Shim.Holds
      simp [free]
    · exact Iff.rfl
  refine ⟨fun d => ?_, fun first second => ?_, fun held low => ?_⟩
  · simp only [holds]
    exact tidy.exact d
  · exact tidy.own ((holds _ _).mp first) ((holds _ _).mp second)
  · exact tidy.inherited ((holds _ _).mp held) low

/-- A free entry takes a descriptor that the process did not hold. -/
theorem Shim.Tidy.plain (tidy : s.Tidy) (free : (s.gfiles fd).used = false) {hfd : Nat}
    (fresh : hfd ∉ s.hostFds) (path : String) :
    (({ s with hostFds := insert hfd s.hostFds } : Shim).setFile fd
      ⟨true, some hfd, none, 0, path⟩).Tidy := by
  have high : 2 < hfd := by
    by_contra low
    exact fresh ((tidy.exact hfd).mpr (Or.inl (by omega)))
  have unheld : ∀ other, ¬s.Holds other hfd := fun other held =>
    fresh ((tidy.exact hfd).mpr (Or.inr ⟨other, held⟩))
  have unused : ∀ d, ¬s.Holds fd d := fun d held => by
    rw [Shim.Holds, free] at held
    exact Bool.false_ne_true held.1
  have holds : ∀ other d, (({ s with hostFds := insert hfd s.hostFds } : Shim).setFile fd
      ⟨true, some hfd, none, 0, path⟩).Holds other d ↔
        (other = fd ∧ hfd = d) ∨ s.Holds other d := by
    intro other d
    rw [setFile_holds]
    split_ifs with same
    · subst same
      simp [unused]
    · simp only [same, false_and, false_or]
      exact Iff.rfl
  refine ⟨fun d => ?_, fun {first second d} heldFirst heldSecond => ?_, fun {other d} held low => ?_⟩
  · have member : d ∈ insert hfd s.hostFds ↔ d = hfd ∨ d ∈ s.hostFds := Finset.mem_insert
    simp only [holds]
    rw [show (d ∈ (({ s with hostFds := insert hfd s.hostFds } : Shim).setFile fd
      ⟨true, some hfd, none, 0, path⟩).hostFds) = (d ∈ insert hfd s.hostFds) from rfl, member,
      tidy.exact d]
    constructor
    · rintro (rfl | low | ⟨other, held⟩)
      · exact Or.inr ⟨fd, Or.inl ⟨rfl, rfl⟩⟩
      · exact Or.inl low
      · exact Or.inr ⟨other, Or.inr held⟩
    · rintro (low | ⟨other, ⟨-, rfl⟩ | held⟩)
      · exact Or.inr (Or.inl low)
      · exact Or.inl rfl
      · exact Or.inr (Or.inr ⟨other, held⟩)
  · rcases (holds first d).mp heldFirst with ⟨rfl, rfl⟩ | old <;>
      rcases (holds second _).mp heldSecond with ⟨rfl, same⟩ | older
    · rfl
    · exact absurd older (unheld second)
    · exact absurd (same ▸ old) (unheld first)
    · exact tidy.own old older
  · rcases (holds other d).mp held with ⟨rfl, rfl⟩ | old
    · omega
    · exact tidy.inherited old low

/-- A closed entry holds nothing, and the others what they held. -/
theorem setFile_zero_holds (slot other : Fin maxFd) (d : Nat) :
    (s.setFile slot GFile.zero).Holds other d ↔ other ≠ slot ∧ s.Holds other d := by
  rw [setFile_holds]
  split_ifs with same
  · simp [same, GFile.zero]
  · simp [same]

/-- An entry that holds no descriptor, or an inherited one, is closed in the table alone. -/
theorem Shim.Tidy.forget (tidy : s.Tidy) (inherited : ∀ d, s.Holds fd d → d ≤ 2) :
    (s.setFile fd GFile.zero).Tidy := by
  refine ⟨fun d => ?_, fun first second => ?_, fun held low => ?_⟩
  · refine (tidy.exact d).trans ?_
    simp only [setFile_zero_holds]
    constructor
    · rintro (low | ⟨other, held⟩)
      · exact Or.inl low
      · by_cases same : other = fd
        · exact Or.inl (inherited d (same ▸ held))
        · exact Or.inr ⟨other, same, held⟩
    · rintro (low | ⟨other, -, held⟩)
      · exact Or.inl low
      · exact Or.inr ⟨other, held⟩
  · rw [setFile_zero_holds] at first second
    exact tidy.own first.2 second.2
  · rw [setFile_zero_holds] at held
    exact tidy.inherited held.2 low

/-- An entry is closed with the descriptor that it holds. -/
theorem Shim.Tidy.closeBoth (tidy : s.Tidy) {d : Nat} (held : s.Holds fd d) (high : 2 < d) :
    ((s.hostClose d).setFile fd GFile.zero).Tidy := by
  have holds : ∀ other e,
      ((s.hostClose d).setFile fd GFile.zero).Holds other e ↔ other ≠ fd ∧ s.Holds other e :=
    fun other e => setFile_zero_holds fd other e
  refine ⟨fun e => ?_, fun first second => ?_, fun heldBy low => ?_⟩
  · have member : e ∈ ((s.hostClose d).setFile fd GFile.zero).hostFds ↔ e ≠ d ∧ e ∈ s.hostFds :=
      Finset.mem_erase
    rw [member, tidy.exact e]
    simp only [holds]
    constructor
    · rintro ⟨different, low | ⟨other, heldBy⟩⟩
      · exact Or.inl low
      · refine Or.inr ⟨other, ?_, heldBy⟩
        rintro rfl
        exact different (Option.some.inj (heldBy.2.symm.trans held.2))
    · rintro (low | ⟨other, apart, heldBy⟩)
      · exact ⟨by omega, Or.inl low⟩
      · refine ⟨?_, Or.inr ⟨other, heldBy⟩⟩
        rintro rfl
        exact apart (tidy.own heldBy held)
  · rw [holds] at first second
    exact tidy.own first.2 second.2
  · rw [holds] at heldBy
    exact tidy.inherited heldBy.2 low

/-! ## One call -/

/-- What a call that opens a file does: it takes the lowest free number, or fails and
changes nothing. -/
structure Opening (s : Shim) (result : Except Word Word × Shim) : Prop where
  tidy : result.2.Tidy
  lowest : ∀ {n}, result.1 = .ok n → ∃ fd : Fin maxFd, n = BitVec.ofNat 16 fd.val ∧
    (s.gfiles fd).used = false ∧ ∀ j < fd, (s.gfiles j).used = true
  failed : ∀ {e}, result.1 = .error e → result.2 = s

/-- A call fails. -/
theorem Opening.error (tidy : s.Tidy) (e : Word) : Opening s (.error e, s) :=
  ⟨tidy, fun absurdly => absurd absurdly nofun, fun _ => rfl⟩

/-- A call takes the number that `alloc_fd` found. -/
theorem Opening.ok (found : allocFd s = some fd) {after : Shim} (tidy : after.Tidy) :
    Opening s (.ok (BitVec.ofNat 16 fd.val), after) := by
  obtain ⟨free, below⟩ := allocFd_spec found
  exact ⟨tidy, fun result => ⟨fd, (Except.ok.inj result).symm, free, below⟩,
    fun absurdly => absurd absurdly nofun⟩

/-- The tail of `open` and `creat`. -/
theorem openPlain_opening (tidy : s.Tidy) {opened : Except Word Nat}
    (fresh : ∀ hfd, opened = .ok hfd → hfd ∉ s.hostFds) (path : String) :
    Opening s (openPlain s path opened) := by
  unfold openPlain
  cases opened with
  | error e => exact Opening.error tidy e
  | ok hfd =>
    have new := fresh hfd rfl
    have same : allocFd { s with hostFds := insert hfd s.hostFds } = allocFd s := rfl
    dsimp only
    rw [same]
    cases found : allocFd s with
    | none =>
      have back : ({ s with hostFds := insert hfd s.hostFds } : Shim).hostClose hfd = s := by
        unfold Shim.hostClose
        dsimp only
        rw [Finset.erase_insert new]
      dsimp only
      rw [back]
      exact Opening.error tidy cEMFILE
    | some fd => exact Opening.ok found (tidy.plain (allocFd_spec found).1 new path)

theorem sysOpen_opening (tidy : s.Tidy) {host : HostAnswer}
    (fresh : ∀ hfd, host.isDir = false → host.opened = .ok hfd → hfd ∉ s.hostFds)
    (path : Option String) (oflag : Word) : Opening s (sysOpen s path oflag host) := by
  unfold sysOpen
  cases path with
  | none => exact Opening.error tidy cEFAULT
  | some path =>
    dsimp only
    cases dir : host.isDir with
    | false => exact openPlain_opening tidy (fun hfd => fresh hfd dir) path
    | true =>
      rw [if_pos rfl]
      split_ifs
      · exact Opening.error tidy cEISDIR
      · cases host.image with
        | error e => exact Opening.error tidy e
        | ok image =>
          dsimp only
          cases found : allocFd s with
          | none => exact Opening.error tidy cEMFILE
          | some fd => exact Opening.ok found (tidy.directory (allocFd_spec found).1 image path)

theorem sysCreat_opening (tidy : s.Tidy) {opened : Except Word Nat}
    (fresh : ∀ hfd, opened = .ok hfd → hfd ∉ s.hostFds) (path : Option String) :
    Opening s (sysCreat s path opened) := by
  cases path with
  | none => exact Opening.error tidy cEFAULT
  | some path => exact openPlain_opening tidy fresh path

/-- What is expected of a call that opens a file. -/
theorem Opening.proper {call : FileCall} (opening : Opening s (call.run s))
    (opens : call.opens = true) : Proper s call ∧ (fileStep s call).Tidy := by
  refine ⟨⟨opening.tidy.exact, fun _ result => opening.lowest result, fun result =>
    opening.failed result, ?_⟩, opening.tidy⟩
  rintro n fd d rfl
  exact absurd opens Bool.false_ne_true

/-- `close` of an entry in use. -/
theorem sysClose_found {n : Word} (found : getFd s n = some fd) :
    (sysClose s n).1 = .ok 0 ∧ (sysClose s n).2 =
      (match (s.gfiles fd).fd with
        | some hfd => if 2 < n.toNat then s.hostClose hfd else s
        | none => s).setFile fd GFile.zero := by
  unfold sysClose
  rw [found]
  exact ⟨rfl, rfl⟩

/-- `close` of an entry in use, where nothing leaks. -/
theorem sysClose_tidy (tidy : s.Tidy) {n : Word} (found : getFd s n = some fd)
    (tight : ∀ d, s.Holds fd d → n.toNat ≤ 2 → d ≤ 2) :
    (sysClose s n).2.Tidy ∧ ∀ d, s.Holds fd d → 2 < d → d ∉ (sysClose s n).2.hostFds := by
  obtain ⟨used, number⟩ := getFd_spec found
  rw [(sysClose_found found).2]
  cases holds : (s.gfiles fd).fd with
  | none =>
    have nothing : ∀ d, ¬s.Holds fd d := fun d held => by
      have some := held.2
      rw [holds] at some
      exact absurd some nofun
    exact ⟨tidy.forget fun d held => absurd held (nothing d),
      fun d held => absurd held (nothing d)⟩
  | some hfd =>
    have held : s.Holds fd hfd := ⟨used, holds⟩
    dsimp only
    split_ifs with standard
    · have high : 2 < hfd := by
        by_contra low
        have own := tidy.inherited held (by omega)
        omega
      refine ⟨tidy.closeBoth held high, fun d heldBy _ stays => ?_⟩
      obtain rfl := Option.some.inj (heldBy.2.symm.trans holds)
      exact (Finset.mem_erase.mp stays).1 rfl
    · have low := tight hfd held (by omega)
      refine ⟨tidy.forget fun d heldBy => ?_, fun d heldBy high => ?_⟩
      · obtain rfl := Option.some.inj (heldBy.2.symm.trans holds)
        exact low
      · obtain rfl := Option.some.inj (heldBy.2.symm.trans holds)
        omega

/-- A call that leaks nothing does what is expected of it. -/
theorem Shim.Tidy.step (tidy : s.Tidy) {call : FileCall} (fresh : Fresh s call)
    (tight : ¬Leaks s call) : Proper s call ∧ (fileStep s call).Tidy := by
  cases call with
  | «open» path oflag host => exact (sysOpen_opening tidy fresh path oflag).proper rfl
  | creat path opened => exact (sysCreat_opening tidy fresh path).proper rfl
  | close n =>
    have run : fileStep s (.close n) = (sysClose s n).2 := rfl
    cases found : getFd s n with
    | none =>
      have same : sysClose s n = (.error cEBADF, s) := by
        unfold sysClose
        rw [found]
      have after : fileStep s (.close n) = s := congrArg Prod.snd same
      rw [after]
      refine ⟨⟨?_, fun absurdly => absurd absurdly Bool.false_ne_true, fun _ => after, ?_⟩, tidy⟩
      · rw [after]
        exact tidy.exact
      intro m fd d isClose inUse
      obtain rfl := FileCall.close.inj isClose
      exact absurd (found.symm.trans inUse) nofun
    | some fd =>
      obtain ⟨after, closed⟩ := sysClose_tidy tidy found fun d held low => by
        by_contra high
        exact tight ⟨n, fd, d, rfl, found, held, low, by omega⟩
      refine ⟨⟨after.exact, fun absurdly => absurd absurdly Bool.false_ne_true, ?_, ?_⟩, after⟩
      · intro e result
        exact absurd ((sysClose_found found).1.symm.trans result) nofun
      · intro m slot d isClose inUse held high
        obtain rfl := FileCall.close.inj isClose
        obtain rfl := Option.some.inj (found.symm.trans inUse)
        exact closed d held high

/-- A call that leaks does not do what is expected of it. -/
theorem Shim.Tidy.not_leaks (tidy : s.Tidy) {call : FileCall} (proper : Proper s call) :
    ¬Leaks s call := by
  rintro ⟨n, fd, d, rfl, found, held, low, high⟩
  refine proper.closed rfl found held high ?_
  have after : fileStep s (.close n) = s.setFile fd GFile.zero := by
    refine (sysClose_found found).2.trans ?_
    rw [held.2]
    dsimp only
    rw [if_neg (by omega)]
  rw [after]
  exact (tidy.exact d).mpr (Or.inr ⟨fd, held⟩)

end Calls

/-! ## Runs -/

/-- The tables at the start of a guest: the three standard streams. -/
def startShim : Shim where
  gfiles fd :=
    if fd.val = 0 then ⟨true, some 0, none, 0, "/dev/stdin"⟩
    else if fd.val = 1 then ⟨true, some 1, none, 0, "/dev/stdout"⟩
    else if fd.val = 2 then ⟨true, some 2, none, 0, "/dev/stderr"⟩
    else GFile.zero
  hostFds := {0, 1, 2}

theorem startShim_holds (fd : Fin maxFd) (d : Nat) :
    startShim.Holds fd d ↔ fd.val = d ∧ d ≤ 2 := by
  unfold Shim.Holds startShim
  dsimp only
  split_ifs
  · simp only [true_and, Option.some.injEq]
    omega
  · simp only [true_and, Option.some.injEq]
    omega
  · simp only [true_and, Option.some.injEq]
    omega
  · simp only [GFile.zero, Bool.false_eq_true, false_and, false_iff, not_and]
    omega

/-- The inherited descriptors stand under their own numbers. -/
theorem startShim_tidy : startShim.Tidy := by
  refine ⟨fun d => ?_, fun first second => ?_, fun held _ => ((startShim_holds _ _).mp held).1⟩
  · have member : d ∈ startShim.hostFds ↔ d = 0 ∨ d = 1 ∨ d = 2 := by simp [startShim]
    rw [member]
    simp only [startShim_holds]
    constructor
    · intro standard
      omega
    · rintro (low | ⟨fd, -, low⟩)
      · omega
      · omega
  · obtain ⟨own, -⟩ := (startShim_holds _ _).mp first
    obtain ⟨other, -⟩ := (startShim_holds _ _).mp second
    exact Fin.ext (own.trans other.symm)

/-- In a run of opens and closes every call does what is expected of it, if and only if no
close of the numbers 0, 1 and 2 meets a descriptor that was opened. -/
theorem fileRun_proper_iff {calls : List FileCall}
    (fresh : EachStep fileStep Fresh startShim calls) :
    EachStep fileStep Proper startShim calls ↔
      EachStep fileStep (fun s call => ¬Leaks s call) startShim calls :=
  EachStep.iff_of_invariant (fun tidy fresh tight => tidy.step fresh tight)
    (fun tidy _ proper => tidy.not_leaks proper) startShim_tidy fresh

/-- The guest closes its standard input, opens a file in its place and closes that. -/
def reopenedInput : List FileCall :=
  [.close 0, .open (some "/tmp/f") 0 ⟨false, .error 0, .ok 3⟩, .close 0]

/-- Nothing leaks while the guest reads the file. -/
theorem reopenedInput_proper :
    EachStep fileStep Proper startShim (reopenedInput.take 2) := by
  refine (fileRun_proper_iff ?_).mpr ?_
  · refine ⟨trivial, fun hfd _ opened => ?_, trivial⟩
    obtain rfl := Except.ok.inj opened
    decide
  · refine ⟨?_, ?_, trivial⟩
    · rintro ⟨n, fd, d, isClose, found, held, low, high⟩
      obtain rfl := FileCall.close.inj isClose
      have holds := (startShim_holds fd d).mp held
      omega
    · rintro ⟨n, fd, d, isClose, -⟩
      exact absurd isClose nofun

/-- The descriptor of the file stays open without an entry. -/
theorem reopenedInput_leaks :
    EachStep fileStep Fresh startShim reopenedInput ∧
      ¬EachStep fileStep Proper startShim reopenedInput ∧
      (runEvents fileStep startShim reopenedInput).hostFds = {0, 1, 2, 3} ∧
      (runEvents fileStep startShim reopenedInput).gfiles 0 = GFile.zero := by
  have fresh : EachStep fileStep Fresh startShim reopenedInput := by
    refine ⟨trivial, fun hfd _ opened => ?_, trivial, trivial⟩
    obtain rfl := Except.ok.inj opened
    decide
  have found : getFd (runEvents fileStep startShim (reopenedInput.take 2)) 0 = some 0 := by
    decide +kernel
  have holds : (runEvents fileStep startShim (reopenedInput.take 2)).Holds 0 3 := by
    constructor
    · decide +kernel
    · decide +kernel
  refine ⟨fresh, fun proper => ?_, by decide +kernel, by decide +kernel⟩
  have tight := (fileRun_proper_iff fresh).mp proper
  exact tight.2.2.1 ⟨0, 0, 3, rfl, found, holds, by decide, by decide⟩

end C900
