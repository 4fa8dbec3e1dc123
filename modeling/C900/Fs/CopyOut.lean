import C900.Fs.File
import C900.Logic.Posix
import Mathlib.Data.List.Sort

/-!
# Copying out of an image

`copy_out` of `disk.py`, with the lookup of paths across mounted partitions, the reading of
directories, and `os.makedirs` of the standard library. The host is a parameter: what it
holds and what it answers. Every directory is recorded that the host is asked to make, and
every file that it is asked to write.
-/

namespace C900

/-! ## Paths in the image -/

/-- A handle: a partition and its root inode. -/
structure Handle where
  fs : CoherentFs
  rootIno : Nat

/-- The root handle with the mount table. -/
structure Volume where
  root : Handle
  mounts : List (PosixPath × Handle)

/-- An inode with its owner. -/
structure Node where
  owner : CoherentFs
  inode : Inode

/-- `DIRENT_SIZE`. -/
def direntSize : Nat := 16

/-- The number and the name of a directory entry; none for a free one, for `.` and `..`. -/
def readDirent (entry : List (BitVec 8)) : Option (Nat × PosixPath) :=
  let ino := (entry.getD 0 0).toNat + 256 * (entry.getD 1 0).toNat
  let name := ((entry.drop 2).takeWhile (· ≠ 0)).map fun b => Char.ofNat b.toNat
  if ino = 0 ∨ name = ['.'] ∨ name = PosixPath.dotDot then none else some (ino, name)

/-- `read_dir`. -/
def CoherentFs.readDir (fs : CoherentFs) (image : Image) (inode : Inode) : List (Nat × PosixPath) :=
  if inode.isDir then
    let body := fs.readFile image inode
    (List.range (body.length / direntSize)).filterMap fun k =>
      readDirent ((body.drop (direntSize * k)).take direntSize)
  else []

/-- `root`. -/
def Handle.rootNode (handle : Handle) (image : Image) : Option Node :=
  (handle.fs.stat image handle.rootIno).map (Node.mk handle.fs)

/-- `_mount_at`. -/
def Volume.mountAt (v : Volume) (path : PosixPath) : Option Handle :=
  (v.mounts.find? fun mount => mount.1 = path).map (·.2)

/-- The step across a mount point. -/
def Volume.cross (v : Volume) (image : Image) (path : PosixPath) (node : Node) : Option Node :=
  match v.mountAt path with
  | some sub => sub.rootNode image
  | none => some node

/-- The entry of a directory under a name. -/
def Node.entry (node : Node) (image : Image) (part : PosixPath) : Option Node :=
  match (node.owner.readDir image node.inode).find? fun entry => entry.2 = part with
  | some (ino, _) => (node.owner.stat image ino).map (Node.mk node.owner)
  | none => none

/-- The loop of `lookup` over the parts of the path. -/
def Volume.descend (v : Volume) (image : Image) : List PosixPath → PosixPath → Option Node → Option Node
  | [], _, cur => cur
  | _ :: _, _, none => none
  | part :: rest, path, some node =>
    if node.inode.isDir then
      match node.entry image part with
      | none => none
      | some next =>
        let path := path ++ '/' :: part
        v.descend image rest path (v.cross image path next)
    else none

/-- `lookup`. -/
def Volume.lookup (v : Volume) (image : Image) (path : PosixPath) : Option Node :=
  match v.root.rootNode image with
  | none => none
  | some root => v.descend image path.parts [] (v.cross image [] root)

/-- The backslash. -/
def backslash : Char := Char.ofNat 0x5C

/-- `path.replace ("\\", "/")`. -/
def slashed (p : PosixPath) : PosixPath := p.map fun c => if c = backslash then '/' else c

/-- `norm_img`. -/
def normImg (p : PosixPath) : PosixPath := '/' :: ['/'].intercalate (slashed p).parts

/-! ## The host -/

/-- What `mkdir` answers. -/
inductive MkdirAnswer where
  | made
  | fileExists
  | failed
deriving DecidableEq

/-- The calls of the host, on its state. -/
structure HostCalls (H : Type) where
  pathExists : H → PosixPath → Bool
  isDir : H → PosixPath → Bool
  mkdir : H → PosixPath → MkdirAnswer × H
  write : H → PosixPath → List (BitVec 8) → Bool × H

/-- A directory that the host is asked to make, or a file that it is asked to write. -/
inductive HostTouch where
  | made (path : PosixPath)
  | wrote (path : PosixPath)
deriving DecidableEq

/-- The host, and what it was asked for, newest first. -/
structure Copying (H : Type) where
  host : H
  touched : List HostTouch

/-- What ends a copy: `FSError`, an `OSError` (whether it is `FileExistsError`), and the limit
on recursion. -/
inductive CopyError where
  | notFound (imagePath : PosixPath)
  | osError (fileExists : Bool)
  | recursion
deriving DecidableEq

/-- The text of an `FSError`. -/
def CopyError.message : CopyError → String
  | .notFound path => "not found in image: " ++ String.ofList path
  | .osError _ => ""
  | .recursion => "maximum recursion depth exceeded"

/-- A program over the host that may raise. -/
abbrev CopyM (H : Type) := EStateM CopyError (Copying H)

section Copy

variable {H : Type} (calls : HostCalls H)

/-- `os.mkdir`. -/
def hostMkdir (name : PosixPath) : CopyM H MkdirAnswer := fun s =>
  .ok (calls.mkdir s.host name).1
    { host := (calls.mkdir s.host name).2, touched := .made name :: s.touched }

/-- `open (path, "wb")` and the write. -/
def hostWrite (name : PosixPath) (data : List (BitVec 8)) : CopyM H Unit := fun s =>
  let after : Copying H :=
    { host := (calls.write s.host name data).2, touched := .wrote name :: s.touched }
  if (calls.write s.host name data).1 then .ok () after else .error (.osError false) after

/-- The `mkdir` at the end of `makedirs`. -/
def makeOne (name : PosixPath) : CopyM H Unit := do
  let answer ← hostMkdir calls name
  let s ← get
  if answer = .made ∨ calls.isDir s.host name then pure ()
  else throw (.osError (answer = .fileExists))

/-- The head and the tail that `makedirs` works on. -/
def makedirsSplit (name : PosixPath) : PosixPath × PosixPath :=
  if (PosixPath.split name).2 = [] then PosixPath.split (PosixPath.split name).1 else PosixPath.split name

/-- `os.makedirs` with `exist_ok`, as deep as the name has characters. -/
def makedirsFrom : Nat → PosixPath → CopyM H Unit
  | 0, _ => pure ()
  | depth + 1, name => do
    let (head, tail) := makedirsSplit name
    let s ← get
    if head ≠ [] ∧ tail ≠ [] ∧ calls.pathExists s.host head = false then
      tryCatch (makedirsFrom depth head) fun e =>
        if e = .osError true then pure () else throw e
      if tail = ['.'] then pure () else makeOne calls name
    else makeOne calls name

/-- `os.makedirs`. -/
def makedirs (name : PosixPath) : CopyM H Unit := makedirsFrom calls (name.length + 1) name

/-- The order of strings. -/
def nameLe : PosixPath → PosixPath → Bool
  | [], _ => true
  | _ :: _, [] => false
  | a :: as, b :: bs => a < b || (a == b && nameLe as bs)

/-- The entries of a directory in the order of their names. -/
def Node.sortedEntries (node : Node) (image : Image) : List (Nat × PosixPath) :=
  (node.owner.readDir image node.inode).insertionSort fun a b => nameLe a.2 b.2

/-- `copy_out`, as deep as the recursion limit allows. -/
def copyOut (v : Volume) (image : Image) : Nat → PosixPath → PosixPath → CopyM H Unit
  | 0, _, _ => throw .recursion
  | depth + 1, imagePath, hostPath =>
    let imagePath := normImg imagePath
    match v.lookup image imagePath with
    | none => throw (.notFound imagePath)
    | some node =>
      if node.inode.isDir then do
        makedirs calls hostPath
        (node.sortedEntries image).forM fun entry =>
          copyOut v image depth (imagePath ++ '/' :: entry.2) (PosixPath.join hostPath entry.2)
      else if node.inode.isFile then do
        if PosixPath.dirname hostPath ≠ [] then makedirs calls (PosixPath.dirname hostPath)
        hostWrite calls hostPath (node.owner.readFile image node.inode)
      else pure ()

end Copy

end C900
