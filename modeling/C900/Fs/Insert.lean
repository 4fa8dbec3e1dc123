import C900.Fs.InodeRuns
import C900.Fs.Locate

/-!
# Copying into an image

`ensure_dirs`, `insert_one` and `copy_in` of `disk.py`. The host is a parameter: the files that it
has. Every call of a method that writes to a partition is recorded, with the session before and
after it.
-/

namespace C900

/-! ## The tool -/

/-- A method of a partition that works on an `Inode` object: `create_file` and `create_dir`,
`write_file`, and `write_inode`. -/
inductive Method where
  | create (creation : Creation)
  | write (data : List (BitVec 8))
  | save

/-- The method, on the inode of the session. -/
def CoherentFs.perform (fs : CoherentFs) : Method → WriteM Unit
  | .create creation => fs.create creation
  | .write data => fs.writeFile data
  | .save => fs.writeInode

/-- A call of a method. -/
structure MethodCall where
  owner : CoherentFs
  method : Method
  before : Session
  after : Session

/-- The image, the times that the clock is going to give, the allocator calls and the calls of
methods so far, newest first. -/
structure Tool where
  image : Image
  clock : Nat → Nat
  calls : List AllocCall
  made : List MethodCall

/-- What ends the tool: an exception of a method, an `FSError` of its own, the missing attribute of
`None`, an `OSError` of the host, and the limit on recursion. -/
inductive InsertError where
  | raised (e : FsError)
  | notDirectory (path : PosixPath)
  | noDirectory (path : PosixPath)
  | isDirectory (path : PosixPath)
  | notRegular (path : PosixPath)
  | noParent
  | osError
  | recursion
deriving DecidableEq

/-- The text of an exception. -/
def InsertError.message : InsertError → String
  | .raised e => e.message
  | .notDirectory path => String.ofList path ++ " exists and is not a directory"
  | .noDirectory path => "directory " ++ String.ofList path ++ " not found (use --mkdirs to create it)"
  | .isDirectory path => String.ofList path ++ " is a directory"
  | .notRegular path => String.ofList path ++ " exists and is not a regular file"
  | .noParent => "'NoneType' object has no attribute 'owner'"
  | .osError => ""
  | .recursion => "maximum recursion depth exceeded"

/-- A program of the tool. -/
abbrev ToolM := EStateM InsertError Tool

/-- An `Inode` object with its owner. -/
structure OpenNode where
  owner : CoherentFs
  inode : OpenInode
deriving DecidableEq

/-- `stat`, with all the fields. -/
def Located.openNode (place : Located) (image : Image) : Option OpenNode :=
  (place.owner.openStat image place.ino).map (OpenNode.mk place.owner)

/-- `lookup`, with all the fields. -/
def Volume.lookupOpen (v : Volume) (image : Image) (path : PosixPath) : Option OpenNode :=
  (v.locate image path).bind (·.openNode image)

/-- `fs.lookup (path)` in the image as it is. -/
def Volume.find (v : Volume) (path : PosixPath) : ToolM (Option OpenNode) :=
  return v.lookupOpen (← get).image path

/-- A method that is called on an `Inode` object: the object afterwards. -/
def OpenNode.call (node : OpenNode) (method : Method) : ToolM OpenInode := fun tool =>
  let before : Session := ⟨tool.image, tool.clock, node.inode, tool.calls⟩
  let next := fun (after : Session) =>
    (⟨after.image, after.clock, after.calls, ⟨node.owner, method, before, after⟩ :: tool.made⟩ : Tool)
  match node.owner.perform method before with
  | .ok _ after => .ok after.inode (next after)
  | .error e after => .error (.raised e) (next after)

/-- An error of a method as one of the tool. -/
def raising {α : Type} (result : Except FsError α) : ToolM α :=
  match result with
  | .ok a => pure a
  | .error e => throw (.raised e)

/-- `create_file` or `create_dir` in what `lookup` or `ensure_dirs` gave. -/
def createIn (parent : Option OpenNode) (creation : Creation) (name : PosixPath) : ToolM Unit :=
  match parent with
  | some node => do let _ ← node.call (.create creation)
  | none => do
    raising (validateName name)
    throw .noParent

/-! ## `ensure_dirs` and `insert_one` -/

/-- What `ensure_dirs` does about a component that it has looked up. -/
def ensureFound (parent found : Option OpenNode) (curPath comp : PosixPath) : ToolM Unit :=
  match found with
  | none => createIn parent (.dir comp 0x1ED) comp
  | some node => if node.inode.isDir then pure () else throw (.notDirectory curPath)

/-- A component of `ensure_dirs` with `mkdirs`: the path up to it. -/
def Volume.ensureDir (v : Volume) (curPath comp : PosixPath) : ToolM PosixPath := do
  let parent ← v.find (if curPath = [] then ['/'] else curPath)
  let curPath := curPath ++ '/' :: comp
  let found ← v.find curPath
  ensureFound parent found curPath comp
  pure curPath

/-- `ensure_dirs`. -/
def Volume.ensureDirs (v : Volume) (path : PosixPath) (mkdirs : Bool) :
    ToolM (Option OpenNode) := do
  match ← v.find path with
  | some node => if node.inode.isDir then pure (some node) else throw (.notDirectory path)
  | none =>
    if mkdirs then do
      let _ ← path.parts.foldlM (fun curPath comp => v.ensureDir curPath comp) []
      v.find path
    else throw (.noDirectory path)

/-- `rpartition ("/")`, without the separator. -/
def rpartition (p : PosixPath) : PosixPath × PosixPath :=
  ((p.rdropWhile (· ≠ '/')).dropLast, p.rtakeWhile (· ≠ '/'))

/-- The path of `insert_one`: absolute, without empty parts and single dots. -/
def normalPath (p : PosixPath) : PosixPath := '/' :: ['/'].intercalate p.parts

/-- `insert_one` on a path that is there: the file is overwritten. -/
def OpenNode.overwrite (existing : OpenNode) (data : List (BitVec 8)) (imagePath : PosixPath)
    (mode : Option Nat) : ToolM Unit := do
  if existing.inode.isDir then throw (.isDirectory imagePath)
  else if existing.inode.isFile then do
    let inode ← existing.call (.write data)
    match mode with
    | none => pure ()
    | some mode => do
      let _ ← OpenNode.call ⟨existing.owner, { inode with mode := (mode &&& 0xFFF) ||| sIfreg }⟩ .save
  else throw (.notRegular imagePath)

/-- `insert_one`, with the bytes of the host file. -/
def Volume.insertOne (v : Volume) (data : List (BitVec 8)) (imagePath : PosixPath)
    (mode : Option Nat) (mkdirs : Bool) : ToolM Unit := do
  let imagePath := normalPath imagePath
  let (dirPath, name) := rpartition imagePath
  let dirPath := if dirPath = [] then ['/'] else dirPath
  raising (validateName name)
  match ← v.find imagePath with
  | some existing => existing.overwrite data imagePath mode
  | none => do
    let parent ← v.ensureDirs dirPath mkdirs
    createIn parent (.file name data (mode.getD 0x1A4)) name

/-! ## `copy_in` -/

/-- The files of the host. -/
structure HostFiles where
  isDir : PosixPath → Bool
  isFile : PosixPath → Bool
  /-- `os.listdir`; none where it raises. -/
  listDir : PosixPath → Option (List PosixPath)
  /-- The bytes that `insert_one` reads; none where the host raises. -/
  read : PosixPath → Option (List (BitVec 8))

/-- `sorted (os.listdir (path))`. -/
def sortedNames (names : List PosixPath) : List PosixPath :=
  names.insertionSort fun a b => nameLe a b

/-- `copy_in`, as deep as the recursion limit allows. -/
def Volume.copyIn (v : Volume) (host : HostFiles) (mode : Option Nat) (mkdirs : Bool) :
    Nat → PosixPath → PosixPath → ToolM Unit
  | 0, _, _ => throw .recursion
  | depth + 1, hostPath, imagePath => do
    let imagePath := normImg imagePath
    if host.isDir hostPath then
      let _ ← v.ensureDirs imagePath true
      match host.listDir hostPath with
      | none => throw .osError
      | some names =>
        (sortedNames names).forM fun name =>
          v.copyIn host mode mkdirs depth (PosixPath.join hostPath name) (imagePath ++ '/' :: name)
    else if host.isFile hostPath then
      match host.read hostPath with
      | none => throw .osError
      | some data => v.insertOne data imagePath mode mkdirs
    else pure ()

/-! ## Lookups -/

section Lookups

variable {v : Volume} {image : Image} {path : PosixPath}

theorem Located.openNode_node (place : Located) (image : Image) :
    (place.openNode image).map (fun node => (⟨node.owner, node.inode.toInode⟩ : Node)) =
      place.node image := by
  unfold Located.openNode Located.node
  rw [← CoherentFs.openStat_toInode, Option.map_map, Option.map_map]
  rfl

/-- `lookup` with all the fields is `lookup`. -/
theorem Volume.lookupOpen_lookup (v : Volume) (image : Image) (path : PosixPath) :
    (v.lookupOpen image path).map (fun node => (⟨node.owner, node.inode.toInode⟩ : Node)) =
      v.lookup image path := by
  rw [Volume.lookup_locate, Volume.lookupOpen]
  cases v.locate image path with
  | none => rfl
  | some place => exact place.openNode_node image

end Lookups

end C900
