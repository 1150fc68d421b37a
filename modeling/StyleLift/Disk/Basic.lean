import StyleLift.Path

/-!
# Disks

A disk is a finite table of files and directories together with a working directory.  A place
on the disk is the list of names that leads to it from the root, so it is never ambiguous; paths
are turned into places in `Disk.Access`.  The root itself is always a directory.
-/

namespace StyleLift

/-- A place on a disk: the names from the root down. -/
abbrev Location := List Text

/-- What can be found at a place. -/
inductive Node where
  | directory
  | file (content : ByteArray)

/-- Files are told apart byte by byte. -/
instance : DecidableEq Node
  | .directory, .directory => .isTrue rfl
  | .directory, .file _ => .isFalse nofun
  | .file _, .directory => .isFalse nofun
  | .file ⟨a⟩, .file ⟨b⟩ =>
    if h : a = b then .isTrue (by rw [h]) else .isFalse fun e => h (by cases e; rfl)

/-- Files and directories by place, and the working directory. -/
structure Disk where
  nodes : List (Location × Node) := []
  cwd : Location := []

/-- Why an access to a disk fails. -/
inductive IoFault where
  | notFound
  | alreadyExists
  | notADirectory
  | isADirectory
  | nameTooLong
  /-- A path with a null character, which no place has. -/
  | nullInPath
  /-- Bytes that are not UTF-8 where text was expected. -/
  | notUtf8
  deriving DecidableEq, Repr

/-- The message of a failed access. -/
def IoFault.message : IoFault → Text
  | .notFound => "No such file or directory (os error 2)".toList
  | .alreadyExists => "File exists (os error 17)".toList
  | .notADirectory => "Not a directory (os error 20)".toList
  | .isADirectory => "Is a directory (os error 21)".toList
  | .nameTooLong => "File name too long (os error 36)".toList
  | .nullInPath => "file name contained an unexpected NUL byte".toList
  | .notUtf8 => "stream did not contain valid UTF-8".toList

namespace Disk

/-- What is found at a place. -/
def node? (disk : Disk) (place : Location) : Option Node :=
  if place.isEmpty then some .directory else disk.nodes.lookup place

/-- The table with `node` at `place`. -/
def putNode (place : Location) (node : Node) : List (Location × Node) → List (Location × Node)
  | [] => [(place, node)]
  | (p, n) :: rest => if p = place then (p, node) :: rest else (p, n) :: putNode place node rest

/-- Puts a file or directory at a place, over what was there. -/
def put (disk : Disk) (place : Location) (node : Node) : Disk :=
  { disk with nodes := putNode place node disk.nodes }

/-- Whether there is a file at a place. -/
def isFileAt (disk : Disk) (place : Location) : Bool :=
  match disk.node? place with
  | some (.file _) => true
  | _ => false

/-! ## Files in order -/

/-- Places compared name by name. -/
def placeLe : Location → Location → Bool
  | [], _ => true
  | _ :: _, [] => false
  | a :: s, b :: t => if a = b then placeLe s t else Text.le a b

/-- The directories below a place, each by the names that lead to it from there. -/
def directoriesBelow (disk : Disk) (place : Location) : List Location :=
  disk.nodes.filterMap fun (p, node) =>
    match node with
    | .directory => if place.isPrefixOf p then some (p.drop place.length) else none
    | .file _ => none

/-- The files at or below a place, each by the names that lead to it from there, in the order of
their names. -/
def filesBelow (disk : Disk) (place : Location) : List Location :=
  let files := disk.nodes.filterMap fun (p, node) =>
    match node with
    | .file _ => if place.isPrefixOf p then some (p.drop place.length) else none
    | .directory => none
  files.mergeSort placeLe

end Disk

end StyleLift
