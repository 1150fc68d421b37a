import StyleLift.Disk.Basic

/-!
# Access by path

A path is followed name by name from the root or the working directory.  Every name but the
last has to be a directory, `..` leads to the directory above, and a separator or `.` at the end
asks for a directory.  Nothing is normalised beforehand: `a/../b` is only found if `a` is.
-/

namespace StyleLift.Disk

/-! ## Finding places -/

/-- The greatest length of a name in bytes. -/
def maxNameLength : Nat := 255

/-- Whether a name is too long to be found or made. -/
def isTooLong (name : Text) : Bool := maxNameLength < name.byteLength

/-- Fails unless there is a directory at a place. -/
def needDirectory (disk : Disk) (place : Location) : Except IoFault Unit :=
  match disk.node? place with
  | some .directory => .ok ()
  | some (.file _) => .error .notADirectory
  | none => .error .notFound

/-- The place that a list of parts leads to from `place`. -/
def follow (disk : Disk) (place : Location) : List Text → Except IoFault Location
  | [] => .ok place
  | part :: rest => do
    disk.needDirectory place
    if part.isEmpty || part = ['.'] then disk.follow place rest
    else if part = ['.', '.'] then disk.follow place.dropLast rest
    else if isTooLong part then .error .nameTooLong
    else disk.follow (place ++ [part]) rest

/-- The place a path starts from. -/
def start (disk : Disk) (p : Path) : Location := if p.isAbsolute then [] else disk.cwd

/-- The greatest length of a path in bytes. -/
def maxPathLength : Nat := 4095

/-- The parts of a path, which must not hold a null character, be too long or be empty. -/
def partsOf (p : Path) : Except IoFault (List Text) :=
  if p.text.any (· == Char.ofNat 0) then .error .nullInPath
  else if maxPathLength < p.text.byteLength then .error .nameTooLong
  else if p.text.isEmpty then .error .notFound
  else .ok (Text.pieces '/' p.text)

/-- The place that a path names, whether or not something is there. -/
def locate (disk : Disk) (p : Path) : Except IoFault Location := do
  disk.follow (disk.start p) (← partsOf p)

/-- What a path names. -/
def stat (disk : Disk) (p : Path) : Except IoFault Node := do
  match disk.node? (← disk.locate p) with
  | some node => .ok node
  | none => .error .notFound

/-- Whether there is something at a path. -/
def pathExists (disk : Disk) (p : Path) : Bool := (disk.stat p).toOption.isSome

/-- Whether there is a directory at a path. -/
def isDirectory (disk : Disk) (p : Path) : Bool :=
  match disk.stat p with
  | .ok .directory => true
  | _ => false

/-- The absolute path of a place. -/
def pathOfPlace (place : Location) : Path := ⟨'/' :: Text.joined ['/'] place⟩

/-! ## Reading -/

/-- The content of a file. -/
def read (disk : Disk) (p : Path) : Except IoFault ByteArray := do
  match ← disk.stat p with
  | .file content => .ok content
  | .directory => .error .isADirectory

/-- The characters that bytes encode. -/
def decode? (content : ByteArray) : Option Text := (String.fromUTF8? content).map String.toList

/-- The bytes of a text. -/
def encode (s : Text) : ByteArray := (String.ofList s).toUTF8

/-- The content of a file as text. -/
def readText (disk : Disk) (p : Path) : Except IoFault Text := do
  match decode? (← disk.read p) with
  | some s => .ok s
  | none => .error .notUtf8

/-! ## Writing -/

/-- The last part of a path that is not empty, the parts before it, and whether a separator
follows it. -/
def lastPart (parts : List Text) : List Text × Option Text × Bool :=
  match parts.reverse.dropWhile List.isEmpty with
  | [] => ([], none, true)
  | last :: before => (before.reverse, some last, parts.getLast? == some [])

/-- Puts text at a path, whose directory has to be there. -/
def write (disk : Disk) (p : Path) (s : Text) : Except IoFault Disk := do
  let (before, last?, trailing) := lastPart (← partsOf p)
  let place ← disk.follow (disk.start p) before
  disk.needDirectory place
  match last? with
  | none => .error .isADirectory
  | some last =>
    if trailing || last = ['.'] || last = ['.', '.'] then .error .isADirectory
    else if isTooLong last then .error .nameTooLong
    else
      match disk.node? (place ++ [last]) with
      | some .directory => .error .isADirectory
      | _ => .ok (disk.put (place ++ [last]) (.file (encode s)))

/-- Makes a directory in one that is there. -/
def makeDirectory (disk : Disk) (p : Path) : Except IoFault Disk := do
  let (before, last?, _) := lastPart (← partsOf p)
  let place ← disk.follow (disk.start p) before
  disk.needDirectory place
  match last? with
  | none => .error .alreadyExists
  | some last =>
    if last = ['.'] || last = ['.', '.'] then .error .alreadyExists
    else if isTooLong last then .error .nameTooLong
    else
      match disk.node? (place ++ [last]) with
      | some _ => .error .alreadyExists
      | none => .ok (disk.put (place ++ [last]) .directory)

/-- The disk after a change that may stop halfway, and what stopped it. -/
abbrev Attempt := Disk × Option IoFault

/-- Makes a directory, and says that all is well if it is there already. -/
def ensureDirectory (disk : Disk) (p : Path) : Attempt :=
  match disk.makeDirectory p with
  | .ok disk => (disk, none)
  | .error fault => (disk, if disk.isDirectory p then none else some fault)

/-- Makes a directory and those above it as far as they are missing.  The fuel bounds their
number. -/
def makeDirectoriesFrom (fuel : Nat) (disk : Disk) (p : Path) : Attempt :=
  match fuel with
  | 0 => (disk, some .notFound)
  | fuel + 1 =>
    if p.text.isEmpty then (disk, none)
    else
      match disk.ensureDirectory p, p.parent? with
      | (disk, some .notFound), some parent =>
        match makeDirectoriesFrom fuel disk parent with
        | (disk, none) => disk.ensureDirectory p
        | stopped => stopped
      | attempt, _ => attempt

/-- Makes a directory and those above it as far as they are missing, from the top down.  Those
that were made stay when one further down cannot be made. -/
def makeDirectories (disk : Disk) (p : Path) : Attempt :=
  makeDirectoriesFrom (p.text.length + 1) disk p

end StyleLift.Disk
