import StyleLift.Outputs

/-!
# Extraction

A scan returns the files at or below a directory that the pattern matches and no ignore does, in
the order of their names, component by component.  Globs are matched against the path relative
to the directory, with separators only.

A run scans a directory, lifts the values of its files one after the other and writes its outputs.
The journal is carried from file to file, so the order of the files is part of the result.  The
first file that cannot be read or is no stylesheet ends the run; the files before it stay as
they have become.
-/

namespace StyleLift

open Stylesheet (Document)

/-! ## Finding style files -/

/-- The path of something below `root`, by the names that lead to it from there. -/
def Path.below (root : Path) (names : Location) : Path := names.foldl Path.join root

/-- The files at or below `root`, as paths that start with `root`.  Every directory on the way has
to be found by its path. -/
def Disk.filePaths (disk : Disk) (root : Path) : Except IoFault (List Path) := do
  let _ ← disk.stat root
  let place ← disk.locate root
  (disk.directoriesBelow place).forM fun names => do
    let _ ← disk.stat (root.below names)
  .ok ((disk.filesBelow place).map root.below)

/-- The files that are selected by `pattern`, not left out by `ignores` and not excluded. -/
def scan (disk : Disk) (root : Path) (pattern : Text) (ignores : List Text)
    (isExcluded : Path → Bool) : Except Failure (List Path) := do
  let wanted ← (Glob.compileSet [pattern]).mapError .unusableGlobs
  let unwanted ← (Glob.compileSet ignores).mapError .unusableGlobs
  let paths ← (disk.filePaths root).mapError fun _ => .inaccessible root
  .ok (paths.filter fun path =>
    !isExcluded path && !Glob.anyAccepts unwanted (path.shown root) &&
      Glob.anyAccepts wanted (path.shown root))

/-! ## Runs -/

/-- The dialect of a file by its extension. -/
def Dialect.ofPath (path : Path) : Dialect :=
  match path.extension? with
  | some extension => if Text.lower extension = "scss".toList then .scss else .css
  | none => .css

namespace Lifter

/-- A lifter for a directory, which has to be there.  Its root is the absolute path. -/
def forDirectory (disk : Disk) (dir : Path) (settings : Settings) : Except Failure Lifter :=
  if disk.isDirectory dir then
    match disk.locate dir with
    | .ok place => .ok { root := Disk.pathOfPlace place, settings }
    | .error _ => .error (.missingDirectory dir)
  else .error (.missingDirectory dir)

/-! ## Outputs of earlier runs -/

/-- A number after a hyphen after `stem`. -/
def isNumberedStem (stem name : Text) : Bool :=
  match Text.after? (stem ++ ['-']) name with
  | some digits => !digits.isEmpty && digits.all Char.isDigit
  | none => false

/-- The parts of a file name before and after its last dot. -/
def splitName (name : Text) : Text × Option Text :=
  match Text.splitLast? '.' name with
  | some (stem, extension) => (stem, some extension)
  | none => (name, none)

/-- Whether two paths have the same directory. -/
def sameDirectory (p q : Path) : Bool :=
  (p.parent?.map Path.components) == (q.parent?.map Path.components)

/-- Whether a path is that of the sheet, one of its numbered alternatives or the sheet of images:
files that a run with the same settings may have written. -/
def isOutput (lifter : Lifter) (path : Path) : Bool :=
  match path.fileName? with
  | none => false
  | some name =>
    let requested := lifter.root.join lifter.settings.output
    let (stem, extension) := splitName name
    path.same requested || path.same (lifter.root.join Outputs.assetsFileName) ||
      (sameDirectory path requested && extension == requested.extension? &&
        isNumberedStem (requested.fileStem?.getD []) stem)

/-- The files that a run would look at, in order. -/
def files (lifter : Lifter) (disk : Disk) : Except Failure (List Path) :=
  scan disk lifter.root lifter.settings.pattern lifter.settings.ignores lifter.isOutput

/-! ## The run -/

/-- Reads the stylesheet at a path. -/
def readDocument (disk : Disk) (path : Path) : Except Failure Document := do
  let source ← (disk.readText path).mapError (.unreadableFile path)
  (Document.parse (.ofPath path) source).mapError (.notAStylesheet path)

/-- Lifts the values of one file: the number of declarations that were lifted, and the journal
after. -/
def liftFile (lifter : Lifter) (path : Path) (journal : Journal) : Run (Nat × Journal) := do
  let doc ← Run.observe fun disk => readDocument disk path
  let result := lifter.lift (← get) path (.ofPath path) doc journal
  if result.document.isModified then
    Run.change (·.write path result.document.render) (.unwritableFile path)
  return (result.count, result.journal)

/-- Lifts the values of files in order. -/
def liftFiles (lifter : Lifter) (journal : Journal) :
    List Path → Run (List (Path × Nat) × Journal)
  | [] => return ([], journal)
  | path :: rest => do
    let (count, journal) ← lifter.liftFile path journal
    let (outcomes, journal) ← lifter.liftFiles journal rest
    return ((path, count) :: outcomes, journal)

/-- What a finished run has done. -/
structure Summary where
  /-- The files in order, each with the number of declarations that were lifted. -/
  files : List (Path × Nat)
  journal : Journal
  written : Outputs.Written

namespace Summary

/-- The number of files in which something was lifted. -/
def filesModified (s : Summary) : Nat := (s.files.filter fun (_, count) => 0 < count).length

/-- The number of declarations that were lifted. -/
def substitutions (s : Summary) : Nat := s.files.foldl (fun total (_, count) => total + count) 0

/-- All warnings in order. -/
def warnings (s : Summary) : List Warning := s.journal.warnings ++ s.written.warnings

end Summary

/-- Runs an extraction. -/
def extract (lifter : Lifter) : Run Summary := do
  let paths ← Run.observe lifter.files
  let (files, journal) ← lifter.liftFiles {} paths
  let written ← Outputs.write lifter.root lifter.settings journal
  return ⟨files, journal, written⟩

end Lifter

end StyleLift
