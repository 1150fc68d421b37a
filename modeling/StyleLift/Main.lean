import StyleLift.CommandLine.Program
import StyleLift.Disk.Snapshot

/-!
# The executable

The program works on a snapshot of files, whose paths stand on its standard input, one a line, as
`find` lists them.  It loads them, runs, and carries out what the run did to the snapshot.  A file
that the snapshot does not know is never overwritten.
-/

namespace StyleLift.Executable

/-- Looks at what a path of the system names. -/
def look (path : String) : IO Node := do
  try
    return .file (← IO.FS.readBinFile path)
  catch
    | .inappropriateType .. => return .directory
    | fault => throw fault

/-- The snapshot of the listed paths, seen from the working directory. -/
def load (paths : List String) : IO Disk := do
  let cwd := Disk.resolve [] (.ofString (toString (← IO.currentDir)))
  paths.foldlM (fun disk path => do
    return disk.plant (Disk.resolve cwd (.ofString path)) (← look path))
    (Disk.plant { cwd } cwd .directory)

/-- Carries out the changes from one disk to another. -/
def store (before after : Disk) : IO Unit := do
  for (place, node) in Disk.changes before after do
    let path := String.ofList (Disk.pathOfPlace place).text
    match node with
    | .directory => IO.FS.createDirAll path
    | .file content =>
      let mode := if (before.node? place).isSome then IO.FS.Mode.write else .writeNew
      (← IO.FS.Handle.mk path mode).write content

/-- What is said about words that were not understood. -/
def complaint : CommandLine.Misuse → String
  | .unknownArgument => "unexpected argument"
  | .unknownCommand => "unrecognized subcommand"
  | .missingValue => "a value is required"
  | .unexpectedValue => "unexpected value"
  | .repeatedOption => "the argument cannot be used multiple times"

/-- Prints the outcome of a run. -/
def announce (outcome : CommandLine.Outcome) : IO Unit :=
  match outcome with
  | .misuse what => IO.eprintln ("error: " ++ complaint what)
  | .help text => IO.print (String.ofList text)
  | .version text => IO.print (String.ofList text)
  | .finished _ output errors => do
    IO.print (String.ofList output)
    IO.eprint (String.ofList errors)

end StyleLift.Executable

/-- Runs the program on the files that are listed on standard input. -/
def main (words : List String) : IO UInt32 := do
  let input ← IO.getStdin
  let paths ← if ← input.isTty then pure #[] else input.lines
  let before ← StyleLift.Executable.load paths.toList
  let colour ← (← IO.getStdout).isTty
  let (outcome, after) := StyleLift.CommandLine.run colour (words.map String.toList) before
  StyleLift.Executable.store before after
  StyleLift.Executable.announce outcome
  return outcome.status.toUInt32
