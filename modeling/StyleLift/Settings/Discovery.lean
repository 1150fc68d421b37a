import StyleLift.Failure
import StyleLift.Settings.Json

/-!
# Finding the configuration file

The configuration of a directory is the nearest configuration file in it or in a directory above
it.  The search stops at a directory that holds `.git`, and it goes up by the text of the path
alone: from `a/b` to `a` to the empty path, which is the working directory.
-/

namespace StyleLift.Settings

/-- The directory that marks the top of a project. -/
def projectMark : Text := ".git".toList

/-- The nearest configuration file of a directory.  The fuel bounds the number of directories. -/
def discoverFrom (fuel : Nat) (disk : Disk) (dir : Path) : Option Path :=
  match fuel with
  | 0 => none
  | fuel + 1 =>
    let file := dir.join configFileName
    if disk.pathExists file then some file
    else if disk.pathExists (dir.join projectMark) then none
    else dir.parent?.bind (discoverFrom fuel disk)

/-- The nearest configuration file of a directory. -/
def discover (disk : Disk) (dir : Path) : Option Path :=
  discoverFrom (dir.components.length + 1) disk dir

/-- Settings and whether they come from a file. -/
structure Loaded where
  settings : Settings
  fromFile : Bool
  deriving DecidableEq, Repr

/-- The settings of a configuration file. -/
def readFile (disk : Disk) (file : Path) : Except Failure Settings := do
  let text ← (disk.readText file).mapError (.unreadableConfig file)
  let settings ← (parse text).mapError (.invalidConfig file)
  match settings.fault? with
  | some fault => .error (.invalidSettings fault)
  | none => .ok settings

/-- The settings for a directory. -/
def load (disk : Disk) (dir : Path) : Except Failure Loaded :=
  match discover disk dir with
  | some file => (readFile disk file).map fun settings => ⟨settings, true⟩
  | none => .ok ⟨.default, false⟩

end StyleLift.Settings
