import StyleLift.Image
import StyleLift.Json.Reader
import StyleLift.Settings
import StyleLift.Stylesheet.Document
import StyleLift.Text.Quoted

/-!
# Failures and warnings

What ends a run, and what it reports without giving up.  A run works on a disk, and what it did to
the disk before it failed stays.
-/

namespace StyleLift

/-- The name of the configuration file. -/
def configFileName : Text := ".cssvarrc.json".toList

/-- What ends a run. -/
inductive Failure where
  | missingDirectory (path : Path)
  | unusableGlobs (cause : Glob.Refusal)
  /-- The directory to be scanned cannot be read. -/
  | inaccessible (root : Path)
  | unreadableFile (path : Path) (cause : IoFault)
  | notAStylesheet (path : Path) (cause : Stylesheet.Fault)
  | uncreatableDirectory (path : Path) (cause : IoFault)
  | unwritableFile (path : Path) (cause : IoFault)
  | unreadableConfig (path : Path) (cause : IoFault)
  | invalidConfig (path : Path) (cause : Json.Fault)
  | invalidSettings (cause : Settings.Fault)
  /-- No properties are left to be lifted. -/
  | noProperties
  /-- A configuration file is to be made but is there already. -/
  | configExists
  /-- The configuration file cannot be made. -/
  | uncreatableConfig (cause : IoFault)
  deriving DecidableEq, Repr

/-- The message of a failure, from the outermost to the innermost cause. -/
def Failure.message : Failure → Text
  | .missingDirectory path => "Target directory does not exist: ".toList ++ path.text
  | .unusableGlobs cause => cause.message
  | .inaccessible root => "Cannot access path under ".toList ++ root.text
  | .unreadableFile path cause =>
    "Failed to read file: ".toList ++ path.text ++ ": ".toList ++ cause.message
  | .notAStylesheet path cause =>
    "Failed to parse file: ".toList ++ path.text ++ ": ".toList ++ cause.message
  | .uncreatableDirectory path cause =>
    "Failed to create directory: ".toList ++ path.text ++ ": ".toList ++ cause.message
  | .unwritableFile path cause =>
    "Failed to write file: ".toList ++ path.text ++ ": ".toList ++ cause.message
  | .unreadableConfig path cause =>
    "Failed to read config file: ".toList ++ Text.quoted path.text ++ ": ".toList ++ cause.message
  | .invalidConfig path cause =>
    "Failed to parse config file: ".toList ++ Text.quoted path.text ++ ": ".toList ++ cause.message
  | .invalidSettings cause => cause.message
  | .noProperties =>
    ("No properties to extract. Pass --properties or set 'properties' in the config file.").toList
  | .configExists => configFileName ++ " already exists".toList
  | .uncreatableConfig cause => cause.message

/-! ## Warnings -/

/-- A condition that does not end a run. -/
inductive Warning where
  /-- An image that a declaration refers to is not there. -/
  | missingAsset (source : Path) (line : Nat) (asset : Path)
  /-- An image is there but cannot be encoded. -/
  | unreadableAsset (source : Path) (line : Nat) (asset : Path) (cause : Image.Fault)
  /-- Nothing was lifted, so no sheet was written. -/
  | noVariables
  deriving DecidableEq, Repr

/-- A place in a source file. -/
def sourceLine (source : Path) (line : Nat) : Text :=
  source.text ++ ":".toList ++ Text.decimal line ++ ": ".toList

/-- The text of a warning. -/
def Warning.message : Warning → Text
  | .missingAsset source line asset =>
    sourceLine source line ++ "image not found: ".toList ++ asset.text
  | .unreadableAsset source line asset cause =>
    sourceLine source line ++ "cannot encode image ".toList ++ asset.text ++ ": ".toList ++
      cause.message
  | .noVariables => "no variables were extracted, skipping variable sheet".toList

/-! ## Runs -/

/-- A computation on a disk that may fail. -/
abbrev Run := ExceptT Failure (StateM Disk)

namespace Run

/-- Looks at the disk. -/
def observe {α : Type} (look : Disk → Except Failure α) : Run α := do
  match look (← get) with
  | .ok value => return value
  | .error failure => throw failure

/-- Changes the disk; `wrap` says which failure it is if that does not work. -/
def change (act : Disk → Except IoFault Disk) (wrap : IoFault → Failure) : Run Unit := do
  match act (← get) with
  | .ok disk => set disk
  | .error fault => throw (wrap fault)

/-- Changes the disk as far as that works; `wrap` says which failure it is if something stopped
it. -/
def attempt (act : Disk → Disk.Attempt) (wrap : IoFault → Failure) : Run Unit := do
  let (disk, fault?) := act (← get)
  set disk
  if let some fault := fault? then throw (wrap fault)

end Run

end StyleLift
