import StyleLift.Text.Basic

/-!
# Commands and their options

One table per command says which options it has.  The reader of the command line and the help
text both go by these tables, so an option is described exactly where it is understood.
-/

namespace StyleLift.CommandLine

/-- What a value on the command line is for. -/
inductive Slot where
  | directory
  | properties
  | label
  | output
  | pattern
  deriving DecidableEq, Repr

/-- What can be switched on. -/
inductive Switch where
  | map
  | assets
  | groupByFolder
  | strict
  | verbose
  deriving DecidableEq, Repr

/-- What an option does. -/
inductive Effect where
  /-- Takes a value, which help calls by a name. -/
  | take (slot : Slot) (valueName : Text)
  | turnOn (switch : Switch)
  | showHelp
  | showVersion
  deriving DecidableEq, Repr

/-- An option. -/
structure Spec where
  /-- The letter after one hyphen. -/
  short : Option Char := none
  /-- The word after two hyphens. -/
  long : Text
  effect : Effect
  about : Text
  deriving DecidableEq, Repr

/-- What help says about a command, and what its reader understands. -/
structure Manual where
  about : Text
  /-- How the command is called. -/
  usage : Text
  /-- The description of each argument without hyphens, by its name. -/
  arguments : List (Text × Text) := []
  /-- The description of each command below, by its name. -/
  commands : List (Text × Text) := []
  specs : List Spec := []
  deriving DecidableEq, Repr

/-- The commands. -/
inductive Command where
  | extract
  | preset
  | init
  deriving DecidableEq, Repr

namespace Command

/-- The word for a command. -/
def name : Command → Text
  | extract => "extract".toList
  | preset => "preset".toList
  | init => "init".toList

/-- The command that a word stands for. -/
def ofName? (word : Text) : Option Command := [extract, preset, init].find? fun c => c.name == word

/-- What a command does. -/
def about : Command → Text
  | extract => "Replace property values with var() references and generate a variable sheet".toList
  | preset => "Run extract with the built-in theme property list and the \"theme\" prefix".toList
  | init => "Initialize a new .cssvarrc.json configuration file".toList

end Command

/-! ## Options -/

/-- The option that shows help. -/
def helpSpec : Spec where
  short := some 'h'
  long := "help".toList
  effect := .showHelp
  about := "Print help".toList

/-- The option that shows the version. -/
def versionSpec : Spec where
  short := some 'V'
  long := "version".toList
  effect := .showVersion
  about := "Print version".toList

/-- The options that only the command with free choice of properties has. -/
def choiceSpecs : List Spec :=
  [{ short := some 'p', long := "properties".toList,
     effect := .take .properties "PROPERTIES".toList,
     about := "Comma separated properties to extract, e.g. \"color,background-color\"".toList },
   { long := "prefix".toList, effect := .take .label "PREFIX".toList,
     about := "Prefix for generated variable names (overrides config file)".toList }]

/-- The options of every command that runs an extraction. -/
def runSpecs : List Spec :=
  [{ short := some 'o', long := "output".toList, effect := .take .output "OUTPUT".toList,
     about := ("Variable sheet file name, relative to the scanned directory " ++
       "(overrides config file)").toList },
   { long := "pattern".toList, effect := .take .pattern "PATTERN".toList,
     about := "Glob pattern selecting style files (overrides config file)".toList },
   { long := "map".toList, effect := .turnOn .map,
     about := "Also write a JSON usage map next to the variable sheet".toList },
   { long := "assets".toList, effect := .turnOn .assets,
     about := "Inline referenced images as data URLs and write assets.css".toList },
   { long := "group-by-folder".toList, effect := .turnOn .groupByFolder,
     about := "Group variables by source folder in the variable sheet".toList },
   { long := "strict".toList, effect := .turnOn .strict,
     about := "Exit with status 1 when the run produced warnings".toList },
   { short := some 'v', long := "verbose".toList, effect := .turnOn .verbose,
     about := "Enable verbose output".toList },
   helpSpec]

/-- The argument that names the directory of a run. -/
def directoryArgument : Text × Text :=
  ("[DIR]".toList, "Directory to scan (default: current directory)".toList)

/-! ## Manuals -/

/-- The name of the program. -/
def programName : Text := "cssvar".toList

/-- The version of the program. -/
def versionText : Text := programName ++ " 0.1.0\n".toList

/-- The manual of a command. -/
def Command.manual : Command → Manual
  | .extract =>
    { about := Command.extract.about
      usage := programName ++ " extract [OPTIONS] [DIR]".toList
      arguments := [directoryArgument]
      specs := choiceSpecs ++ runSpecs }
  | .preset =>
    { about := Command.preset.about
      usage := programName ++ " preset [OPTIONS] [DIR]".toList
      arguments := [directoryArgument]
      specs := runSpecs }
  | .init =>
    { about := Command.init.about
      usage := programName ++ " init".toList
      specs := [helpSpec] }

/-- The word for the command that shows help. -/
def helpName : Text := "help".toList

/-- What the command that shows help does. -/
def helpAbout : Text := "Print this message or the help of the given subcommand(s)".toList

/-- The manual of the program as a whole. -/
def programManual : Manual where
  about := "A fast CLI tool for extracting literal CSS/SCSS values into custom properties".toList
  usage := programName ++ " [COMMAND]".toList
  commands := ([.extract, .preset, .init].map fun (c : Command) => (c.name, c.about)) ++
    [(helpName, helpAbout)]
  specs := [helpSpec, versionSpec]

/-- The manual of the command that shows help. -/
def helpManual : Manual where
  about := helpAbout
  usage := programName ++ " help [COMMAND]...".toList
  arguments := [("[COMMAND]...".toList, "Print help for the subcommand(s)".toList)]

/-! ## Help -/

/-- The left column of an option. -/
def Spec.heading (spec : Spec) : Text :=
  let short :=
    match spec.short with
    | some c => ['-', c, ',', ' ']
    | none => [' ', ' ', ' ', ' ']
  let value :=
    match spec.effect with
    | .take _ valueName => " <".toList ++ valueName ++ ">".toList
    | _ => []
  short ++ "--".toList ++ spec.long ++ value

/-- Two columns, the second of which starts two spaces after the longest entry of the first. -/
def columns (rows : List (Text × Text)) : Text :=
  let width := (rows.map fun (left, _) => left.length).foldl max 0
  rows.flatMap fun (left, right) =>
    "  ".toList ++ left ++ List.replicate (width - left.length + 2) ' ' ++ right ++ ['\n']

/-- A titled table, or nothing if it has no rows. -/
def table (title : String) (rows : List (Text × Text)) : Text :=
  if rows.isEmpty then [] else '\n' :: title.toList ++ ":\n".toList ++ columns rows

/-- The help text of a command. -/
def Manual.help (manual : Manual) : Text :=
  manual.about ++ "\n\nUsage: ".toList ++ manual.usage ++ ['\n'] ++
    table "Commands" manual.commands ++ table "Arguments" manual.arguments ++
    table "Options" (manual.specs.map fun spec => (spec.heading, spec.about))

end StyleLift.CommandLine
