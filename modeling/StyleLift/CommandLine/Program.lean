import StyleLift.CommandLine.Arguments
import StyleLift.CommandLine.Report
import StyleLift.Settings.Discovery

/-!
# The program

The program as a function: from its words and a disk to what it says, its exit status and the
disk afterwards.
-/

namespace StyleLift.CommandLine

/-- What a run of the program comes to. -/
inductive Outcome where
  /-- The words were not understood. -/
  | misuse (what : Misuse)
  /-- Help was asked for. -/
  | help (text : Text)
  /-- The version was asked for. -/
  | version (text : Text)
  /-- A command ran. -/
  | finished (status : Nat) (output errors : Text)
  deriving DecidableEq, Repr

/-- The exit status of an outcome: two for a misuse. -/
def Outcome.status : Outcome → Nat
  | .misuse _ => 2
  | .help _ => 0
  | .version _ => 0
  | .finished status _ _ => status

/-! ## Commands -/

/-- The directory of a run, by default the working directory. -/
def directory (values : Values) : Path := ⟨(values.get? .directory).getD ['.']⟩

/-- The properties and label that a command lifts with. -/
def choice (command : Command) (values : Values) (settings : Settings) : List Text × Text :=
  match command with
  | .preset => (Settings.presetProperties, Settings.presetLabel)
  | _ =>
    (((values.get? .properties).map Settings.propertyList).getD settings.properties,
      (values.get? .label).getD settings.label)

/-- The settings of a run: what the command line says goes before the configuration. -/
def mergedSettings (command : Command) (values : Values) (settings : Settings) : Settings :=
  let (properties, label) := choice command values settings
  { settings with
    properties, label
    output := (values.get? .output).getD settings.output
    pattern := (values.get? .pattern).getD settings.pattern
    exportMap := values.isOn .map || settings.exportMap
    exportAssets := values.isOn .assets || settings.exportAssets
    groupByFolder := values.isOn .groupByFolder || settings.groupByFolder }

/-- The configuration of the directory, which has to be there. -/
def configuration (dir : Path) (disk : Disk) : Except Failure Settings.Loaded :=
  if disk.isDirectory dir then Settings.load disk dir else .error (.missingDirectory dir)

/-- Runs an extraction. -/
def runExtraction (command : Command) (values : Values) : Run RunReport := do
  let dir := directory values
  let loaded ← Run.observe (configuration dir)
  let settings := mergedSettings command values loaded.settings
  if settings.properties.isEmpty then throw .noProperties
  let lifter ← Run.observe fun disk => Lifter.forDirectory disk dir settings
  let summary ← lifter.extract
  return ⟨lifter.root, settings.output, loaded.fromFile, command == .preset, summary⟩

/-- Makes a configuration file in the working directory. -/
def runInit : Run Unit := do
  let file : Path := ⟨configFileName⟩
  if (← get).pathExists file then throw .configExists
  Run.change (·.write file (Settings.defaultText ++ ['\n'])) .uncreatableConfig

/-! ## Running -/

/-- The outcome of a run that failed. -/
def failed (failure : Failure) : Outcome :=
  .finished 2 [] ("Error: ".toList ++ failure.message ++ ['\n'])

/-- The exit status of a run that did not fail: one if it is strict and there are warnings. -/
def exitStatus (values : Values) (r : RunReport) : Nat :=
  if values.isOn .strict && !r.summary.warnings.isEmpty then 1 else 0

/-- The outcome of a run. -/
def reported (colour : Bool) (values : Values) (r : RunReport) : Outcome :=
  .finished (exitStatus values r) (r.output colour (values.isOn .verbose)) (r.warningLines colour)

/-- Runs a command. -/
def runCommand (colour : Bool) (command : Command) (values : Values) (disk : Disk) :
    Outcome × Disk :=
  match command with
  | .init =>
    match runInit disk with
    | (.ok (), disk) => (.finished 0 (initOutput colour) [], disk)
    | (.error failure, disk) => (failed failure, disk)
  | command =>
    match runExtraction command values disk with
    | (.ok report, disk) => (reported colour values report, disk)
    | (.error failure, disk) => (failed failure, disk)

/-- Runs the program. -/
def run (colour : Bool) (words : List Text) (disk : Disk) : Outcome × Disk :=
  match parse words with
  | .error (.misuse what) => (.misuse what, disk)
  | .error (.help manual) => (.help manual.help, disk)
  | .error .version => (.version versionText, disk)
  | .ok .nothing => (.finished 0 programManual.help [], disk)
  | .ok (.run command values) => runCommand colour command values disk

end StyleLift.CommandLine
