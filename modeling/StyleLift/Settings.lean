import StyleLift.Glob.Parser

/-!
# Settings

What a run lifts, what it calls the variables and what it writes.  The settings come from the
configuration file, from the command line, or are the defaults.
-/

namespace StyleLift

/-- The settings of a run. -/
structure Settings where
  /-- The properties whose values are lifted. -/
  properties : List Text
  /-- The common first part of all names. -/
  label : Text
  /-- The sheet, relative to the directory of the run. -/
  output : Text
  /-- The glob that selects style files. -/
  pattern : Text
  /-- Globs of files to leave alone. -/
  ignores : List Text
  /-- Also write the usage map. -/
  exportMap : Bool
  /-- Inline images and write their sheet. -/
  exportAssets : Bool
  /-- Group the sheet by source folder. -/
  groupByFolder : Bool
  /-- Shorter names for properties, each property at most once. -/
  aliases : List (Text × Text)
  deriving DecidableEq, Repr

namespace Settings

/-- The properties that are lifted by default. -/
def defaultProperties : List Text :=
  ["color", "background-color", "background", "border-color"].map String.toList

/-- The aliases that hold by default, in the order of their properties. -/
def defaultAliases : List (Text × Text) :=
  [("background", "bg"), ("background-color", "bg-color"), ("background-image", "bg-image"),
    ("border-radius", "radius"), ("box-shadow", "shadow"), ("font-family", "font"),
    ("font-size", "fs"), ("font-weight", "fw"), ("line-height", "lh")].map
    fun (property, shortName) => (property.toList, shortName.toList)

/-- The default settings. -/
def default : Settings where
  properties := defaultProperties
  label := "var".toList
  output := "variables.css".toList
  pattern := "**/*.\x7bcss,scss\x7d".toList
  ignores := ["**/node_modules/**".toList]
  exportMap := false
  exportAssets := false
  groupByFolder := false
  aliases := defaultAliases

/-- The properties of the preset. -/
def presetProperties : List Text :=
  ["color", "background-color", "background", "background-image", "border-color", "font-size",
    "font-family", "box-shadow", "border-radius"].map String.toList

/-- The label of the preset. -/
def presetLabel : Text := "theme".toList

/-- Whether the values of a property are lifted; the case of letters does not matter. -/
def targets (settings : Settings) (property : Text) : Bool :=
  settings.properties.any fun p => Text.sameIgnoringCase p property

/-- The alias of a property, or the property itself. -/
def aliasFor (settings : Settings) (property : Text) : Text :=
  (settings.aliases.lookup property).getD property

/-- The properties of a list separated by commas, in lower case and without blank ones. -/
def propertyList (list : Text) : List Text :=
  ((Text.pieces ',' list).map fun p => Text.lower (Text.trim p)).filter fun p => !p.isEmpty

/-! ## Validity -/

/-- What is wrong with settings. -/
inductive Fault where
  | noProperties
  | emptyOutput
  | invalidPattern (cause : Glob.Invalid)
  | invalidIgnore (cause : Glob.Invalid)
  deriving DecidableEq, Repr

/-- The message for invalid settings. -/
def Fault.message : Fault → Text
  | .noProperties => "'properties' must name at least one property".toList
  | .emptyOutput => "'output' must not be empty".toList
  | .invalidPattern cause =>
    "Invalid glob pattern in 'pattern': \"".toList ++ cause.source ++ "\": ".toList ++ cause.message
  | .invalidIgnore cause =>
    "Invalid glob pattern in 'ignores': \"".toList ++ cause.source ++ "\": ".toList ++ cause.message

/-- The first fault of settings: in their properties, output, pattern or ignores. -/
def fault? (settings : Settings) : Option Fault :=
  if settings.properties.all Text.isBlankText then some .noProperties
  else if Text.isBlankText settings.output then some .emptyOutput
  else
    match Glob.compile settings.pattern, Glob.compileAll settings.ignores with
    | .error cause, _ => some (.invalidPattern cause)
    | .ok _, .error cause => some (.invalidIgnore cause)
    | .ok _, .ok _ => none

end Settings

end StyleLift
