import StyleLift.Json.Reader
import StyleLift.Settings

/-!
# Settings as JSON

The configuration file holds an object with one member per setting.  A setting that is missing
has its default, a member that is no setting is skipped, and a setting that comes twice is a
fault.  An array is read as the settings in the order of `Field.all`, those at the end left out.
-/

namespace StyleLift.Settings

/-- The members of the configuration. -/
inductive Field where
  | properties
  | label
  | output
  | pattern
  | ignores
  | exportMap
  | exportAssets
  | groupByFolder
  | aliases
  deriving DecidableEq, Repr

namespace Field

/-- All members in order. -/
def all : List Field :=
  [properties, label, output, pattern, ignores, exportMap, exportAssets, groupByFolder, aliases]

/-- The key of a member. -/
def key : Field → Text
  | properties => "properties".toList
  | label => "prefix".toList
  | output => "output".toList
  | pattern => "pattern".toList
  | ignores => "ignores".toList
  | exportMap => "exportMap".toList
  | exportAssets => "exportAssets".toList
  | groupByFolder => "groupByFolder".toList
  | aliases => "aliases".toList

/-- The member with a given key. -/
def ofKey? (key : Text) : Option Field := all.find? fun f => f.key == key

end Field

/-- Sets the alias of a property. -/
def putAlias (property shortName : Text) : List (Text × Text) → List (Text × Text)
  | [] => [(property, shortName)]
  | (p, a) :: rest =>
    if p = property then (p, shortName) :: rest else (p, a) :: putAlias property shortName rest

/-- Aliases from members of an object, of which the last for a property holds. -/
def aliasesOf (members : List (Text × Text)) : List (Text × Text) :=
  members.foldl (fun aliases (property, shortName) => putAlias property shortName aliases) []

/-! ## Reading -/

/-- Puts the value that a reader takes into settings. -/
def put {α : Type} (reader : Json.Reader α) (set : α → Settings) : Json.Reader Settings :=
  fun s => (reader s).map fun (value, rest) => (set value, rest)

/-- Reads one member into settings. -/
def readField (settings : Settings) : Field → Json.Reader Settings
  | .properties => put Json.readStrings fun v => { settings with properties := v }
  | .label => put Json.readString fun v => { settings with label := v }
  | .output => put Json.readString fun v => { settings with output := v }
  | .pattern => put Json.readString fun v => { settings with pattern := v }
  | .ignores => put Json.readStrings fun v => { settings with ignores := v }
  | .exportMap => put Json.readTruth fun v => { settings with exportMap := v }
  | .exportAssets => put Json.readTruth fun v => { settings with exportAssets := v }
  | .groupByFolder => put Json.readTruth fun v => { settings with groupByFolder := v }
  | .aliases => put Json.readStringObject fun v => { settings with aliases := aliasesOf v }

/-- Reads the members of an object up to its end.  `seen` are the settings read so far, and the
fuel bounds the number of members. -/
def readMembers (fuel : Nat) (first : Bool) (seen : List Field) (settings : Settings)
    (s : Text) : Except Json.Fault (Settings × Text) :=
  match fuel with
  | 0 => .error .incomplete
  | fuel + 1 => do
    match ← Json.nextKey first s with
    | (none, rest) => .ok (settings, rest)
    | (some key, rest) =>
      match Field.ofKey? key with
      | none =>
        let ((), rest) ← Json.ignored (← Json.colon rest)
        readMembers fuel false seen settings rest
      | some field =>
        if seen.contains field then .error .mismatched
        else
          let (settings, rest) ← settings.readField field (← Json.colon rest)
          readMembers fuel false (field :: seen) settings rest

/-- Reads the items of an array as the given settings. -/
def readItems (first : Bool) (settings : Settings) :
    List Field → Text → Except Json.Fault (Settings × Text)
  | [], s => .ok (settings, s)
  | field :: fields, s => do
    let (more, rest) ← Json.nextItem first s
    if more then
      let (settings, rest) ← settings.readField field rest
      readItems false settings fields rest
    else
      .ok (settings, rest)

/-- Reads settings. -/
def reader : Json.Reader Settings := fun s =>
  match Json.skipSpace s with
  | [] => .error .incomplete
  | '{' :: rest => do
    let (settings, rest) ← readMembers (rest.length + 1) true [] .default rest
    let rest ← Json.endMembers rest
    .ok (settings, rest)
  | '[' :: rest => do
    let (settings, rest) ← readItems true .default Field.all rest
    let rest ← Json.endItems rest
    .ok (settings, rest)
  | rest => .error (Json.mismatch rest)

/-- The settings that a text holds. -/
def parse (s : Text) : Except Json.Fault Settings := Json.whole reader s

/-! ## Writing -/

/-- The value of a member. -/
def fieldJson (settings : Settings) : Field → Json
  | .properties => .array (settings.properties.map .string)
  | .label => .string settings.label
  | .output => .string settings.output
  | .pattern => .string settings.pattern
  | .ignores => .array (settings.ignores.map .string)
  | .exportMap => .bool settings.exportMap
  | .exportAssets => .bool settings.exportAssets
  | .groupByFolder => .bool settings.groupByFolder
  | .aliases =>
    .object (settings.aliases.map fun (property, shortName) => (property, .string shortName))

/-- Settings as JSON. -/
def toJson (settings : Settings) : Json :=
  .object (Field.all.map fun field => (field.key, settings.fieldJson field))

/-- The text of the default configuration. -/
def defaultText : Text := default.toJson.pretty

end StyleLift.Settings
