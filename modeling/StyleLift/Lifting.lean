import StyleLift.Failure
import StyleLift.Ledger
import StyleLift.Naming.Registry

/-!
# Lifting the values of a document

Each declaration of a document is looked at once.  Whether its value is lifted depends on the
declaration, the settings and the disk, and not on what was lifted before (`Lifter.select`);
only the name it gets depends on the journal of the run.
-/

namespace StyleLift

open Stylesheet (Declaration Document Entry)

/-- What has been collected during a run. -/
structure Journal where
  /-- Values that were lifted as they are, in order. -/
  plain : List Variable := []
  /-- Images that were inlined, in order; their values are data URLs. -/
  assets : List Variable := []
  /-- The preprocessor variables that were seen, in order. -/
  references : List Variable := []
  names : Naming.Registry := {}
  ledger : Ledger := {}
  warnings : List Warning := []

/-- The property under which all preprocessor variables are filed. -/
def referenceProperty : Text := "color".toList

/-- Adds the preprocessor variables that a document defines. -/
def Journal.addReferences (journal : Journal) (path : Path) (ds : List Declaration) : Journal :=
  let defined := ds.filter fun d => d.property.head? == some sigil
  { journal with
    references := journal.references ++ defined.map fun d =>
      { property := referenceProperty, value := d.value, name := d.property, path,
        line := d.line } }

/-- What a run is made with. -/
structure Lifter where
  /-- The directory of the run. -/
  root : Path
  settings : Settings
  encoder : Image.Encoder := Image.base64
  /-- A naming scheme in place of the default one. -/
  strategy : Option Naming.Strategy := none

/-- What is to be done with a declaration. -/
inductive Selection where
  /-- Leave it alone. -/
  | leave
  /-- Leave it alone and say why. -/
  | warn (warning : Warning)
  /-- Lift the value as it is. -/
  | lift
  /-- Lift the image that the value refers to, as this data URL. -/
  | inline (url : Text)
  deriving DecidableEq, Repr

namespace Lifter

/-- What is to be done with the image that a declaration refers to. -/
def selectImage (lifter : Lifter) (disk : Disk) (path : Path) (d : Declaration)
    (reference : Text) : Selection :=
  let asset := Image.assetPath path reference
  if !disk.pathExists asset then .warn (.missingAsset path d.line asset)
  else
    match lifter.encoder disk asset with
    | .ok encoded => .inline (Image.dataUrl asset encoded)
    | .error cause => .warn (.unreadableAsset path d.line asset cause)

/-- What is to be done with a declaration of the file at `path`. -/
def select (lifter : Lifter) (disk : Disk) (path : Path) (d : Declaration) : Selection :=
  if !lifter.settings.targets d.property then .leave
  else if (Text.after? "var(".toList d.value).isSome ||
      (Text.after? "--".toList d.value).isSome then .leave
  else if d.value.any (· == sigil) && !lifter.settings.exportAssets then .leave
  else
    match Value.kind d.value with
    | .transparent => .leave
    | .image reference =>
      if lifter.settings.exportAssets then lifter.selectImage disk path d reference else .lift
    | _ => .lift

/-- The context in which the variable of a declaration is named. -/
def context (lifter : Lifter) (path : Path) (d : Declaration) (known : List Variable) :
    Naming.Context where
  root := lifter.root
  path := path
  line := d.line
  selectors := d.selectors
  kind := Value.kind d.value
  token := Value.token d.value d.property known
  label := lifter.settings.label
  shortName := lifter.settings.aliasFor (Text.lower d.property)

/-- The name for a declaration.  By the default scheme, a value that comes again in the same
context shares its name; `shared` is what has to come again. -/
def name (lifter : Lifter) (path : Path) (d : Declaration) (shared : Text) (journal : Journal) :
    Text × Naming.Registry :=
  let ctx := lifter.context path d journal.references
  match lifter.strategy with
  | some strategy => journal.names.assignWith strategy (Text.lower d.property) d.value ctx
  | none => journal.names.assign (Text.lower d.property) shared ctx

/-- The usage that a lifted declaration is. -/
def usage (lifter : Lifter) (path : Path) (d : Declaration) : Usage :=
  ⟨path.shown lifter.root, d.line, d.property, d.value⟩

/-- Looks at one declaration: the name of its variable if it is lifted, and the journal after. -/
def visit (lifter : Lifter) (disk : Disk) (path : Path) (d : Declaration) (journal : Journal) :
    Option Text × Journal :=
  match lifter.select disk path d with
  | .leave => (none, journal)
  | .warn warning => (none, { journal with warnings := journal.warnings ++ [warning] })
  | .lift =>
    let (name, names) := lifter.name path d d.value journal
    (some name, { journal with
      plain := journal.plain ++ [⟨d.property, d.value, name, path, d.line⟩]
      names := names
      ledger := journal.ledger.record name (lifter.usage path d) })
  | .inline url =>
    let (name, names) := lifter.name path d url journal
    (some name, { journal with
      assets := journal.assets ++ [⟨d.property, url, name, path, d.line⟩]
      names := names
      ledger := journal.ledger.record name (lifter.usage path d) })

/-- The reference to a variable. -/
def reference (name : Text) : Text := "var(".toList ++ name ++ ")".toList

/-- Looks at the entries of a document in order. -/
def visitAll (lifter : Lifter) (disk : Disk) (path : Path) (journal : Journal) :
    List Entry → List Entry × Nat × Journal
  | [] => ([], 0, journal)
  | e :: rest =>
    match lifter.visit disk path e.declaration journal with
    | (none, journal) =>
      let (rest, count, journal) := lifter.visitAll disk path journal rest
      (e :: rest, count, journal)
    | (some name, journal) =>
      let (rest, count, journal) := lifter.visitAll disk path journal rest
      ({ e with replacement := some (reference name) } :: rest, count + 1, journal)

/-- A document after lifting. -/
structure Result where
  document : Document
  /-- The number of declarations that were lifted. -/
  count : Nat
  journal : Journal

/-- Lifts the values of the document of the file at `path`. -/
def lift (lifter : Lifter) (disk : Disk) (path : Path) (dialect : Dialect) (doc : Document)
    (journal : Journal) : Result :=
  let journal :=
    match dialect with
    | .scss => journal.addReferences path doc.declarations
    | .css => journal
  let (entries, count, journal) := lifter.visitAll disk path journal doc.entries
  ⟨{ doc with entries }, count, journal⟩

end Lifter

end StyleLift
