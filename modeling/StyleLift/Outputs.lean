import StyleLift.Lifting
import StyleLift.Sheet

/-!
# Outputs of a run

After all documents have been looked at, up to three files are written: the sheet, the usage map
and the sheet of images.  The sheet never takes the place of a file that is there: its name gets
the smallest number that makes it free.
-/

namespace StyleLift.Outputs

/-- The name of the sheet of images. -/
def assetsFileName : Text := "assets.css".toList

/-! ## Paths -/

/-- The `n`-th alternative to a file name in a directory. -/
def numbered (dir : Path) (name : Text) (n : Nat) : Path :=
  let requested : Path := ⟨name⟩
  let extension := (requested.extension?.map fun e => '.' :: e).getD []
  (dir.join (requested.parent?.getD ⟨[]⟩).text).join
    (requested.fileStem?.getD [] ++ '-' :: Text.decimal n ++ extension)

/-- The first path, starting with the requested name and then its numbered alternatives, at which
there is nothing.  Among one more alternatives than there are files, one is free. -/
def availablePath (disk : Disk) (dir : Path) (name : Text) : Path :=
  let requested := dir.join name
  if !disk.pathExists requested then requested
  else
    (((List.range (disk.nodes.length + 2)).map fun n => numbered dir name (n + 1)).find?
      fun p => !disk.pathExists p).getD requested

/-- The path of the usage map that belongs to a sheet. -/
def mapPath (sheet : Path) : Path :=
  sheet.withFileName (sheet.fileStem?.getD [] ++ ".map.json".toList)

/-! ## Writing -/

/-- Writes a file and makes the directories above it. -/
def writeFile (path : Path) (content : Text) : Run Unit := do
  if let some parent := path.parent? then
    Run.attempt (·.makeDirectories parent) (.uncreatableDirectory parent)
  Run.change (·.write path content) (.unwritableFile path)

/-- The files that were written. -/
structure Written where
  sheet : Option Path
  map : Option Path
  assets : Option Path
  warnings : List Warning
  deriving DecidableEq, Repr

/-- Writes the sheet, unless nothing was lifted. -/
def writeSheet (root : Path) (settings : Settings) (journal : Journal) : Run (Option Path) := do
  if journal.plain.isEmpty then return none
  let path := availablePath (← get) root settings.output
  writeFile path (Sheet.render journal.plain root settings.groupByFolder)
  return some path

/-- Writes the usage map, if it is asked for, next to where the sheet is or would be. -/
def writeMap (root : Path) (settings : Settings) (journal : Journal) (sheet : Option Path) :
    Run (Option Path) := do
  if !settings.exportMap then return none
  let path := mapPath (sheet.getD (root.join settings.output))
  writeFile path journal.ledger.usageMap
  return some path

/-- Writes the sheet of images, if there are any. -/
def writeAssets (root : Path) (settings : Settings) (journal : Journal) : Run (Option Path) := do
  if !settings.exportAssets || journal.assets.isEmpty then return none
  let path := root.join assetsFileName
  writeFile path (Sheet.renderAssets journal.assets)
  return some path

/-- Writes all outputs of a run. -/
def write (root : Path) (settings : Settings) (journal : Journal) : Run Written := do
  let sheet ← writeSheet root settings journal
  let map ← writeMap root settings journal sheet
  let assets ← writeAssets root settings journal
  return ⟨sheet, map, assets, if journal.plain.isEmpty then [.noVariables] else []⟩

end StyleLift.Outputs
