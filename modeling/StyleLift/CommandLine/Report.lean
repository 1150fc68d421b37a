import StyleLift.Extraction

/-!
# Reports

What a finished run says: a summary on the output, and warnings on the error output.  Some words
are coloured, if that is wanted.
-/

namespace StyleLift.CommandLine

/-- The looks of a word. -/
inductive Style where
  | green
  | blue
  | cyan
  | bold
  | boldYellow
  deriving DecidableEq, Repr

/-- The codes that a terminal knows a style by. -/
def Style.codes : Style → Text
  | .green => "32".toList
  | .blue => "34".toList
  | .cyan => "36".toList
  | .bold => "1".toList
  | .boldYellow => "1;33".toList

/-- What turns a style on. -/
def Style.start (style : Style) : Text := "\x1b[".toList ++ style.codes ++ "m".toList

/-- What turns every style off. -/
def reset : Text := "\x1b[0m".toList

/-- A text in which a style goes on after everything that turns it off. -/
def Style.resumed (style : Style) : Text → Text
  | [] => []
  | '\x1b' :: '[' :: '0' :: 'm' :: s => reset ++ style.start ++ style.resumed s
  | c :: s => c :: style.resumed s

/-- A text in a style, if colours are wanted. -/
def styled (colour : Bool) (style : Style) (s : Text) : Text :=
  if colour then style.start ++ style.resumed s ++ reset else s

/-- The mark before good news. -/
def successMark : Text := "✓".toList

/-- The singular for one thing, and the plural for any other number. -/
def plural (count : Nat) (one many : String) : Text := if count = 1 then one.toList else many.toList

/-- A number of things. -/
def counted (count : Nat) (one many : String) : Text :=
  Text.decimal count ++ ' ' :: plural count one many

/-- A line. -/
def line (parts : List Text) : Text := parts.flatten ++ ['\n']

/-- What is known about a finished run. -/
structure RunReport where
  /-- The absolute path of the directory. -/
  root : Path
  /-- The sheet that was asked for. -/
  requested : Text
  /-- The settings came from a file. -/
  fromFile : Bool
  isPreset : Bool
  summary : Lifter.Summary

namespace RunReport

/-- The lines about single files. -/
def fileLines (colour : Bool) (r : RunReport) : Text :=
  let config :=
    if r.fromFile then line ["Using ".toList, styled colour .cyan configFileName] else []
  config ++ r.summary.files.flatMap fun (path, count) =>
    line ["  ".toList, styled colour .blue "-->".toList, " ".toList, path.shown r.root,
      " (".toList, Text.decimal count, " replaced)".toList]

/-- The warnings. -/
def warningLines (colour : Bool) (r : RunReport) : Text :=
  r.summary.warnings.flatMap fun w =>
    line [styled colour .boldYellow "warning:".toList, " ".toList, w.message]

/-- The lines about the usage map and the sheet of images. -/
def sideLines (colour : Bool) (r : RunReport) : Text :=
  let one (label : String) (path : Option Path) (count : Text) : Text :=
    match path with
    | none => []
    | some path =>
      line ["  ".toList, styled colour .bold label.toList, " ".toList, path.shown r.root,
        " (".toList, count, ")".toList]
  one "usage map:" r.summary.written.map
      (counted r.summary.journal.ledger.size "entry" "entries") ++
    one "assets:" r.summary.written.assets
      (counted r.summary.journal.assets.length "image" "images")

/-- The lines about the sheet. -/
def sheetLines (colour : Bool) (r : RunReport) : Text :=
  match r.summary.written.sheet with
  | none =>
    line ["Scanned ".toList, counted r.summary.files.length "file" "files",
      " - nothing to extract".toList]
  | some sheet =>
    let label := if r.isPreset then "Extracted (preset) ".toList else "Extracted ".toList
    let news := label ++ counted r.summary.journal.plain.length "value" "values" ++
      " from ".toList ++ counted r.summary.filesModified "file" "files" ++ " into ".toList ++
      sheet.shown r.root
    let note :=
      if sheet.same (r.root.join r.requested) then []
      else
        line ["  ".toList, styled colour .bold "note:".toList, " ".toList, r.requested,
          " already exists, wrote ".toList, sheet.shown r.root, " instead".toList]
    line [styled colour .green successMark, " ".toList, styled colour .green news] ++ note

/-- The summary of a run. -/
def output (colour verbose : Bool) (r : RunReport) : Text :=
  (if verbose then r.fileLines colour else []) ++ r.sheetLines colour ++ r.sideLines colour

end RunReport

/-- What is said when a configuration file has been made. -/
def initOutput (colour : Bool) : Text :=
  line [styled colour .green successMark, " ".toList,
    styled colour .green ("Created ".toList ++ configFileName)]

end StyleLift.CommandLine
