import StyleLift.Value

/-!
# Sheets

A sheet is the stylesheet that defines a list of variables.  Variables that share a name are
defined once, where the name first comes, with the value that comes last.  A grouped sheet has
one section per source folder, in the order in which the folders first come.
-/

namespace StyleLift.Sheet

/-- One definition of a sheet. -/
structure Definition where
  name : Text
  value : Text
  /-- The label of the section it belongs to. -/
  group : Text
  deriving DecidableEq, Repr

/-- Defines a name: a new one at the end, a known one in its place. -/
def define (name value group : Text) : List Definition → List Definition
  | [] => [⟨name, value, group⟩]
  | d :: rest =>
    if d.name = name then { d with value := value } :: rest
    else d :: define name value group rest

/-- The definitions of a list of variables, each in the section that `groupOf` says. -/
def definitions (groupOf : Variable → Text) (entries : List Variable) : List Definition :=
  entries.foldl (fun ds v => define v.name v.value (groupOf v) ds) []

/-- The label of the section for files that lie directly in the root. -/
def rootLabel : Text := "root".toList

/-- The folder of a file relative to `root`. -/
def folderGroup (path root : Path) : Text :=
  let folder := (path.parent?.map fun parent => parent.shown root).getD []
  if folder.isEmpty then rootLabel else folder

/-- The labels of the sections in order. -/
def groups (ds : List Definition) : List Text :=
  ds.foldl (fun seen d => if seen.contains d.group then seen else seen ++ [d.group]) []

/-! ## Text -/

/-- One line of a sheet. -/
def definitionLine (d : Definition) : Text :=
  "  ".toList ++ d.name ++ ": ".toList ++ d.value ++ ";\n".toList

/-- The lines of some definitions. -/
def lines (ds : List Definition) : Text := ds.flatMap definitionLine

/-- A line that holds a comment. -/
def commentLine (comment : Text) : Text := "  /* ".toList ++ comment ++ " */\n".toList

/-- The rule that holds all definitions. -/
def rootRule (body : Text) : Text := ":root \x7b\n".toList ++ body ++ "\x7d\n".toList

/-- The section with a given label. -/
def sectionText (ds : List Definition) (label : Text) : Text :=
  commentLine label ++ lines (ds.filter fun d => d.group == label)

/-- The sheet of a list of variables. -/
def render (entries : List Variable) (root : Path) (grouped : Bool) : Text :=
  if grouped then
    let ds := definitions (fun v => folderGroup v.path root) entries
    rootRule (Text.joined ['\n'] ((groups ds).map (sectionText ds)))
  else rootRule (lines (definitions (fun _ => []) entries))

/-- The comment at the head of a sheet of images. -/
def assetsComment : Text := "资源变量".toList

/-- The sheet of the inlined images. -/
def renderAssets (entries : List Variable) : Text :=
  rootRule (commentLine assetsComment ++ lines (definitions (fun _ => []) entries))

end StyleLift.Sheet
