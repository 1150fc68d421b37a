import StyleLift.Value

/-!
# Composing names

By default a variable is called `--{label}-{folder}-{class}-{token}-{short name}`, and every part
that is empty is left out together with its hyphen.  The folder is the directory right above the
source file, unless that is the directory the run started from; the class is the first class
selector of the innermost block that has one.
-/

namespace StyleLift.Naming

/-- What is known about a declaration when its variable is named. -/
structure Context where
  /-- The directory the run started from. -/
  root : Path
  /-- The file of the declaration. -/
  path : Path
  line : Nat
  /-- The preludes of the blocks around the declaration, outermost first. -/
  selectors : List Text
  kind : Value.Kind
  token : Text
  /-- The common first part of all names. -/
  label : Text
  /-- The property, or the shorter name chosen for it. -/
  shortName : Text
  deriving DecidableEq, Repr

/-- A scheme of one's own: the name for a property, a value and their context. -/
abbrev Strategy := Text → Text → Context → Text

/-! ## Folders -/

/-- Every character that cannot stand in a name as a hyphen. -/
def sanitized (s : Text) : Text := s.map fun c => if Value.isReferenceChar c then c else '-'

/-- The name of the directory right above a file, or nothing if that directory is `root` or lies
outside of it. -/
def folderSegment (root path : Path) : Text :=
  match path.parent? with
  | none => []
  | some parent =>
    if parent.same root || (parent.relativeTo? root).isNone then []
    else (parent.fileName?.map sanitized).getD []

/-! ## Classes -/

/-- A class name at the start of a text: an optional hyphen and an identifier. -/
def className? : Text → Option Text
  | '-' :: c :: rest =>
    if Text.isNameStart c then some ('-' :: c :: rest.takeWhile Text.isWordOrHyphen) else none
  | c :: rest =>
    if Text.isNameStart c then some (c :: rest.takeWhile Text.isWordOrHyphen) else none
  | [] => none

/-- The first class name after a dot. -/
def firstClass? : Text → Option Text
  | [] => none
  | c :: rest => if c = '.' then (className? rest).or (firstClass? rest) else firstClass? rest

/-- The class name of the innermost selector that has one. -/
def nearestClass? (selectors : List Text) : Option Text := selectors.reverse.findSome? firstClass?

/-! ## Names -/

/-- The parts of a name in order, the empty ones left out. -/
def segments (ctx : Context) : List Text :=
  [ctx.label, folderSegment ctx.root ctx.path, (nearestClass? ctx.selectors).getD [], ctx.token,
    ctx.shortName].filter fun s => !s.isEmpty

/-- The name that the context alone gives, before clashes are looked at. -/
def baseName (ctx : Context) : Text := '-' :: '-' :: Text.joined ['-'] (segments ctx)

end StyleLift.Naming
