import StyleLift.Text.Word

/-!
# Image references

A value refers to an image when it is `url(…)` around a path or a bare path, the path is not a
data URL and not remote, and it ends in one of the known extensions.  What counts as the end is
the path before its first `?` or `#`.
-/

namespace StyleLift.Value

/-- The extensions by which images are recognised. -/
def imageExtensions : List Text :=
  ["png", "jpg", "jpeg", "gif", "svg", "webp", "bmp", "ico", "avif"].map String.toList

/-- Either quotation mark. -/
def isQuote (c : Char) : Bool := c == '"' || c == '\''

/-- A reference without its query and fragment. -/
def withoutQuery (reference : Text) : Text :=
  reference.takeWhile fun c => c != '?' && c != '#'

/-- The text after the last dot, in lower case. -/
def extension? (reference : Text) : Option Text :=
  (Text.splitLast? '.' (withoutQuery reference)).map fun (_, extension) => Text.lower extension

/-- What stands between `url(` and the final `)`, if there is no other `)`. -/
def urlBody? (value : Text) : Option Text := do
  let rest ← Text.afterIgnoringCase? "url(".toList value
  match rest.reverse with
  | ')' :: body => if body.contains ')' then none else some body.reverse
  | _ => none

/-- The text inside at most one quotation mark on either side, without blanks around it.  No
other quotation mark is allowed. -/
def unquoted? (body : Text) : Option Text :=
  let inner :=
    match Text.trimStart body with
    | [] => []
    | c :: rest => if isQuote c then rest else c :: rest
  let content := inner.takeWhile fun c => !isQuote c
  match inner.dropWhile fun c => !isQuote c with
  | [] => some (Text.trim content)
  | _ :: rest => if Text.isBlankText rest then some (Text.trim content) else none

/-- The path inside `url(…)`. -/
def urlPath? (value : Text) : Option Text := (urlBody? value).bind unquoted?

/-- Characters of a path that is written without `url(…)`. -/
def isBarePathChar (c : Char) : Bool :=
  Text.isWord c || c == '@' || c == '~' || c == '.' || c == '-' || c == '/'

/-- A path without quotes, blanks or punctuation that ends in a dot and an extension. -/
def isBarePath (value : Text) : Bool :=
  match Text.splitLast? '.' value with
  | some (stem, extension) =>
    !stem.isEmpty && stem.all isBarePathChar && !extension.isEmpty && extension.all Char.isAlphanum
  | none => false

/-- Data URLs and paths on other hosts. -/
def isRemote (reference : Text) : Bool :=
  (Text.after? "data:".toList reference).isSome || Text.contains "://".toList reference ||
    (Text.after? "//".toList reference).isSome

/-- Whether a path is that of a local image. -/
def isImagePath (reference : Text) : Bool :=
  !isRemote reference &&
    match extension? reference with
    | some extension => imageExtensions.contains extension
    | none => false

/-- The path of the image that a value refers to. -/
def imagePath? (value : Text) : Option Text :=
  let reference? :=
    match urlPath? value with
    | some path => some path
    | none => if isBarePath value then some value else none
  reference?.filter isImagePath

end StyleLift.Value
