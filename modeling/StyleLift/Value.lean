import StyleLift.Path
import StyleLift.Value.Gradient
import StyleLift.Value.Image

/-!
# Values

A value that is found in a source file becomes a variable, under a name.  The same type holds custom
properties, inlined images and the preprocessor's own `$name` variables.

A value is of one kind, by the first rule that applies: quoted string, preprocessor reference,
gradient, `transparent`, image reference, anything else.  The kind depends on the value alone.

Every value also has a *token*, a short identifier that goes into the name of its variable.  A
token has at most `maxTokenLength` characters, all of them ASCII letters, digits, `-` or `_`.
-/

namespace StyleLift

/-- A named value and where it was found. -/
structure Variable where
  /-- The property whose value it is. -/
  property : Text
  /-- The value itself. -/
  value : Text
  /-- The name, with its leading `--` or `$`. -/
  name : Text
  /-- The file it was found in. -/
  path : Path
  /-- The line it was found in. -/
  line : Nat
  deriving DecidableEq, Repr

/-- The character that starts a preprocessor variable. -/
def sigil : Char := '$'

namespace Value

/-! ## Kinds and tokens -/

/-- The kinds of values. -/
inductive Kind where
  | quoted
  /-- A value that starts with `$`. -/
  | reference
  | gradient
  /-- An image, with its path as it is written. -/
  | image (path : Text)
  | transparent
  | plain
  deriving DecidableEq, Repr

/-- The greatest length of a token. -/
def maxTokenLength : Nat := 32

/-- A token cut to its greatest length. -/
def shorten (token : Text) : Text := token.take maxTokenLength

/-- Without any quotation marks at the ends. -/
def withoutQuotes (value : Text) : Text :=
  ((value.dropWhile isQuote).reverse.dropWhile isQuote).reverse

/-- Every character that is no ASCII letter or digit as a hyphen. -/
def hyphenated (s : Text) : Text := s.map fun c => if c.isAlphanum then c else '-'

/-- Without any `#` at the start. -/
def withoutHashes (s : Text) : Text := s.dropWhile (· == '#')

/-- Characters of the name of a preprocessor variable in a reference. -/
def isReferenceChar (c : Char) : Bool := c.isAlphanum || c == '-' || c == '_'

/-- The value of the latest known variable `$name` of a property. -/
def resolve? (name property : Text) (known : List Variable) : Option Text :=
  (known.reverse.find? fun v => v.property == property && v.name == sigil :: name).map
    Variable.value

/-- The token of a reference: the value it stands for if that is known, and its name if not. -/
def referenceToken (rest property : Text) (known : List Variable) : Text :=
  let name := rest.takeWhile isReferenceChar
  match resolve? name property known with
  | some value => Text.alphanumerics (withoutHashes value)
  | none => name

/-- The token of an image: its file name up to the first dot. -/
def imageToken (path : Text) : Text :=
  let file := (Text.splitLast? '/' path).elim path Prod.snd
  Text.alphanumerics (file.takeWhile (· != '.'))

/-- The kind of a value. -/
def kind (value : Text) : Kind :=
  let value := Text.trim value
  match value with
  | [] => .plain
  | c :: _ =>
    if isQuote c then .quoted
    else if c = sigil then .reference
    else if Text.contains "gradient".toList value then .gradient
    else if Text.sameIgnoringCase value "transparent".toList then .transparent
    else
      match imagePath? value with
      | some path => .image path
      | none => .plain

/-- The token of a value before it is cut. -/
def fullToken (value property : Text) (known : List Variable) : Text :=
  let trimmed := Text.trim value
  match kind value with
  | .quoted => hyphenated (withoutQuotes trimmed)
  | .reference => referenceToken (trimmed.drop 1) property known
  | .gradient => gradientToken trimmed
  | .transparent => []
  | .image path => imageToken path
  | .plain => Text.alphanumerics (withoutHashes trimmed)

/-- The token of a value of `property`, where `known` are the preprocessor variables seen so
far. -/
def token (value property : Text) (known : List Variable) : Text :=
  shorten (fullToken value property known)

end Value

end StyleLift
