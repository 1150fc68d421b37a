import StyleLift.Stylesheet.Token

/-!
# Text without its comments

Removing the comments of a stretch of source keeps, for every remaining character, the offset
at which it stands in the source, and the stretches that the comments took.  A comment between
two characters that are not blank leaves one space behind, placed where the comment starts, so
that `1px/**/solid` still reads as two words.
-/

namespace StyleLift.Stylesheet

/-- A stretch of the source: the offsets from `start` up to but not including `stop`. -/
structure Span where
  start : Nat
  stop : Nat
  deriving DecidableEq, Repr

namespace Span

/-- Lies inside another stretch. -/
def within (inner outer : Span) : Bool :=
  outer.start ≤ inner.start && inner.stop ≤ outer.stop

/-- The part of the source that a stretch covers. -/
def slice (span : Span) (source : Text) : Text :=
  (source.drop span.start).take (span.stop - span.start)

end Span

/-- A character and the offset it is taken from. -/
structure Placed where
  offset : Nat
  char : Char
  deriving DecidableEq, Repr

namespace Placed

/-- The characters of a text that starts at `offset`. -/
def ofText (offset : Nat) : Text → List Placed
  | [] => []
  | c :: rest => ⟨offset, c⟩ :: ofText (offset + 1) rest

/-- The characters alone. -/
def text (chars : List Placed) : Text := chars.map Placed.char

/-- The stretch from the first to the last of the characters. -/
def span? (chars : List Placed) : Option Span :=
  match chars.head?, chars.getLast? with
  | some first, some last => some ⟨first.offset, last.offset + 1⟩
  | _, _ => none

end Placed

/-- What is left of a stretch of source without its comments, and where these stood. -/
structure Uncommented where
  kept : List Placed
  comments : List Span
  deriving DecidableEq, Repr

namespace Uncommented

/-- The remaining text. -/
def text (u : Uncommented) : Text := Placed.text u.kept

/-- A neighbour of a comment that has to stay apart from its other neighbour. -/
def isSolid : Option Char → Bool
  | some c => !Text.isAsciiBlank c
  | none => false

/-- The space that a comment at `offset` leaves between `before` and `after`. -/
def gap (offset : Nat) (before after : Option Char) : List Placed :=
  if isSolid before && isSolid after then [⟨offset, ' '⟩] else []

/-- Removes the comments from tokens that start at `offset`, when `before` is the character kept
last. -/
def ofTokens (before : Option Char) (offset : Nat) : List Token → Uncommented
  | [] => ⟨[], []⟩
  | token :: rest =>
    let next := offset + token.text.length
    if token.isComment then
      let space := gap offset before (rest.head?.bind fun t => t.text.head?)
      let left := ofTokens (if space.isEmpty then before else some ' ') next rest
      ⟨space ++ left.kept, ⟨offset, next⟩ :: left.comments⟩
    else
      let left := ofTokens (token.text.getLast?.or before) next rest
      ⟨Placed.ofText offset token.text ++ left.kept, left.comments⟩

/-- Removes the comments from a text that starts at `offset` of the source. -/
def ofText (dialect : Dialect) (offset : Nat) (s : Text) : Uncommented :=
  ofTokens none offset (tokens (.ofComments dialect) 0 s)

end Uncommented

end StyleLift.Stylesheet
