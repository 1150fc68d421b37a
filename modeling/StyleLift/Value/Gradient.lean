import StyleLift.Text.Word

/-!
# Gradients

The token of a gradient names its shape and the colours among its arguments.  Colours are found
from left to right without overlap: a `#` followed by three to eight hexadecimal digits that end
a word, or an `rgb`, `rgba`, `hsl` or `hsla` call up to its first `)`.
-/

namespace StyleLift.Value

/-- The shapes that are told apart. -/
def gradientShapes : List Text := ["linear", "radial", "conic"].map String.toList

/-- The first shape that is directly followed by `-gradient`, in any case. -/
def gradientShape? : Text → Option Text
  | [] => none
  | c :: rest =>
    match gradientShapes.find? fun shape =>
        (Text.afterIgnoringCase? (shape ++ "-gradient".toList) (c :: rest)).isSome with
    | some shape => some shape
    | none => gradientShape? rest

/-- The name of a colour function at the start of a text and what follows it.  In `hsl` the long
s is as good as an s, being the same letter up to case. -/
def colourFunction? : Text → Option (Text × Text)
  | r :: g :: b :: rest =>
    let isRgb := r.toLower == 'r' && g.toLower == 'g' && b.toLower == 'b'
    let isHsl := r.toLower == 'h' && (g.toLower == 's' || g == 'ſ') && b.toLower == 'l'
    if isRgb || isHsl then
      match rest with
      | a :: after => if a.toLower = 'a' then some ([r, g, b, a], after) else some ([r, g, b], rest)
      | [] => some ([r, g, b], [])
    else none
  | _ => none

/-- A call of a colour function at the start of a text. -/
def colourCall? (s : Text) : Option Text := do
  let (name, rest) ← colourFunction? s
  match rest with
  | '(' :: arguments =>
    let (inside, _) ← Text.splitFirst? ')' arguments
    some (name ++ '(' :: inside ++ [')'])
  | _ => none

/-- A hexadecimal colour at the start of a text. -/
def hexColour? : Text → Option Text
  | '#' :: rest =>
    let digits := rest.takeWhile Text.isHexDigit
    let endsWord :=
      match rest.dropWhile Text.isHexDigit with
      | [] => true
      | c :: _ => !Text.isWord c
    if 3 ≤ digits.length && digits.length ≤ 8 && endsWord then some ('#' :: digits) else none
  | _ => none

/-- A colour at the start of a text. -/
def colour? (s : Text) : Option Text := (hexColour? s).or (colourCall? s)

/-- The colours of a text, after `skip` characters that belong to the colour before. -/
def colours (skip : Nat) : Text → List Text
  | [] => []
  | c :: rest =>
    match skip with
    | n + 1 => colours n rest
    | 0 =>
      match colour? (c :: rest) with
      | some colour => colour :: colours (colour.length - 1) rest
      | none => colours 0 rest

/-- The shape of a gradient and its colours, letters and digits only. -/
def gradientToken (value : Text) : Text :=
  let arguments := (Text.splitFirst? '(' value).elim [] Prod.snd
  (gradientShape? value).getD "gradient".toList ++
    (colours 0 arguments).flatMap Text.alphanumerics

end StyleLift.Value
