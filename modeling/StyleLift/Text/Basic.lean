/-!
# Text

All text of the library is a list of characters.  The readers in this project are recursive
functions on that list, a position is the number of characters before it, and a slice is a
`take` of a `drop`; `String` only appears where text enters or leaves the program.

This file holds the operations on text that know nothing about stylesheets: ASCII case, blanks,
splitting at a character, and searching.

Two notions of white space are used.  Trimming takes every character with the Unicode property
`White_Space`.  The question whether a removed comment has to leave a space behind looks only
at the five ASCII blanks, to which the vertical tab does not belong.
-/

namespace StyleLift

/-- A text is the list of its characters. -/
abbrev Text := List Char

namespace Text

/-! ## Case and character classes of ASCII -/

/-- ASCII letters in lower case; every other character as it is. -/
def lower (s : Text) : Text := s.map Char.toLower

/-- Equality up to the case of ASCII letters. -/
def sameIgnoringCase (s t : Text) : Bool := lower s == lower t

/-- The ASCII letters and digits of a text, in order. -/
def alphanumerics (s : Text) : Text := s.filter Char.isAlphanum

/-- Hexadecimal digits in either case. -/
def isHexDigit (c : Char) : Bool :=
  c.isDigit || ('a' ≤ c && c ≤ 'f') || ('A' ≤ c && c ≤ 'F')

/-- Decimal digits of a number, without leading zeros. -/
def decimal (n : Nat) : Text := Nat.toDigits 10 n

/-- The number of bytes of a text in UTF-8. -/
def byteLength : Text → Nat
  | [] => 0
  | c :: s => c.utf8Size + byteLength s

/-! ## Blank characters -/

/-- Characters with the Unicode property `White_Space`. -/
def isBlank (c : Char) : Bool :=
  let n := c.toNat
  (0x09 ≤ n && n ≤ 0x0D) || n == 0x20 || n == 0x85 || n == 0xA0 || n == 0x1680 ||
    (0x2000 ≤ n && n ≤ 0x200A) || n == 0x2028 || n == 0x2029 || n == 0x202F || n == 0x205F ||
    n == 0x3000

/-- Space, tab, newline, form feed and carriage return. -/
def isAsciiBlank (c : Char) : Bool :=
  c == ' ' || c == '\t' || c == '\n' || c == '\x0c' || c == '\r'

/-- Without leading blanks. -/
def trimStart (s : Text) : Text := s.dropWhile isBlank

/-- Without trailing blanks. -/
def trimEnd (s : Text) : Text := (s.reverse.dropWhile isBlank).reverse

/-- Without leading and trailing blanks. -/
def trim (s : Text) : Text := trimEnd (trimStart s)

/-- Nothing but blanks. -/
def isBlankText (s : Text) : Bool := s.all isBlank

/-! ## Taking text apart -/

/-- What follows `lead`, if the text starts with it. -/
def after? (lead s : Text) : Option Text :=
  match lead, s with
  | [], s => some s
  | _ :: _, [] => none
  | a :: lead, c :: s => if a = c then after? lead s else none

/-- What follows `lead` in a text that starts with it in some ASCII case; `lead` is lower case. -/
def afterIgnoringCase? (lead s : Text) : Option Text :=
  match lead, s with
  | [], s => some s
  | _ :: _, [] => none
  | a :: lead, c :: s => if a = c.toLower then afterIgnoringCase? lead s else none

/-- Whether `needle` occurs somewhere in the text. -/
def contains (needle : Text) : Text → Bool
  | [] => needle.isEmpty
  | c :: s => (after? needle (c :: s)).isSome || contains needle s

/-- The text before and after the first occurrence of `sep`. -/
def splitFirst? (sep : Char) : Text → Option (Text × Text)
  | [] => none
  | c :: s =>
    if c = sep then some ([], s)
    else (splitFirst? sep s).map fun (before, rest) => (c :: before, rest)

/-- The text before and after the last occurrence of `sep`. -/
def splitLast? (sep : Char) : Text → Option (Text × Text)
  | [] => none
  | c :: s =>
    match splitLast? sep s with
    | some (before, rest) => some (c :: before, rest)
    | none => if c = sep then some ([], s) else none

/-- The pieces between the occurrences of `sep`; there is always at least one piece. -/
def pieces (sep : Char) : Text → List Text
  | [] => [[]]
  | c :: s =>
    if c = sep then [] :: pieces sep s
    else
      match pieces sep s with
      | [] => [[c]]
      | piece :: rest => (c :: piece) :: rest

/-- Texts joined with `sep` between neighbours. -/
def joined (sep : Text) : List Text → Text
  | [] => []
  | [s] => s
  | s :: rest => s ++ sep ++ joined sep rest

/-- The text with every `old` exchanged for `new`. -/
def exchange (old new : Char) (s : Text) : Text :=
  s.map fun c => if c = old then new else c

/-! ## Order -/

/-- Lexicographic order by code point, which is also the order of the UTF-8 bytes. -/
def le : Text → Text → Bool
  | [], _ => true
  | _ :: _, [] => false
  | a :: s, b :: t => a < b || (a == b && le s t)

end Text

end StyleLift
