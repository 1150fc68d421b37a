import StyleLift.Json.Value

/-!
# Reading JSON by expectation

A reader takes a value of the kind it expects from the front of a text.  Reading goes from left
to right and stops at the first fault, and a fault is of one of three sorts: the text ends too
early, the text is not JSON, or it is JSON of another kind than the one expected.

A value of another kind is only looked at as far as needed to tell its kind: numbers, strings
and words are read whole, and a fault inside them comes first, while an array or object is
refused at its bracket.  A value that nobody asked for is skipped by rules of its own: neither
the size of numbers nor the pairing of surrogates matters there.
-/

namespace StyleLift.Json

/-- What is wrong with a JSON text. -/
inductive Fault where
  /-- It is not JSON. -/
  | malformed
  /-- It is JSON of another kind than expected, or names a field twice. -/
  | mismatched
  /-- It ends too early. -/
  | incomplete
  deriving DecidableEq, Repr

/-- The message of a fault. -/
def Fault.message : Fault → Text
  | .malformed => "json syntax error".toList
  | .mismatched => "json data error".toList
  | .incomplete => "json eof error".toList

/-- Takes a value from the front of a text. -/
abbrev Reader (α : Type) := Text → Except Fault (α × Text)

/-! ## Characters -/

/-- White space between the tokens of JSON. -/
def isSpace (c : Char) : Bool := c == ' ' || c == '\n' || c == '\t' || c == '\r'

/-- Without leading white space. -/
def skipSpace (s : Text) : Text := s.dropWhile isSpace

/-- The value of a hexadecimal digit. -/
def hexValue? (c : Char) : Option Nat :=
  if c.isDigit then some (c.toNat - '0'.toNat)
  else if 'a' ≤ c && c ≤ 'f' then some (c.toNat - 'a'.toNat + 10)
  else if 'A' ≤ c && c ≤ 'F' then some (c.toNat - 'A'.toNat + 10)
  else none

/-- The value of four hexadecimal digits. -/
def hexFour? (a b c d : Char) : Option Nat := do
  some ((((← hexValue? a) * 16 + (← hexValue? b)) * 16 + (← hexValue? c)) * 16 + (← hexValue? d))

/-- The fault of a text in which four hexadecimal digits are missing: it is too short if it has
fewer than four bytes. -/
def shortHex (s : Text) : Fault :=
  if s.byteLength < 4 then .incomplete else .malformed

/-- The character that a backslash and a letter stand for. -/
def simpleEscape? : Char → Option Char
  | '"' => some '"'
  | '\\' => some '\\'
  | '/' => some '/'
  | 'b' => some '\x08'
  | 'f' => some '\x0c'
  | 'n' => some '\n'
  | 'r' => some '\r'
  | 't' => some '\t'
  | _ => none

/-! ## Strings -/

/-- The first half of a surrogate pair. -/
def isLeadingSurrogate (n : Nat) : Bool := 0xD800 ≤ n && n ≤ 0xDBFF

/-- The second half of a surrogate pair. -/
def isTrailingSurrogate (n : Nat) : Bool := 0xDC00 ≤ n && n ≤ 0xDFFF

/-- The character of a surrogate pair. -/
def pairChar (leading trailing : Nat) : Char :=
  Char.ofNat ((leading - 0xD800) * 0x400 + (trailing - 0xDC00) + 0x10000)

/-- The fault of a text that does not go on with the second half of a surrogate pair. -/
def unpaired : Text → Fault
  | [] => .incomplete
  | ['\\'] => .incomplete
  | '\\' :: 'u' :: rest => shortHex rest
  | _ => .malformed

/-- Puts a character in front of a text that was read. -/
def prepend (c : Char) (r : Except Fault (Text × Text)) : Except Fault (Text × Text) :=
  r.map fun (s, rest) => (c :: s, rest)

/-- The rest of a string after its opening quote. -/
def stringBody : Reader Text
  | [] => .error .incomplete
  | '"' :: rest => .ok ([], rest)
  | '\\' :: 'u' :: a :: b :: c :: d :: rest =>
    match hexFour? a b c d with
    | none => .error .malformed
    | some n =>
      if isTrailingSurrogate n then .error .malformed
      else if isLeadingSurrogate n then
        match rest with
        | '\\' :: 'u' :: e :: f :: g :: h :: rest =>
          match hexFour? e f g h with
          | none => .error .malformed
          | some m =>
            if isTrailingSurrogate m then prepend (pairChar n m) (stringBody rest)
            else .error .malformed
        | rest => .error (unpaired rest)
      else prepend (Char.ofNat n) (stringBody rest)
  | '\\' :: 'u' :: rest => .error (shortHex rest)
  | '\\' :: c :: rest =>
    match simpleEscape? c with
    | some c => prepend c (stringBody rest)
    | none => .error .malformed
  | ['\\'] => .error .incomplete
  | c :: rest => if c.toNat < 0x20 then .error .malformed else prepend c (stringBody rest)

/-- What follows a string whose content does not matter, after its opening quote. -/
def skipString : Text → Except Fault Text
  | [] => .error .incomplete
  | '"' :: rest => .ok rest
  | '\\' :: 'u' :: a :: b :: c :: d :: rest =>
    if (hexFour? a b c d).isSome then skipString rest else .error .malformed
  | '\\' :: 'u' :: rest => .error (shortHex rest)
  | '\\' :: c :: rest => if (simpleEscape? c).isSome then skipString rest else .error .malformed
  | ['\\'] => .error .incomplete
  | c :: rest => if c.toNat < 0x20 then .error .malformed else skipString rest

/-! ## Words -/

/-- What follows `word`. -/
def word (expected : Text) (s : Text) : Except Fault Text :=
  match expected, s with
  | [], s => .ok s
  | _ :: _, [] => .error .incomplete
  | a :: expected, c :: s => if a = c then word expected s else .error .malformed

/-! ## Numbers

A number is kept as a significand below `2^64` and a decimal exponent.  Once the next digit does
not fit into the significand, further digits only count towards the exponent, or not at all
after the point.  The number is refused if the nearest double is infinite. -/

/-- The significand with one more digit, if it still fits. -/
def grow? (significand : Nat) (digit : Char) : Option Nat :=
  let next := significand * 10 + (digit.toNat - '0'.toNat)
  if next < Nat.pow 2 64 then some next else none

/-- The nearest number with 53 binary digits; of two, the one whose last digit is even. -/
def roundToDouble (n : Nat) : Nat :=
  let unit := Nat.pow 2 (n.log2 - 52)
  let below := n / unit
  let excess := 2 * (n % unit)
  if excess < unit || (excess == unit && below % 2 == 0) then below * unit else (below + 1) * unit

/-- Whether `significand · 10^exponent` is too large for a double. -/
def overflows (significand : Nat) (exponent : Int) : Bool :=
  if exponent < 0 || significand == 0 then false
  else if exponent > 308 then true
  else
    Nat.pow 2 1024 - Nat.pow 2 970 ≤
      roundToDouble significand * roundToDouble (Nat.pow 10 exponent.toNat)

/-- Accepts a number unless it is too large. -/
def checkRange (significand : Nat) (exponent : Int) : Except Fault Unit :=
  if overflows significand exponent then .error .malformed else .ok ()

/-- The digits of an exponent after `e` and its sign.  `none` means that the exponent does not fit
into 31 bits. -/
def exponentValue (digits : Text) : Option Nat :=
  digits.foldl (fun n c => n.bind fun n =>
    let next := n * 10 + (c.toNat - '0'.toNat)
    if next < Nat.pow 2 31 then some next else none) (some 0)

/-- Checks the rest of a number from its `e` on. -/
def checkExponent (significand : Nat) (start : Int) (s : Text) : Except Fault Unit :=
  let (negative, rest) :=
    match s with
    | '+' :: rest => (false, rest)
    | '-' :: rest => (true, rest)
    | rest => (false, rest)
  match rest with
  | [] => .error .incomplete
  | c :: _ =>
    if !c.isDigit then .error .malformed
    else
      match exponentValue (rest.takeWhile Char.isDigit) with
      | some n => checkRange significand (if negative then start - n else start + n)
      | none => if significand != 0 && !negative then .error .malformed else .ok ()

/-- Checks what may follow the digits of a number. -/
def checkAfterDigits (significand : Nat) (exponent : Int) : Text → Except Fault Unit
  | 'e' :: rest => checkExponent significand exponent rest
  | 'E' :: rest => checkExponent significand exponent rest
  | _ => checkRange significand exponent

/-- Checks the digits after the point, of which `seen` says whether there was one already. -/
def checkDecimals (significand : Nat) (exponent : Int) (seen : Bool) : Text → Except Fault Unit
  | [] => if seen then checkRange significand exponent else .error .incomplete
  | c :: rest =>
    if c.isDigit then
      match grow? significand c with
      | some next => checkDecimals next (exponent - 1) true rest
      | none => checkAfterDigits significand exponent (rest.dropWhile Char.isDigit)
    else if seen then checkAfterDigits significand exponent (c :: rest)
    else .error .malformed

/-- Checks the part of a number after its integer digits; `significand · 10^exponent` is their
value. -/
def checkFraction (significand : Nat) (exponent : Int) : Text → Except Fault Unit
  | '.' :: rest => checkDecimals significand exponent false rest
  | rest => checkAfterDigits significand exponent rest

/-- Checks the integer digits of a number and what follows. -/
def checkInteger (significand : Nat) : Text → Except Fault Unit
  | [] => .ok ()
  | c :: rest =>
    if c.isDigit then
      match grow? significand c with
      | some next => checkInteger next rest
      | none =>
        let extra := (c :: rest).takeWhile Char.isDigit
        checkFraction significand extra.length (rest.dropWhile Char.isDigit)
    else checkFraction significand 0 (c :: rest)

/-- Checks a number after its sign. -/
def checkNumber : Text → Except Fault Unit
  | [] => .error .incomplete
  | '0' :: rest =>
    match rest with
    | [] => .ok ()
    | c :: _ => if c.isDigit then .error .malformed else checkFraction 0 0 rest
  | c :: rest => if c.isDigit then checkInteger (c.toNat - '0'.toNat) rest else .error .malformed

/-- What follows the exponent of a number whose value does not matter. -/
def skipExponent (s : Text) : Except Fault Text :=
  let rest :=
    match s with
    | '+' :: rest => rest
    | '-' :: rest => rest
    | rest => rest
  match rest with
  | [] => .error .malformed
  | c :: rest => if c.isDigit then .ok (rest.dropWhile Char.isDigit) else .error .malformed

/-- What follows the digits of a number whose value does not matter. -/
def skipAfterDigits : Text → Except Fault Text
  | 'e' :: rest => skipExponent rest
  | 'E' :: rest => skipExponent rest
  | rest => .ok rest

/-- What follows a number whose value does not matter, after its sign. -/
def skipNumber (s : Text) : Except Fault Text :=
  let fraction : Text → Except Fault Text
    | '.' :: c :: rest =>
      if c.isDigit then skipAfterDigits (rest.dropWhile Char.isDigit) else .error .malformed
    | ['.'] => .error .malformed
    | rest => skipAfterDigits rest
  match s with
  | [] => .error .malformed
  | '0' :: c :: rest => if c.isDigit then .error .malformed else fraction (c :: rest)
  | ['0'] => .ok []
  | c :: rest =>
    if c.isDigit then fraction (rest.dropWhile Char.isDigit) else .error .malformed

/-! ## Values of another kind, and values that do not matter -/

/-- The fault of a value of another kind than expected, which starts the text. -/
def mismatch : Text → Fault
  | [] => .malformed
  | c :: rest =>
    let onceRead (r : Except Fault Unit) : Fault :=
      match r with
      | .error f => f
      | .ok _ => .mismatched
    match c with
    | 'n' => onceRead ((word "ull".toList rest).map fun _ => ())
    | 't' => onceRead ((word "rue".toList rest).map fun _ => ())
    | 'f' => onceRead ((word "alse".toList rest).map fun _ => ())
    | '-' => onceRead (checkNumber rest)
    | '"' => onceRead ((stringBody rest).map fun _ => ())
    | '[' => .mismatched
    | '{' => .mismatched
    | c => if c.isDigit then onceRead (checkNumber (c :: rest)) else .malformed

mutual

/-- What follows a value that does not matter.  The fuel bounds the number of steps. -/
def skipValue (fuel : Nat) (s : Text) : Except Fault Text :=
  match fuel with
  | 0 => .error .incomplete
  | fuel + 1 =>
    match skipSpace s with
    | [] => .error .incomplete
    | c :: rest =>
      match c with
      | 'n' => word "ull".toList rest
      | 't' => word "rue".toList rest
      | 'f' => word "alse".toList rest
      | '-' => skipNumber rest
      | '"' => skipString rest
      | '[' =>
        match skipSpace rest with
        | ']' :: rest => .ok rest
        | rest => skipItems fuel rest
      | '{' =>
        match skipSpace rest with
        | '}' :: rest => .ok rest
        | rest => skipMembers fuel rest
      | c => if c.isDigit then skipNumber (c :: rest) else .error .malformed

/-- What follows an array that goes on with an item. -/
def skipItems (fuel : Nat) (s : Text) : Except Fault Text :=
  match fuel with
  | 0 => .error .incomplete
  | fuel + 1 =>
    match skipValue fuel s with
    | .error f => .error f
    | .ok rest =>
      match skipSpace rest with
      | [] => .error .incomplete
      | ',' :: rest => skipItems fuel rest
      | ']' :: rest => .ok rest
      | _ => .error .malformed

/-- What follows an object that goes on with a member. -/
def skipMembers (fuel : Nat) (s : Text) : Except Fault Text :=
  match fuel with
  | 0 => .error .incomplete
  | fuel + 1 =>
    match skipSpace s with
    | [] => .error .incomplete
    | '"' :: rest =>
      match skipString rest with
      | .error f => .error f
      | .ok rest =>
        match skipSpace rest with
        | [] => .error .incomplete
        | ':' :: rest =>
          match skipValue fuel rest with
          | .error f => .error f
          | .ok rest =>
            match skipSpace rest with
            | [] => .error .incomplete
            | ',' :: rest => skipMembers fuel rest
            | '}' :: rest => .ok rest
            | _ => .error .malformed
        | _ => .error .malformed
    | _ => .error .malformed

end

/-- Skips a value. -/
def ignored : Reader Unit := fun s => (skipValue (2 * s.length + 2) s).map fun rest => ((), rest)

/-! ## Values of a given kind -/

/-- Reads a string. -/
def readString : Reader Text := fun s =>
  match skipSpace s with
  | [] => .error .incomplete
  | '"' :: rest => stringBody rest
  | rest => .error (mismatch rest)

/-- Reads a truth value. -/
def readTruth : Reader Bool := fun s =>
  match skipSpace s with
  | [] => .error .incomplete
  | 't' :: rest => (word "rue".toList rest).map fun rest => (true, rest)
  | 'f' :: rest => (word "alse".toList rest).map fun rest => (false, rest)
  | rest => .error (mismatch rest)

/-- Whether an array that has been read up to here has another item, and where that starts. -/
def nextItem (first : Bool) : Reader Bool := fun s =>
  match skipSpace s with
  | [] => .error .incomplete
  | ']' :: rest => .ok (false, ']' :: rest)
  | ',' :: rest =>
    if first then .ok (true, ',' :: rest)
    else
      match skipSpace rest with
      | [] => .error .incomplete
      | ']' :: _ => .error .malformed
      | rest => .ok (true, rest)
  | rest => if first then .ok (true, rest) else .error .malformed

/-- The end of an array that may have no further items. -/
def endItems (s : Text) : Except Fault Text :=
  match skipSpace s with
  | [] => .error .incomplete
  | ']' :: rest => .ok rest
  | _ => .error .malformed

/-- The next key of an object that has been read up to here, if there is one. -/
def nextKey (first : Bool) : Reader (Option Text) := fun s =>
  match skipSpace s with
  | [] => .error .incomplete
  | '}' :: rest => .ok (none, '}' :: rest)
  | '"' :: rest =>
    if first then (stringBody rest).map fun (key, rest) => (some key, rest)
    else .error .malformed
  | ',' :: rest =>
    if first then .error .malformed
    else
      match skipSpace rest with
      | [] => .error .incomplete
      | '"' :: rest => (stringBody rest).map fun (key, rest) => (some key, rest)
      | _ => .error .malformed
  | _ => .error .malformed

/-- The colon between a key and its value. -/
def colon (s : Text) : Except Fault Text :=
  match skipSpace s with
  | [] => .error .incomplete
  | ':' :: rest => .ok rest
  | _ => .error .malformed

/-- The end of an object. -/
def endMembers (s : Text) : Except Fault Text :=
  match skipSpace s with
  | [] => .error .incomplete
  | '}' :: rest => .ok rest
  | _ => .error .malformed

/-- The strings of an array up to its end.  The fuel bounds their number. -/
def stringItems (fuel : Nat) (first : Bool) (s : Text) : Except Fault (List Text × Text) :=
  match fuel with
  | 0 => .error .incomplete
  | fuel + 1 => do
    let (more, rest) ← nextItem first s
    if more then
      let (item, rest) ← readString rest
      let (items, rest) ← stringItems fuel false rest
      .ok (item :: items, rest)
    else
      .ok ([], rest)

/-- Reads an array of strings. -/
def readStrings : Reader (List Text) := fun s =>
  match skipSpace s with
  | [] => .error .incomplete
  | '[' :: rest => do
    let (items, rest) ← stringItems (rest.length + 1) true rest
    let rest ← endItems rest
    .ok (items, rest)
  | rest => .error (mismatch rest)

/-- The string members of an object up to its end, in order.  The fuel bounds their number. -/
def stringMembers (fuel : Nat) (first : Bool) (s : Text) :
    Except Fault (List (Text × Text) × Text) :=
  match fuel with
  | 0 => .error .incomplete
  | fuel + 1 => do
    match ← nextKey first s with
    | (none, rest) => .ok ([], rest)
    | (some key, rest) =>
      let rest ← colon rest
      let (value, rest) ← readString rest
      let (members, rest) ← stringMembers fuel false rest
      .ok ((key, value) :: members, rest)

/-- Reads an object whose members are strings. -/
def readStringObject : Reader (List (Text × Text)) := fun s =>
  match skipSpace s with
  | [] => .error .incomplete
  | '{' :: rest => do
    let (members, rest) ← stringMembers (rest.length + 1) true rest
    let rest ← endMembers rest
    .ok (members, rest)
  | rest => .error (mismatch rest)

/-- Runs a reader on a whole text: only white space may be left. -/
def whole {α : Type} (reader : Reader α) (s : Text) : Except Fault α := do
  let (value, rest) ← reader s
  if (skipSpace rest).isEmpty then .ok value else .error .malformed

end StyleLift.Json
