import StyleLift.Json.Reader

/-!
# Parsing JSON values

`Json.parse?` is the other direction of `Json.pretty`: it takes a value of any kind from a text,
keeps the members of an object in their order, and allows white space wherever JSON does.  The
numbers of this library are natural, so a sign, a point or an exponent is refused.
-/

namespace StyleLift.Json

/-! ## Numbers -/

/-- The number that decimal digits spell. -/
def ofDigits (digits : Text) : Nat :=
  digits.foldl (fun n c => n * 10 + (c.toNat - '0'.toNat)) 0

/-- Takes a number from the front of a text.  A zero stands alone, so that no number has two
spellings. -/
def takeNumber? : Text → Option (Nat × Text)
  | [] => none
  | c :: rest =>
    if c = '0' then some (0, rest)
    else if c.isDigit then
      some (ofDigits ((c :: rest).takeWhile Char.isDigit), (c :: rest).dropWhile Char.isDigit)
    else none

/-! ## Values -/

/-- Takes a string from the front of a text, with its quotes. -/
def takeString? : Text → Option (Text × Text)
  | '"' :: rest => (stringBody rest).toOption
  | _ => none

mutual

/-- Takes a value from the front of a text.  The fuel bounds the number of steps. -/
def takeValue? (fuel : Nat) (s : Text) : Option (Json × Text) :=
  match fuel with
  | 0 => none
  | fuel + 1 =>
    match skipSpace s with
    | [] => none
    | '"' :: rest => (takeString? ('"' :: rest)).map fun (s, rest) => (.string s, rest)
    | '[' :: rest =>
      match skipSpace rest with
      | ']' :: rest => some (.array [], rest)
      | rest => (takeItems? fuel rest).map fun (items, rest) => (.array items, rest)
    | '{' :: rest =>
      match skipSpace rest with
      | '}' :: rest => some (.object [], rest)
      | rest => (takeMembers? fuel rest).map fun (members, rest) => (.object members, rest)
    | 't' :: rest => (Text.after? "rue".toList rest).map fun rest => (.bool true, rest)
    | 'f' :: rest => (Text.after? "alse".toList rest).map fun rest => (.bool false, rest)
    | rest => (takeNumber? rest).map fun (n, rest) => (.number n, rest)

/-- Takes the items of an array up to its closing bracket; there is at least one. -/
def takeItems? (fuel : Nat) (s : Text) : Option (List Json × Text) :=
  match fuel with
  | 0 => none
  | fuel + 1 => do
    let (item, rest) ← takeValue? fuel s
    match skipSpace rest with
    | ',' :: rest =>
      let (items, rest) ← takeItems? fuel rest
      some (item :: items, rest)
    | ']' :: rest => some ([item], rest)
    | _ => none

/-- Takes the members of an object up to its closing brace; there is at least one. -/
def takeMembers? (fuel : Nat) (s : Text) : Option (List (Text × Json) × Text) :=
  match fuel with
  | 0 => none
  | fuel + 1 => do
    let (key, rest) ← takeString? (skipSpace s)
    match skipSpace rest with
    | ':' :: rest =>
      let (value, rest) ← takeValue? fuel rest
      match skipSpace rest with
      | ',' :: rest =>
        let (members, rest) ← takeMembers? fuel rest
        some ((key, value) :: members, rest)
      | '}' :: rest => some ([(key, value)], rest)
      | _ => none
    | _ => none

end

/-- The value that a text spells, with white space around it.  Every step but the one from an
item to its value takes a character, so twice the length of the text is enough fuel. -/
def parse? (s : Text) : Option Json := do
  let (value, rest) ← takeValue? (2 * s.length + 2) s
  if (skipSpace rest).isEmpty then some value else none

end StyleLift.Json
