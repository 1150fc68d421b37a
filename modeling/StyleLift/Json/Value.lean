import StyleLift.Text.Basic

/-!
# JSON values and their text

The values that this program writes: members of an object keep the order in which they are
given, and numbers are natural.  The text is indented by two spaces, with one item or member per
line; an empty array or object is written without a line break.
-/

namespace StyleLift

/-- A JSON value. -/
inductive Json where
  | bool (value : Bool)
  | number (value : Nat)
  | string (value : Text)
  | array (items : List Json)
  | object (members : List (Text × Json))

namespace Json

/-! ## Strings -/

/-- The hexadecimal digit of a number below sixteen. -/
def hexDigit (n : Nat) : Char := Nat.digitChar n

/-- A character inside a string: quotes, backslashes and control characters are escaped. -/
def escapeChar (c : Char) : Text :=
  match c with
  | '"' => ['\\', '"']
  | '\\' => ['\\', '\\']
  | '\x08' => ['\\', 'b']
  | '\x0c' => ['\\', 'f']
  | '\n' => ['\\', 'n']
  | '\r' => ['\\', 'r']
  | '\t' => ['\\', 't']
  | c =>
    if c.toNat < 0x20 then
      ['\\', 'u', '0', '0', hexDigit (c.toNat / 16), hexDigit (c.toNat % 16)]
    else [c]

/-- A string with its quotes. -/
def quote (s : Text) : Text := '"' :: s.flatMap escapeChar ++ ['"']

/-! ## Values -/

/-- A line break followed by `depth` levels of indentation. -/
def newline (depth : Nat) : Text := '\n' :: List.replicate (2 * depth) ' '

mutual

/-- The text of a value that stands at indentation `depth`. -/
def render (depth : Nat) : Json → Text
  | .bool true => "true".toList
  | .bool false => "false".toList
  | .number n => Text.decimal n
  | .string s => quote s
  | .array [] => "[]".toList
  | .array (item :: rest) =>
    '[' :: newline (depth + 1) ++ render (depth + 1) item ++ renderItems (depth + 1) rest ++
      newline depth ++ [']']
  | .object [] => "\x7b\x7d".toList
  | .object (member :: rest) =>
    '{' :: newline (depth + 1) ++ renderMember (depth + 1) member ++
      renderMembers (depth + 1) rest ++ newline depth ++ ['}']

/-- The items of an array after the first. -/
def renderItems (depth : Nat) : List Json → Text
  | [] => []
  | item :: rest => ',' :: newline depth ++ render depth item ++ renderItems depth rest

/-- One member of an object. -/
def renderMember (depth : Nat) : Text × Json → Text
  | (key, value) => quote key ++ ": ".toList ++ render depth value

/-- The members of an object after the first. -/
def renderMembers (depth : Nat) : List (Text × Json) → Text
  | [] => []
  | member :: rest => ',' :: newline depth ++ renderMember depth member ++ renderMembers depth rest

end

/-- The text of a value on its own. -/
def pretty (value : Json) : Text := render 0 value

end Json

end StyleLift
