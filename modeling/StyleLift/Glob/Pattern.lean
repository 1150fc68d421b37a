import StyleLift.Text.Basic

/-!
# Byte patterns

The regular expressions that globs are made of.  They are matched against the UTF-8 bytes of a
path, so that one `?` takes one byte.

A text of `n` bytes has `n + 1` places, and a set of places is a list of as many truth values.
Matching follows the pattern with the whole set at once: `reach p s from` are the places that `p`
can lead to from those in `from`.  So the work is the size of the pattern times the length of the
text, however the pattern is nested.

A pattern also has a written form and a depth, which is the number of levels of that form.
-/

namespace StyleLift.Glob

/-- A byte. -/
abbrev Byte := UInt8

/-- The separator of paths. -/
def slash : Byte := 0x2F

/-- A set of bytes: those in one of the ranges, or those in none of them. -/
structure ByteClass where
  negated : Bool
  ranges : List (Byte × Byte)
  deriving DecidableEq, Repr

namespace ByteClass

/-- All bytes. -/
def any : ByteClass := ⟨true, []⟩

/-- All bytes but the separator. -/
def inName : ByteClass := ⟨true, [(slash, slash)]⟩

/-- One byte alone. -/
def single (b : Byte) : ByteClass := ⟨false, [(b, b)]⟩

/-- Whether a byte belongs to the set. -/
def has (set : ByteClass) (b : Byte) : Bool :=
  set.negated != set.ranges.any fun (low, high) => low ≤ b && b ≤ high

end ByteClass

/-- A pattern of bytes. -/
inductive Pattern where
  /-- Nothing. -/
  | empty
  /-- One byte. -/
  | literal (b : Byte)
  /-- One byte or nothing. -/
  | optional (b : Byte)
  /-- One byte of a set. -/
  | one (set : ByteClass)
  /-- Any number of bytes of a set. -/
  | many (set : ByteClass)
  /-- One pattern after the other. -/
  | seq (first second : Pattern)
  /-- One pattern or the other. -/
  | either (first second : Pattern)
  /-- A pattern in parentheses. -/
  | group (inner : Pattern)
  deriving DecidableEq, Repr

/-! ## Matching -/

/-- A set of places of a text. -/
abbrev Marks := List Bool

namespace Marks

/-- The start of a text alone. -/
def start (s : List Byte) : Marks := true :: List.replicate s.length false

/-- The places that are in one of two sets. -/
def union (a b : Marks) : Marks := List.zipWith (· || ·) a b

/-- The places after a byte of `set` that follows a place of the marks.  `carry` says whether the
first place is one. -/
def step (set : ByteClass) (carry : Bool) : List Byte → Marks → Marks
  | b :: s, m :: marks => carry :: step set (m && set.has b) s marks
  | _, _ => [carry]

/-- The places after any number of bytes of `set` that follow a place of the marks. -/
def flood (set : ByteClass) (carry : Bool) : List Byte → Marks → Marks
  | b :: s, m :: marks => (carry || m) :: flood set ((carry || m) && set.has b) s marks
  | _, marks => [carry || marks.headD false]

end Marks

namespace Pattern

/-- The places that a pattern leads to from those in `from`. -/
def reach : Pattern → List Byte → Marks → Marks
  | empty, _, marks => marks
  | literal b, s, marks => marks.step (.single b) false s
  | optional b, s, marks => marks.union (marks.step (.single b) false s)
  | one set, s, marks => marks.step set false s
  | many set, s, marks => marks.flood set false s
  | seq p q, s, marks => q.reach s (p.reach s marks)
  | either p q, s, marks => (p.reach s marks).union (q.reach s marks)
  | group p, s, marks => p.reach s marks

/-- Whether the pattern takes the whole text. -/
def accepts (p : Pattern) (s : List Byte) : Bool := (p.reach s (.start s)).getLastD false

/-- The given bytes. -/
def literals (bytes : List Byte) : Pattern := bytes.foldr (fun b p => seq (literal b) p) empty

/-- One pattern after the other, for patterns that may be absent. -/
def andThen : Option Pattern → Option Pattern → Option Pattern
  | some p, some q => some (seq p q)
  | some p, none => some p
  | none, q => q

end Pattern

/-! ## Written form -/

/-- The characters that are written with a backslash. -/
def escapedChars : Text := "\\.+*?()|[]\x7b\x7d^$#&-~".toList

/-- A byte as it is written. -/
def byteText (b : Byte) : Text :=
  let c := Char.ofNat b.toNat
  if 0x80 ≤ b.toNat then
    ['\\', 'x', Nat.digitChar (b.toNat / 16), Nat.digitChar (b.toNat % 16)]
  else if escapedChars.any (· == c) then ['\\', c] else [c]

/-- A range of bytes as it is written. -/
def rangeText (range : Byte × Byte) : Text :=
  if range.1 = range.2 then byteText range.1 else byteText range.1 ++ '-' :: byteText range.2

/-- A set of bytes as it is written. -/
def ByteClass.text (set : ByteClass) : Text :=
  if set = .any then ['.']
  else '[' :: (if set.negated then ['^'] else []) ++ set.ranges.flatMap rangeText ++ [']']

/-- A pattern as it is written. -/
def Pattern.text : Pattern → Text
  | empty => []
  | literal b => byteText b
  | optional b => byteText b ++ ['?']
  | one set => set.text
  | many set => set.text ++ ['*']
  | seq p q => p.text ++ q.text
  | either p q => p.text ++ '|' :: q.text
  | group p => "(?:".toList ++ p.text ++ [')']

/-- The written form of a pattern that has to take a whole text of bytes. -/
def Pattern.wholeText (p : Pattern) : Text := "(?-u)^".toList ++ p.text ++ ['$']

/-! ## Depth

Of the written form, every pair of brackets or parentheses, every repetition, every sequence of
two or more items and every choice is a level; a set of two or more ranges has one more inside
its brackets. -/

/-- The levels of a set of bytes. -/
def ByteClass.depth (set : ByteClass) : Nat :=
  match set.ranges with
  | [] => 0
  | [_] => 1
  | _ => 2

namespace Pattern

/-- The number of items that a pattern adds to a sequence. -/
def items : Pattern → Nat
  | empty => 0
  | seq p q => p.items + q.items
  | _ => 1

/-- One level for a sequence of two or more items. -/
def sequenceLevel (p : Pattern) : Nat := if 2 ≤ p.items then 1 else 0

/-- One level for a choice. -/
def choiceLevel : Pattern → Nat
  | either _ _ => 1
  | _ => 0

/-- The levels of the deepest item of a sequence, or of the deepest alternative of a choice. -/
def depth : Pattern → Nat
  | empty => 0
  | literal _ => 0
  | optional _ => 1
  | one set => set.depth
  | many set => set.depth + 1
  | seq p q => max p.depth q.depth
  | either p q => max (p.depth + p.sequenceLevel) (q.depth + q.sequenceLevel)
  | group p => p.depth + p.sequenceLevel + p.choiceLevel + 1

/-- The levels of the written form of a pattern that has to take a whole text: its ends make it a
sequence. -/
def wholeDepth (p : Pattern) : Nat := p.depth + 1

end Pattern

end StyleLift.Glob
