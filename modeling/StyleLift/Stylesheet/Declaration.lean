import StyleLift.Stylesheet.Uncommented
import StyleLift.Text.Word

/-!
# Declarations

A statement is what stands between two structural tokens.  It is a declaration when, after
leading blanks and comments, it is a property name, a colon and a value that is not empty.  The
value is taken without comments, without surrounding blanks and without trailing flags such as
`!important`.

The colon is the first one of the statement.  No quote or parenthesis can stand before it,
because a property name contains neither; at-rules are excluded for the same reason.  So a reader
that looks for the first colon outside strings and parentheses of a statement that is no at-rule
finds the same (`declaration?_eq_nameAndTail?`).
-/

namespace StyleLift.Stylesheet

/-- One declaration of a document. -/
structure Declaration where
  /-- The property as it is written. -/
  property : Text
  /-- The value without comments, surrounding blanks and trailing flags. -/
  value : Text
  /-- The line of the property, counted from one. -/
  line : Nat
  /-- The preludes of the blocks around it, outermost first. -/
  selectors : List Text
  /-- Where the value stands in the source. -/
  span : Span
  /-- The comments inside `span`. -/
  comments : List Span
  deriving DecidableEq, Repr

/-! ## Property names -/

/-- An identifier: a letter or underscore, then word characters and hyphens. -/
def isIdentifier : Text → Bool
  | [] => false
  | c :: rest => Text.isNameStart c && rest.all Text.isWordOrHyphen

/-- A preprocessor variable `$name`, or an identifier after at most two hyphens. -/
def isPropertyName : Text → Bool
  | '$' :: name => !name.isEmpty && name.all Text.isWordOrHyphen
  | '-' :: '-' :: name => isIdentifier name
  | '-' :: name => isIdentifier name
  | name => isIdentifier name

/-! ## Flags -/

/-- The words that may follow `!` at the end of a value. -/
def flagWords : List Text := ["important".toList, "default".toList, "global".toList]

/-- A reversed text without its last flag and the blanks around it, if it ends in one. -/
def dropFlag? (reversed : Text) : Option Text :=
  flagWords.findSome? fun word =>
    match Text.afterIgnoringCase? word.reverse (reversed.dropWhile Text.isBlank) with
    | none => none
    | some rest =>
      match rest.dropWhile Text.isBlank with
      | '!' :: before => some (before.dropWhile Text.isBlank)
      | _ => none

theorem length_le_of_afterIgnoringCase? {lead s rest : Text}
    (h : Text.afterIgnoringCase? lead s = some rest) : rest.length ≤ s.length := by
  fun_induction Text.afterIgnoringCase? lead s with
  | case1 => simp_all
  | case2 => simp at h
  | case3 => simp_all; omega
  | case4 => simp at h

theorem length_dropFlag?_lt {s rest : Text} (h : dropFlag? s = some rest) :
    rest.length < s.length := by
  obtain ⟨word, -, hword⟩ := List.exists_of_findSome?_eq_some h
  split at hword
  · simp at hword
  · rename_i tail htail
    split at hword
    · rename_i before hbefore
      have h₁ := length_le_of_afterIgnoringCase? htail
      have h₂ := (List.dropWhile_sublist Text.isBlank (l := s)).length_le
      have h₃ := (List.dropWhile_sublist Text.isBlank (l := tail)).length_le
      have h₄ := (List.dropWhile_sublist Text.isBlank (l := before)).length_le
      rw [hbefore, List.length_cons] at h₃
      simp only [Option.some.injEq] at hword
      subst hword
      omega
    · simp at hword

/-- A reversed text without any of its trailing flags. -/
def dropFlags (reversed : Text) : Text :=
  match _h : dropFlag? reversed with
  | some rest => dropFlags rest
  | none => reversed
termination_by reversed.length
decreasing_by exact length_dropFlag?_lt _h

/-- A value without trailing blanks and flags. -/
def withoutFlags (s : Text) : Text := (dropFlags (Text.trimEnd s).reverse).reverse

/-! ## Statements -/

/-- What ends a statement. -/
inductive Stop where
  | opening
  | closing
  | separator
  | unterminated (what : Enclosure)
  | finish
  deriving DecidableEq, Repr

/-- The stop that a token is, if it is one. -/
def Stop.ofToken? : Token → Option Stop
  | .opening => some .opening
  | .closing => some .closing
  | .separator => some .separator
  | .unterminated what _ => some (.unterminated what)
  | _ => none

/-- A stretch of tokens without structure, and what ends it. -/
structure Statement where
  body : List Token
  stop : Stop
  deriving DecidableEq, Repr

namespace Statement

/-- Puts a token in front of the first statement. -/
def cons (token : Token) : List Statement → List Statement
  | [] => []
  | s :: rest => ⟨token :: s.body, s.stop⟩ :: rest

/-- The statements of a sequence of tokens.  The last one ends with the source. -/
def ofTokens : List Token → List Statement
  | [] => [⟨[], .finish⟩]
  | token :: rest =>
    match Stop.ofToken? token with
    | some stop => ⟨[], stop⟩ :: ofTokens rest
    | none => cons token (ofTokens rest)

/-- The blanks and comments before a statement. -/
def lead (s : Statement) : Text := (s.body.takeWhile Token.isFiller).flatMap Token.text

/-- A statement without the blanks and comments before it. -/
def core (s : Statement) : Text := (s.body.dropWhile Token.isFiller).flatMap Token.text

/-- The number of characters before the stop. -/
def length (s : Statement) : Nat := s.lead.length + s.core.length

/-- The number of line ends before the stop. -/
def newlines (s : Statement) : Nat := s.lead.count '\n' + s.core.count '\n'

/-- The prelude of the block that the statement opens. -/
def prelude (dialect : Dialect) (s : Statement) : Text :=
  Text.trim (Uncommented.ofText dialect 0 s.core).text

/-- The declaration that a statement is, if it is one.  The statement starts at `offset` in line
`line`, inside the blocks `selectors`. -/
def declaration? (dialect : Dialect) (offset line : Nat) (selectors : List Text)
    (s : Statement) : Option Declaration := do
  let (name, tail) ← Text.splitFirst? ':' s.core
  let property := Text.trim name
  if !isPropertyName property then none else
  let raw := Uncommented.ofText dialect (offset + s.lead.length + name.length + 1) tail
  let kept := raw.kept.dropWhile fun p => Text.isBlank p.char
  let value := withoutFlags (Placed.text kept)
  let span ← Placed.span? (kept.take value.length)
  some {
    property, value, selectors, span
    line := line + s.lead.count '\n'
    comments := raw.comments.filter (·.within span) }

end Statement

end StyleLift.Stylesheet
