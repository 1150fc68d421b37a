import StyleLift.Stylesheet.Declaration

/-!
# Documents

A document is a source together with its declarations, some of which have been given a new
value.  Printing puts each new value in the place of the old one and leaves everything else of
the source as it is; comments that stood inside an old value follow the new one.
-/

namespace StyleLift.Stylesheet

/-- Why a source is not a stylesheet. -/
inductive Fault where
  /-- A comment, string or interpolation that starts in `line` never ends. -/
  | unterminated (what : Enclosure) (line : Nat)
  /-- A `}` in `line` closes nothing. -/
  | unexpectedClosing (line : Nat)
  /-- The source ends inside a block. -/
  | unclosedBlock (prelude : Text)
  deriving DecidableEq, Repr

/-- The word for what is left open. -/
def Enclosure.name : Enclosure → Text
  | .comment => "comment".toList
  | .string => "string".toList
  | .interpolation => "interpolation".toList

/-- The message of a fault. -/
def Fault.message : Fault → Text
  | .unterminated what line =>
    "unterminated ".toList ++ what.name ++ " at line ".toList ++ Text.decimal line
  | .unexpectedClosing line => "unexpected '\x7d' at line ".toList ++ Text.decimal line
  | .unclosedBlock prelude => "unclosed block '".toList ++ prelude ++ "'".toList

/-! ## Reading -/

/-- The declarations of a sequence of statements that starts at `offset` in line `line`, inside
the blocks with the preludes `blocks`, outermost first.  The first fault in the order of the
source is reported. -/
def declarations (dialect : Dialect) (offset line : Nat) (blocks : List Text) :
    List Statement → Except Fault (List Declaration)
  | [] => .ok []
  | s :: rest =>
    let found := (s.declaration? dialect offset line blocks).toList
    let next := offset + s.length + 1
    let stopLine := line + s.newlines
    match s.stop with
    | .opening => declarations dialect next stopLine (blocks ++ [s.prelude dialect]) rest
    | .separator => (found ++ ·) <$> declarations dialect next stopLine blocks rest
    | .closing =>
      if blocks.isEmpty then .error (.unexpectedClosing stopLine)
      else (found ++ ·) <$> declarations dialect next stopLine blocks.dropLast rest
    | .unterminated what => .error (.unterminated what stopLine)
    | .finish =>
      match blocks.getLast? with
      | some prelude => .error (.unclosedBlock prelude)
      | none => .ok found

/-- A declaration and the value it has been given, if any. -/
structure Entry where
  declaration : Declaration
  replacement : Option Text := none
  deriving DecidableEq, Repr

/-- A source, its declarations in order, and their new values. -/
structure Document where
  source : Text
  entries : List Entry
  deriving DecidableEq, Repr

namespace Document

/-- Reads a stylesheet. -/
def parse (dialect : Dialect) (source : Text) : Except Fault Document :=
  (declarations dialect 0 1 [] (Statement.ofTokens (tokens (.ofStatements dialect) 0 source))).map
    fun ds => ⟨source, ds.map fun d => { declaration := d }⟩

/-- The declarations in the order of the source. -/
def declarations (doc : Document) : List Declaration := doc.entries.map Entry.declaration

/-- Gives the declaration at `index` a new value.  An index past the end changes nothing. -/
def setValue (doc : Document) (index : Nat) (value : Text) : Document :=
  { doc with entries := doc.entries.modify index fun e => { e with replacement := some value } }

/-- Whether some declaration has been given a new value. -/
def isModified (doc : Document) : Bool := doc.entries.any fun e => e.replacement.isSome

/-! ## Printing -/

/-- A comment as it follows a new value: a line comment becomes a block comment, since more text
follows on its line. -/
def keptComment (comment : Text) : Text :=
  match Text.after? "//".toList comment with
  | some line => " /* ".toList ++ Text.trim line ++ " */".toList
  | none => ' ' :: comment

/-- The new value of a declaration, followed by the comments of the old one. -/
def replacementText (source : Text) (d : Declaration) (value : Text) : Text :=
  value ++ d.comments.flatMap fun span => keptComment (span.slice source)

/-- Prints `rest`, the source from `offset` on, with the new values of `entries`. -/
def splice (source : Text) (offset : Nat) (rest : Text) : List Entry → Text
  | [] => rest
  | e :: entries =>
    match e.replacement with
    | none => splice source offset rest entries
    | some value =>
      let span := e.declaration.span
      rest.take (span.start - offset) ++ replacementText source e.declaration value ++
        splice source span.stop (rest.drop (span.stop - offset)) entries

/-- The source with every new value in its place. -/
def render (doc : Document) : Text := splice doc.source 0 doc.source doc.entries

end Document

end StyleLift.Stylesheet
