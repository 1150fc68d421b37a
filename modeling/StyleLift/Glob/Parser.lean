import StyleLift.Glob.Pattern

/-!
# Globs

A glob is written with `?` for one byte of a name, `*` for any number of them, `[…]` for a set,
`{…,…}` for alternatives and a backslash before a literal character.  `**` between separators
stands for any folders: at the start, in the middle and at the end it takes the separators next
to it along, so that `**/a` also matches `a`.  A `**` elsewhere is two stars.

Reading a glob goes from left to right with the pieces of the current alternative and, for each
open brace, the pieces before it and the alternatives already complete.
-/

namespace StyleLift

/-- How the paths that a glob matches are found. -/
inductive Glob.Lookup where
  /-- The path, its start or its end is compared with a text. -/
  | path
  /-- The last name of the path, or its extension, is compared with a text. -/
  | name
  /-- The pattern is tried on paths whose last name has a certain extension. -/
  | ending
  /-- The pattern is tried; after any folders it is about one name. -/
  | namePattern
  /-- The pattern is tried; it is about the whole path. -/
  | pattern
  deriving DecidableEq, Repr

/-- A glob with its text. -/
structure Glob where
  source : Text
  pattern : Glob.Pattern
  lookup : Glob.Lookup
  deriving DecidableEq, Repr

namespace Glob

/-- What is wrong with a glob. -/
inductive Fault where
  /-- It ends in a backslash. -/
  | danglingEscape
  /-- The bounds of a range are in the wrong order. -/
  | invalidRange (low high : Char)
  /-- A set has no end. -/
  | unclosedSet
  /-- A closing brace has no opening one. -/
  | unopenedChoice
  /-- An opening brace has no closing one. -/
  | unclosedChoice
  deriving DecidableEq, Repr

/-- The message of a fault. -/
def Fault.message : Fault → Text
  | .danglingEscape => "dangling '\\'".toList
  | .invalidRange low high =>
    "invalid range; '".toList ++ [low] ++ "' > '".toList ++ [high] ++ "'".toList
  | .unclosedSet => "unclosed character class; missing ']'".toList
  | .unopenedChoice =>
    "unopened alternate group; missing '\x7b' (maybe escape '\x7d' with '[\x7d]'?)".toList
  | .unclosedChoice =>
    "unclosed alternate group; missing '\x7d' (maybe escape '\x7b' with '[\x7b]'?)".toList

/-! ## Pieces -/

/-- The pieces that a glob is made of. -/
inductive Piece where
  | literal (c : Char)
  /-- `?` -/
  | one
  /-- `*` -/
  | many
  | set (negated : Bool) (ranges : List (Char × Char))
  /-- The alternatives of a pair of braces; nothing if all of them are empty. -/
  | choice (pattern : Option Pattern)
  /-- `**` with the separator after it, at the start. -/
  | leadingFolders
  /-- `**` with the separators around it. -/
  | innerFolders
  /-- `**` with the separator before it, at the end. -/
  | trailingFolders
  deriving DecidableEq, Repr

/-- The bytes of a character. -/
def bytesOf (c : Char) : List Byte := String.utf8EncodeChar c

/-- The bytes of a text. -/
def utf8 (s : Text) : List Byte := s.flatMap bytesOf

/-- The byte ranges of a character range: only the last byte of the lower bound and the first
byte of the upper bound are joined. -/
def byteRanges (range : Char × Char) : List (Byte × Byte) :=
  let (low, high) := range
  let singles := List.map fun (b : Byte) => (b, b)
  if low = high then singles (bytesOf low)
  else
    match (bytesOf low).reverse, bytesOf high with
    | last :: before, first :: after =>
      singles before.reverse ++ (last, first) :: singles after
    | _, _ => []

namespace Piece

/-- The separator as a pattern. -/
def separator : Pattern := .literal slash

/-- Anything. -/
def anything : Pattern := .many .any

/-- The bytes that a set of characters takes one of. -/
def byteClass (negated : Bool) (ranges : List (Char × Char)) : ByteClass :=
  ⟨negated, ranges.flatMap byteRanges⟩

/-- The pattern of a piece, if it is not nothing. -/
def pattern? : Piece → Option Pattern
  | literal c => some (.literals (bytesOf c))
  | one => some (.one .inName)
  | many => some (.many .inName)
  | set negated ranges => some (.one (byteClass negated ranges))
  | choice pattern => pattern
  | leadingFolders => some (.group (.either (.optional slash) (.seq anything separator)))
  | innerFolders => some (.group (.either separator (.seq separator (.seq anything separator))))
  | trailingFolders => some (.seq separator anything)

/-- The pattern of some pieces, the last of which comes first, if it is not nothing. -/
def patternOf? (reversed : List Piece) : Option Pattern :=
  reversed.foldl (fun rest piece => Pattern.andThen piece.pattern? rest) none

/-- The pattern of some alternatives, if one is not nothing. -/
def choiceOf (alternatives : List (Option Pattern)) : Option Pattern :=
  let either : Option Pattern → Option Pattern → Option Pattern
    | some p, some q => some (.either p q)
    | some p, none => some p
    | none, rest => rest
  (alternatives.foldr either none).map .group

/-- The character that a piece stands for, if it is just one. -/
def literal? : Piece → Option Char
  | literal c => some c
  | _ => none

/-- The text that pieces stand for, if it is just one. -/
def text? (pieces : List Piece) : Option Text := pieces.mapM literal?

/-- Whether the pieces stand for one text, which is not empty and has none of `excluded`. -/
def isTextWithout (excluded : Text) (pieces : List Piece) : Bool :=
  match text? pieces with
  | some s => !s.isEmpty && s.all fun c => !excluded.any (· == c)
  | none => false

/-- Any folders and then a name: `**/name`, or all names with an extension: `**/*.ext`. -/
def isName : List Piece → Bool
  | .leadingFolders :: .many :: .literal '.' :: rest =>
    rest.isEmpty || isTextWithout ['.', '/'] rest
  | .leadingFolders :: rest => isTextWithout ['/'] rest
  | _ => false

/-- A path, any folders and then a path, or a path and what is below it. -/
def isPath : List Piece → Bool
  | .leadingFolders :: rest => isTextWithout [] rest
  | pieces =>
    isTextWithout [] pieces ||
      (pieces.getLast? == some .trailingFolders && (text? pieces.dropLast).isSome)

/-- Whether pieces, the last of which comes first, end in a literal extension. -/
def hasEnding : List Piece → Bool
  | .literal c :: rest => c == '.' || (c != '/' && hasEnding rest)
  | _ => false

/-- Whether a piece takes no separator; alternatives are not looked into. -/
def staysInName : Piece → Bool
  | literal c => c != '/'
  | one => true
  | many => true
  | set negated ranges => !(byteClass negated ranges).has slash
  | _ => false

/-- Any folders and then pieces of one name: `**/a*`. -/
def isNamePattern : List Piece → Bool
  | .leadingFolders :: rest => !rest.isEmpty && rest.all staysInName
  | _ => false

/-- How the paths that some pieces match are found; the last piece comes first. -/
def lookup (reversed : List Piece) : Lookup :=
  let pieces := reversed.reverse
  if isName pieces then .name
  else if isPath pieces then .path
  else if hasEnding reversed then .ending
  else if isNamePattern pieces then .namePattern
  else .pattern

end Piece

/-! ## Sets -/

/-- How far a set has been read. -/
structure SetState where
  /-- Nothing has been read yet. -/
  first : Bool := true
  /-- The last character was a hyphen after the start of a range. -/
  inRange : Bool := false
  /-- The ranges so far, the last one first. -/
  ranges : List (Char × Char) := []

/-- Adds a member, or ends the range that a hyphen started. -/
def SetState.add (state : SetState) (c : Char) : Except Fault SetState :=
  match state.inRange, state.ranges with
  | true, (low, _) :: before =>
    if c < low then .error (.invalidRange low c)
    else .ok { first := false, ranges := (low, c) :: before }
  | _, ranges => .ok { first := false, ranges := (c, c) :: ranges }

/-- The ranges of a set from the current place on, and what follows its end. -/
def readSet (state : SetState) : Text → Except Fault (List (Char × Char) × Text)
  | [] => .error .unclosedSet
  | c :: rest =>
    if c = ']' && !state.first then
      let ranges := if state.inRange then ('-', '-') :: state.ranges else state.ranges
      .ok (ranges.reverse, rest)
    else if c = '-' && !state.first && !state.inRange then
      readSet { state with inRange := true } rest
    else
      match state.add c with
      | .error f => .error f
      | .ok state => readSet state rest

/-- A set after its opening bracket. -/
def readSetPiece (s : Text) : Except Fault (Piece × Text) :=
  let (negated, body) :=
    match s with
    | '!' :: body => (true, body)
    | '^' :: body => (true, body)
    | body => (false, body)
  (readSet {} body).map fun (ranges, rest) => (.set negated ranges, rest)

theorem length_of_readSet {state : SetState} {s rest : Text} {ranges : List (Char × Char)}
    (h : readSet state s = .ok (ranges, rest)) : rest.length < s.length := by
  fun_induction readSet state s with
  | case1 => simp at h
  | case2 => simp_all
  | case3 _ _ _ _ _ ih =>
    have := ih h
    simp only [List.length_cons]
    omega
  | case4 => simp at h
  | case5 _ _ _ _ _ _ _ ih =>
    have := ih h
    simp only [List.length_cons]
    omega

theorem length_of_readSetPiece {s rest : Text} {piece : Piece}
    (h : readSetPiece s = .ok (piece, rest)) : rest.length < s.length := by
  unfold readSetPiece at h
  split at h
  rename_i negated body hbody
  have hle : body.length ≤ s.length := by
    split at hbody <;> simp_all
  cases hset : readSet {} body with
  | error f => simp [hset, Except.map] at h
  | ok r =>
    obtain ⟨ranges, after⟩ := r
    have := length_of_readSet hset
    simp only [hset, Except.map, Except.ok.injEq, Prod.mk.injEq] at h
    obtain ⟨-, rfl⟩ := h
    omega

/-! ## Globs -/

/-- What surrounds the alternative that is being read. -/
structure Enclosing where
  /-- The pieces before the opening brace, the last one first. -/
  before : List Piece
  /-- The complete alternatives, the last one first. -/
  complete : List (Option Pattern)

/-- How far a glob has been read. -/
structure State where
  /-- The last character. -/
  previous : Option Char := none
  /-- The pieces of the current alternative, the last one first. -/
  pieces : List Piece := []
  /-- The open braces, the innermost first. -/
  enclosing : List Enclosing := []

namespace State

/-- Adds a piece that ends with the character `c`. -/
def push (state : State) (c : Char) (piece : Piece) : State :=
  { state with previous := some c, pieces := piece :: state.pieces }

/-- Whether the pieces may go on with folders: only after a separator, or, inside braces, after
what starts an alternative. -/
def allowsFolders (state : State) : Bool :=
  state.previous == some '/' ||
    (!state.enclosing.isEmpty && (state.previous == some ',' || state.previous == some '{'))

/-- Adds two stars that are no folders. -/
def pushStars (state : State) : State := (state.push '*' .many).push '*' .many

/-- Exchanges the last piece for `piece`, unless it already stands for folders at one end. -/
def replaceLast (state : State) (c : Char) (piece : Piece) : State :=
  let pieces :=
    match state.pieces with
    | [] => [piece]
    | .leadingFolders :: before => .leadingFolders :: before
    | .trailingFolders :: before => .trailingFolders :: before
    | _ :: before => piece :: before
  { state with previous := some c, pieces }

/-- Adds `**` that is followed by `rest`, and says what is left to read. -/
def pushFolders (state : State) (rest : Text) : State × Text :=
  if state.pieces.isEmpty then
    match rest with
    | [] => (state.push '*' .leadingFolders, [])
    | '/' :: rest => (state.push '/' .leadingFolders, rest)
    | rest => (state.pushStars, rest)
  else if !state.allowsFolders then (state.pushStars, rest)
  else
    match rest with
    | [] => (state.replaceLast '*' .trailingFolders, [])
    | '/' :: rest => (state.replaceLast '/' .innerFolders, rest)
    | c :: rest =>
      if !state.enclosing.isEmpty && (c = ',' || c = '}') then
        (state.replaceLast '*' .trailingFolders, c :: rest)
      else (state.pushStars, c :: rest)

/-- Starts the alternatives of a brace. -/
def openChoice (state : State) : State :=
  { previous := some '{', pieces := [], enclosing := ⟨state.pieces, []⟩ :: state.enclosing }

/-- Starts the next alternative, or adds a comma outside of braces. -/
def comma (state : State) : State :=
  match state.enclosing with
  | [] => state.push ',' (.literal ',')
  | inner :: outer =>
    { previous := some ',', pieces := []
      enclosing := { inner with complete := Piece.patternOf? state.pieces :: inner.complete } ::
        outer }

/-- Ends the alternatives of a brace. -/
def closeChoice (state : State) : Except Fault State :=
  match state.enclosing with
  | [] => .error .unopenedChoice
  | inner :: outer =>
    let alternatives := (Piece.patternOf? state.pieces :: inner.complete).reverse
    .ok { previous := some '}', pieces := .choice (Piece.choiceOf alternatives) :: inner.before
          enclosing := outer }

end State

theorem length_pushFolders_le (state : State) (rest : Text) :
    (state.pushFolders rest).2.length ≤ rest.length := by
  unfold State.pushFolders
  split
  · split <;> simp
  · split
    · simp
    · split
      · simp
      · simp
      · split <;> simp

/-- Reads the rest of a glob. -/
def readPieces (state : State) (s : Text) : Except Fault State :=
  match s with
  | [] => .ok state
  | '*' :: '*' :: rest =>
    let step := state.pushFolders rest
    have := length_pushFolders_le state rest
    readPieces step.1 step.2
  | '*' :: rest => readPieces (state.push '*' .many) rest
  | '?' :: rest => readPieces (state.push '?' .one) rest
  | '[' :: rest =>
    match h : readSetPiece rest with
    | .error f => .error f
    | .ok (piece, after) =>
      have := length_of_readSetPiece h
      readPieces (state.push ']' piece) after
  | '{' :: rest => readPieces state.openChoice rest
  | '}' :: rest =>
    match state.closeChoice with
    | .error f => .error f
    | .ok state => readPieces state rest
  | ',' :: rest => readPieces state.comma rest
  | ['\\'] => .error .danglingEscape
  | '\\' :: c :: rest => readPieces (state.push c (.literal c)) rest
  | c :: rest => readPieces (state.push c (.literal c)) rest
termination_by s.length
decreasing_by
  all_goals simp only [List.length_cons]
  all_goals omega

/-- The pattern of a whole glob: one that is only `**` matches everything. -/
def patternOfPieces (reversed : List Piece) : Pattern :=
  match reversed with
  | [.leadingFolders] => Piece.anything
  | pieces => (Piece.patternOf? pieces).getD .empty

/-- Reads a glob. -/
def parse (source : Text) : Except Fault Glob :=
  match readPieces {} source with
  | .error f => .error f
  | .ok state =>
    if state.enclosing.isEmpty then
      .ok ⟨source, patternOfPieces state.pieces, Piece.lookup state.pieces⟩
    else .error .unclosedChoice

/-- What follows the last separator of a path. -/
def lastName (path : Text) : Text :=
  match Text.splitLast? '/' path with
  | some (_, name) => name
  | none => path

/-- Whether the lookup of a glob finds a path.  `..` is no name and has no extension. -/
def Lookup.finds (lookup : Lookup) (path : Text) : Bool :=
  match lookup with
  | .name => lastName path != ['.', '.']
  | .ending => lastName path != ['.', '.']
  | _ => true

/-- Whether a glob matches a path. -/
def accepts (glob : Glob) (path : Text) : Bool :=
  glob.lookup.finds path && glob.pattern.accepts (utf8 path)

/-- A glob that cannot be read, and why. -/
structure Invalid where
  source : Text
  fault : Fault
  deriving DecidableEq, Repr

/-- The message for a glob that cannot be read. -/
def Invalid.message (e : Invalid) : Text :=
  "Invalid glob pattern: \"".toList ++ e.source ++ "\": error parsing glob '".toList ++ e.source ++
    "': ".toList ++ e.fault.message

/-- Reads a glob and keeps its text in an error. -/
def compile (source : Text) : Except Invalid Glob :=
  (parse source).mapError fun fault => ⟨source, fault⟩

/-- Reads several globs; the first that cannot be read is reported. -/
def compileAll : List Text → Except Invalid (List Glob)
  | [] => .ok []
  | source :: rest => do
    let glob ← compile source
    let globs ← compileAll rest
    .ok (glob :: globs)

/-! ## Sets of globs -/

/-- The greatest depth of a pattern that is tried. -/
def maxDepth : Nat := 250

/-- Whether the pattern of a glob is too deep to be tried. -/
def isTooDeep (glob : Glob) : Bool := maxDepth < glob.pattern.wholeDepth

/-- Why a set of globs cannot be used. -/
inductive Refusal where
  /-- One of them cannot be read. -/
  | invalid (cause : Invalid)
  /-- The pattern of a glob with an extension is too deep. -/
  | deepEnding (pattern : Pattern)
  /-- The pattern with this number, among those about whole paths, is too deep. -/
  | deep (index : Nat)
  deriving DecidableEq, Repr

/-- The message for a set that cannot be used. -/
def Refusal.message : Refusal → Text
  | .invalid cause => cause.message
  | .deepEnding pattern =>
    "Failed to build glob set: error parsing glob '".toList ++ pattern.wholeText ++
      "': error parsing pattern 0".toList
  | .deep index =>
    "Failed to build glob set: error parsing pattern ".toList ++ Text.decimal index

/-- Why globs that can be read cannot be used together: those with an extension come first.  A
pattern about one name has no alternatives and so is never too deep. -/
def refusal? (globs : List Glob) : Option Refusal :=
  match globs.find? fun glob => glob.lookup == .ending && glob.isTooDeep with
  | some glob => some (.deepEnding glob.pattern)
  | none =>
    ((globs.filter fun glob => glob.lookup == .pattern).findIdx? isTooDeep).map .deep

/-- Reads globs that are to be used together. -/
def compileSet (sources : List Text) : Except Refusal (List Glob) := do
  let globs ← (compileAll sources).mapError .invalid
  match refusal? globs with
  | some refusal => .error refusal
  | none => .ok globs

/-- Whether one of several globs matches a path. -/
def anyAccepts (globs : List Glob) (path : Text) : Bool := globs.any fun glob => glob.accepts path

end Glob

end StyleLift
