import StyleLift.Text.Basic

/-!
# Paths

A path is a text, and two readings of it matter.  Its *components* are what the path means:
repeated and trailing separators and every `.` that is not the very first part are not
components, and `..` is a component that is never resolved.  Its *text* is what is printed and
handed to the disk, and the operations below cut it without normalising it: the parent of
`/p/x//y/./a.css` is `/p/x//y`.

Both readings go through the parts of the text between separators.  The first part is special:
it is empty exactly when the path is absolute or empty, and a `.` counts there.
-/

namespace StyleLift

/-- A path by its text. -/
structure Path where
  text : Text
  deriving DecidableEq, Repr

namespace Path

/-- A path from a literal. -/
def ofString (s : String) : Path := ⟨s.toList⟩

/-- What a path is made of. -/
inductive Component where
  /-- The leading separator of an absolute path. -/
  | root
  /-- A leading `.`. -/
  | here
  /-- A `..`. -/
  | up
  /-- Any other name. -/
  | name (text : Text)
  deriving DecidableEq, Repr

namespace Component

/-- The component that a part is. -/
def ofPart (part : Text) : Component :=
  if part = ['.'] then here else if part = ['.', '.'] then up else name part

/-- The text of a component that is a name. -/
def name? : Component → Option Text
  | name s => some s
  | _ => none

end Component

/-! ## Parts and components -/

/-- The first part of the text and the others. -/
def parts (p : Path) : Text × List Text :=
  match Text.pieces '/' p.text with
  | [] => ([], [])
  | first :: rest => (first, rest)

/-- Whether a part after the first is a component. -/
def counts (part : Text) : Bool := part != [] && part != ['.']

/-- Whether the path starts with a separator. -/
def isAbsolute (p : Path) : Bool := p.text.head? == some '/'

/-- The components in order. -/
def components (p : Path) : List Component :=
  let (first, rest) := p.parts
  let head :=
    if first != [] then [Component.ofPart first] else if rest != [] then [Component.root] else []
  head ++ (rest.filter counts).map Component.ofPart

/-- Equality of paths is equality of their components. -/
def same (p q : Path) : Bool := p.components == q.components

/-! ## Cutting the text -/

/-- Parts without those at the end that are no components. -/
def dropTrailing (rest : List Text) : List Text :=
  (rest.reverse.dropWhile fun part => !counts part).reverse

/-- The text whose first part is `first` and whose others are `rest`.  An absolute path without
further parts is the separator alone. -/
def ofParts (isRooted : Bool) (first : Text) (rest : List Text) : Path :=
  if rest.isEmpty && isRooted then ⟨['/']⟩ else ⟨Text.joined ['/'] (first :: rest)⟩

/-- The path without its last component, unless it has none or is only the root. -/
def parent? (p : Path) : Option Path :=
  let (first, rest) := p.parts
  match (dropTrailing rest).reverse with
  | [] => if first.isEmpty then none else some ⟨[]⟩
  | _ :: before => some (ofParts p.isAbsolute first (dropTrailing before.reverse))

/-- The last component, if it is a name. -/
def fileName? (p : Path) : Option Text := p.components.getLast?.bind Component.name?

/-- The last name up to its last dot; a dot at the start does not count. -/
def fileStem? (p : Path) : Option Text :=
  p.fileName?.map fun name =>
    match Text.splitLast? '.' name with
    | some (stem, _) => if stem.isEmpty then name else stem
    | none => name

/-- The last name after its last dot; a dot at the start does not count. -/
def extension? (p : Path) : Option Text :=
  p.fileName?.bind fun name =>
    match Text.splitLast? '.' name with
    | some (stem, extension) => if stem.isEmpty then none else some extension
    | none => none

/-- Appends a relative path with one separator in between; an absolute one replaces the path. -/
def join (p : Path) (other : Text) : Path :=
  if other.head? = some '/' then ⟨other⟩
  else if p.text.isEmpty || p.text.getLast? = some '/' then ⟨p.text ++ other⟩
  else ⟨p.text ++ '/' :: other⟩

/-- The path with another last name; if the last component is no name, the name is appended. -/
def withFileName (p : Path) (name : Text) : Path :=
  if p.fileName?.isSome then (p.parent?.getD p).join name else p.join name

/-- Parts after `n` of them that are components. -/
def dropComponents : Nat → List Text → List Text
  | 0, rest => rest
  | _ + 1, [] => []
  | n + 1, part :: rest =>
    if counts part then dropComponents n rest else dropComponents (n + 1) rest

/-- What follows `base`, if the components of the path start with those of `base`. -/
def relativeTo? (p base : Path) : Option Path :=
  let (first, rest) := p.parts
  match base.components with
  | [] => some (ofParts p.isAbsolute first (dropTrailing rest))
  | _ :: others =>
    if base.components.isPrefixOf p.components then
      let left := (dropComponents others.length rest).dropWhile fun part => !counts part
      some ⟨Text.joined ['/'] (dropTrailing left)⟩
    else none

/-- The path relative to `root` where that is possible, as it is shown: with every backslash as
a separator. -/
def shown (p root : Path) : Text :=
  Text.exchange '\\' '/' ((p.relativeTo? root).getD p).text

end Path

end StyleLift
