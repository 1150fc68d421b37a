import StyleLift.Naming.Scheme

/-!
# The name registry

The registry hands out names during one run.  A property and value that come again in a context
with the same base name get their name back.  Every other request gets a name that was never
handed out before: the base name if that is free, and otherwise the base name with the smallest
number that makes it free.

The search for that number is bounded: among one more candidates than there are names taken, one
is free.
-/

namespace StyleLift.Naming

/-- What a name was assigned for. -/
structure Key where
  property : Text
  value : Text
  base : Text
  deriving DecidableEq, Repr

/-- The names handed out so far. -/
structure Registry where
  /-- Every name handed out, latest first. -/
  taken : List Text := []
  /-- The names assigned by the default scheme, latest first. -/
  assigned : List (Key × Text) := []
  deriving DecidableEq, Repr

namespace Registry

/-- The `n`-th alternative to a base name. -/
def numbered (base : Text) (n : Nat) : Text := base ++ '-' :: Text.decimal n

/-- The first name, starting with `base` and then its numbered alternatives, that is not taken. -/
def nextFree (taken : List Text) (base : Text) : Text :=
  if !taken.contains base then base
  else
    (((List.range (taken.length + 1)).map fun n => numbered base (n + 1)).find?
      fun name => !taken.contains name).getD base

/-- Names a property and value by the default scheme. -/
def assign (registry : Registry) (property value : Text) (ctx : Context) : Text × Registry :=
  let key : Key := ⟨property, value, baseName ctx⟩
  match registry.assigned.lookup key with
  | some name => (name, registry)
  | none =>
    let name := nextFree registry.taken key.base
    (name, ⟨name :: registry.taken, (key, name) :: registry.assigned⟩)

/-- Names a property and value by a scheme of one's own, whose names are used as they are. -/
def assignWith (registry : Registry) (strategy : Strategy) (property value : Text)
    (ctx : Context) : Text × Registry :=
  let name := strategy property value ctx
  (name, { registry with taken := name :: registry.taken })

end Registry

end StyleLift.Naming
