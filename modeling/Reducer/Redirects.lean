/-
Redirects and the view through them.

Redirects send properties of the root elsewhere: to the node that a slice leads to.
One set of declarations can so serve many instances of the same part of a state,
each registration through redirects of its own.

The view is the state as callbacks see it.  It has the properties of the root, in
their order, and at each redirected property what its slice leads to, or null where
that is nothing.  Every slice is resolved against the root and none against the
view, so the order of the redirects does not matter.
-/
import Reducer.Build
import Reducer.Slice

namespace Reducer

/-- Where each redirected property leads. -/
abbrev Redirects := Table Slice

namespace Redirects

/-- The same properties, in any order, each with an equal slice. -/
def eqv (a b : Redirects) : Bool :=
  Table.eqvBy (· == ·) a b

/-- Equal redirects or none on either side; none differs from an empty table. -/
def eqvOption : Option Redirects → Option Redirects → Bool
  | none, none => true
  | some a, some b => eqv a b
  | _, _ => false

/-- What the view shows at one property. -/
def shown (redirects : Redirects) (action : Action) (root : Node) (name : String) (value : Node) :
    Node :=
  match Table.get? redirects name with
  | some slice => (slice.resolve action root).getD .null
  | none => value

/-- The state as callbacks see it; without redirects, or without properties, the root itself. -/
def view (redirects : Option Redirects) (action : Action) (root : Node) : Build Node :=
  match redirects, root with
  | some redirects, .obj _ fields =>
      Build.obj (fields.map fun field => (field.1, redirects.shown action root field.1 field.2))
  | _, _ => pure root

end Redirects

end Reducer
