/-
Declarations: what is registered together.

A declaration gives a name to a reaction, a selector or a thunk.  A reaction says
what payload its actions have and what they do to which slices; either may be left
out here, and registration then refuses it.  A selector computes a value from the
view of its scope.
-/
import Reducer.Effect
import Reducer.Program

namespace Reducer

/-- An action's payload together with what the action changes. -/
structure Reaction where
  /-- The payload of the arguments. -/
  payload : Option PayloadOf
  /-- What happens where, in order. -/
  effects : List SliceEffect

/-- Computes a value from a view. -/
abbrev Selector := Node → Draft

/-- What a name stands for. -/
inductive Entry
  | reaction (reaction : Reaction)
  | selector (selector : Selector)
  | thunk (thunk : Thunk)

/-- Named entries in the order they are declared. -/
abbrev Declarations := Table Entry

end Reducer
