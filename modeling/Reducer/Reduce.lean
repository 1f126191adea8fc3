/-
One reduction: the walk of a state along the effects of an action.

While an action is reduced, everything a callback may see is fixed: the action, the
state as it was dispatched, and the view of it.  Callbacks see the view even where
earlier effects have changed the tree; what those made is only the current value.
-/
import Reducer.Effect
import Reducer.Walk

namespace Reducer

/-- What is fixed during one reduction. -/
structure Pass where
  /-- The action that is reduced. -/
  action : Action
  /-- The state as it was dispatched. -/
  root : Node
  /-- The state as callbacks see it. -/
  view : Node

namespace Pass

/-- Whether a step leads to a child: an unmapped predicate sees the state, any other the view. -/
def leads (pass : Pass) : Step → Node → Seg → Bool
  | .literal name, _, seg => name == seg
  | .predicate test unmapped, value, seg =>
      test.holds pass.action (if unmapped then pass.root else pass.view) value seg

/-- Runs effects where the walk comes by. -/
def walker (pass : Pass) : Walker Build Effect where
  leads := pass.leads
  act path effect current := effect.run pass.action pass.view path current
  label := Build.fresh

/-- Rebuilds the root along the effects of its action. -/
def reduce (pass : Pass) (effects : Trie Effect) : Build Node :=
  pass.walker.walk effects pass.root

end Pass

end Reducer
