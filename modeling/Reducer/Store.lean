/-
A state with its history.

A store keeps the state, the actions that led to it, and the base they started from.
Reducing the history from the base gives the state again, so an earlier state can be
replayed, and old actions can be folded into the base.  An operation that is refused
leaves the store as it was.
-/
import Reducer.Changes
import Reducer.Registry.Basic

namespace Reducer

/-- A state, where it came from, and how. -/
structure Store where
  /-- What actions are reduced with. -/
  registry : Registry
  /-- The state before the history. -/
  base : Node
  /-- The state now. -/
  state : Node
  /-- The actions since the base, oldest first. -/
  history : List Action

/-- What applying actions did. -/
structure Applied where
  /-- How many actions were applied. -/
  count : Nat
  /-- The places that differ between the states before and after. -/
  changes : List Path

namespace Store

/-- A store over a registry, with no history. -/
def ofState (registry : Registry) (state : Node) : Store := ⟨registry, state, state, []⟩

/-- Reduces one action into the state. -/
def apply (store : Store) (action : Action) : Build (Store × Applied) := do
  let next ← store.registry.reduce store.state action
  return ({ store with state := next, history := store.history ++ [action] },
    ⟨1, store.state.changes next⟩)

/-- Builds an action by its type and applies it. -/
def applyNamed (store : Store) (type : String) (args : List Json) : Build (Store × Applied) := do
  let action ← liftM (store.registry.create type args)
  store.apply action

/-- Applies several actions, all of them or none. -/
def applyBatch (store : Store) (actions : List Action) : Build (Store × Applied) := do
  if actions.isEmpty then return (store, ⟨0, []⟩)
  let next ← store.registry.reduceAll store.state actions
  return ({ store with state := next, history := store.history ++ actions },
    ⟨actions.length, store.state.changes next⟩)

/-- The state after the action at `index` of the history. -/
def replayTo (store : Store) (index : Nat) : Build Node := do
  if store.history.length ≤ index then throw (.invalidReplay index store.history.length)
  store.registry.reduceAll store.base (store.history.take (index + 1))

/-- Forgets the history; replay starts from the state. -/
def clearHistory (store : Store) : Store :=
  { store with base := store.state, history := [] }

/-- Folds all but the last `keep` actions into the base, and says how many that were. -/
def prune (store : Store) (keep : Nat) : Build (Store × Nat) := do
  let count := store.history.length - keep
  if count = 0 then return (store, 0)
  let base ← store.registry.reduceAll store.base (store.history.take count)
  return ({ store with base, history := store.history.drop count }, count)

/-- The state as a scope sees it. -/
def groupView (store : Store) (group : Option String) : Build Node :=
  store.registry.groupView store.state group

/-- What the selectors of a scope make of the state. -/
def select (store : Store) (group : Option String) : Build (Table Node) :=
  store.registry.select store.state group

/-- Dispatching to a store applies the action; one that is refused changes nothing. -/
def dispatcher : Dispatcher (Store × Label) where
  dispatch action := fun (store, next) =>
    match (store.apply action).run next with
    | .ok ((store, _), next) => (.ok (), (store, next))
    | .error fault => (.error fault, (store, next))
  state := fun (store, _) => store.state

end Store

end Reducer
