/-
The registry.

A registry holds what was declared, by scope.  A scope is a named group or the
ungrouped root; in it a creator, a thunk and a selector have their bare names.  An
action type is the qualified name: the group, a dot, and the bare name, or the bare
name alone at the root.  By action type the registry keeps creators, redirects and
the trie of effects.
-/
import Reducer.Reaction
import Reducer.Reduce

namespace Reducer

/-- What one scope has registered, by bare name. -/
structure Scope where
  /-- What builds the actions of the scope. -/
  creators : Table Creator
  /-- The thunks of the scope. -/
  thunks : Table Thunk
  /-- The selectors of the scope. -/
  selectors : Table Selector
  /-- The redirects of the scope. -/
  redirects : Option Redirects

namespace Scope

/-- A scope with nothing in it. -/
def empty : Scope := ⟨[], [], [], none⟩

instance : Inhabited Scope := ⟨empty⟩

/-- Whether no name is registered. -/
def isEmpty (scope : Scope) : Bool :=
  scope.creators.isEmpty && scope.thunks.isEmpty && scope.selectors.isEmpty

end Scope

/-- Everything registered. -/
structure Registry where
  /-- Creators by action type. -/
  creators : Table Creator
  /-- The ungrouped scope. -/
  root : Scope
  /-- The groups, in the order they came. -/
  groups : Table Scope
  /-- Redirects by action type. -/
  redirects : Table Redirects
  /-- Effects by action type. -/
  tries : Table (Trie Effect)

namespace Registry

/-- A registry with nothing in it. -/
def empty : Registry := ⟨[], Scope.empty, [], [], []⟩

instance : Inhabited Registry := ⟨empty⟩

/-- Whether nothing is registered. -/
def isEmpty (registry : Registry) : Bool :=
  registry.creators.isEmpty && registry.root.isEmpty && registry.groups.isEmpty

/-- The action type of a bare name in a scope. -/
def qualify (group : Option String) (name : String) : String :=
  match group with
  | some group => group ++ "." ++ name
  | none => name

/-! ### Looking up -/

/-- The scope of a group; no group is the root. -/
def scope (registry : Registry) : Option String → Except Fault Scope
  | none => .ok registry.root
  | some group => match Table.get? registry.groups group with
    | some scope => .ok scope
    | none => .error (.unknownGroup group)

/-- The creator of an action type. -/
def creator? (registry : Registry) (type : String) : Option Creator :=
  Table.get? registry.creators type

/-- The creator of a bare name in a group. -/
def groupCreator? (registry : Registry) (group name : String) : Option Creator :=
  (Table.get? registry.groups group).bind fun scope => Table.get? scope.creators name

/-- The action of a type with the given arguments. -/
def create (registry : Registry) (type : String) (args : List Json) : Except Fault Action :=
  match registry.creator? type with
  | some creator => .ok (creator.create args)
  | none => .error (.unknownAction type)

/-- The redirects of an action type. -/
def redirects? (registry : Registry) (type : String) : Option Redirects :=
  Table.get? registry.redirects type

/-- The trie of an action type. -/
def trie? (registry : Registry) (type : String) : Option (Trie Effect) :=
  Table.get? registry.tries type

/-! ### Using -/

/-- The state after an action: the state itself if nothing answers to the action's type. -/
def reduce (registry : Registry) (state : Node) (action : Action) : Build Node :=
  match registry.trie? action.type with
  | none => pure state
  | some trie => do
      let view ← Redirects.view (registry.redirects? action.type) action state
      Pass.reduce ⟨action, state, view⟩ trie

/-- The state after several actions. -/
def reduceAll (registry : Registry) (state : Node) : List Action → Build Node
  | [] => pure state
  | action :: rest => do reduceAll registry (← registry.reduce state action) rest

/-- The view of a scope, while no action is dispatched. -/
def groupView (registry : Registry) (state : Node) (group : Option String) : Build Node := do
  let scope ← liftM (registry.scope group)
  Redirects.view scope.redirects Action.empty state

/-- The values of a scope's selectors over its view. -/
def evalSelectors (view : Node) : List (String × Selector) → Build (Table Node)
  | [] => pure []
  | (name, selector) :: rest => do
      let value ← Build.draft (selector view)
      return (name, value) :: (← evalSelectors view rest)

/-- What the selectors of a scope make of the state. -/
def select (registry : Registry) (state : Node) (group : Option String) : Build (Table Node) := do
  let scope ← liftM (registry.scope group)
  let view ← Redirects.view scope.redirects Action.empty state
  evalSelectors view scope.selectors

end Registry

end Reducer
