/-
Binding names to a dispatcher.

A caller first takes what a scope can do, then says where actions go, and last, once
it knows them, which props go with every invocation.  Invoking a name dispatches the
one action its creator builds; if no creator has the name, the thunk of that name is
run.  A creator so hides a thunk.
-/
import Reducer.Registry.Basic

namespace Reducer

/-- What can be invoked by name. -/
structure Bindings where
  /-- The creators, by bare name. -/
  creators : Table Creator
  /-- The thunks, by bare name. -/
  thunks : Table Thunk

namespace Bindings

/-- The names, creators first. -/
def names (bindings : Bindings) : List String :=
  Table.keys bindings.creators ++ Table.keys bindings.thunks

/-- Whether a name can be invoked. -/
def has (bindings : Bindings) (name : String) : Bool :=
  Table.has bindings.creators name || Table.has bindings.thunks name

/-- What invoking a name does. -/
def program (bindings : Bindings) (props : Node) (name : String) (args : List Json) : Program :=
  match Table.get? bindings.creators name with
  | some creator => .send (creator.create args)
  | none => match Table.get? bindings.thunks name with
    | some thunk => thunk ⟨props, bindings.creators, args⟩
    | none => .fail (.unknownAction name)

end Bindings

/-- What a scope can do, as it is registered now. -/
def Registry.bindings (registry : Registry) (group : Option String) : Except Fault Bindings := do
  let scope ← registry.scope group
  return ⟨scope.creators, scope.thunks⟩

/-- Names bound to a dispatcher. -/
structure Bound (σ : Type) where
  /-- What can be invoked. -/
  bindings : Bindings
  /-- Where actions go. -/
  dispatcher : Dispatcher σ

/-- Invokes a name with the props given. -/
def Bound.invoke {σ : Type} (bound : Bound σ) (props : Node) (name : String) (args : List Json) :
    StateM σ Outcome :=
  (bound.bindings.program props name args).run bound.dispatcher

/-- Names bound to a dispatcher and to props. -/
structure BoundWithProps (σ : Type) extends Bound σ where
  /-- What every invocation is given. -/
  props : Node

namespace BoundWithProps

variable {σ : Type}

/-- Invokes a name with the bound props. -/
def invoke (bound : BoundWithProps σ) (name : String) (args : List Json) : StateM σ Outcome :=
  bound.toBound.invoke bound.props name args

/-- Binds other props. -/
def setProps (bound : BoundWithProps σ) (props : Node) : BoundWithProps σ :=
  { bound with props }

end BoundWithProps

end Reducer
