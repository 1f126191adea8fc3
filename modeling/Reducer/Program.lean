/-
Programs: what a thunk does.

A program dispatches actions, reads the state, and stops, with a fault or without.
What it does next may depend on how a dispatch ended and on what it read, so a
program is a tree of everything it might do.  Running one against a dispatcher
follows one way down; a program that fails leaves what it dispatched before.
-/
import Reducer.Action
import Reducer.Fault
import Reducer.Node.Basic

namespace Reducer

/-- How dispatching ended. -/
abbrev Outcome := Except Fault Unit

/-- Something actions can be dispatched to, with its state of type `σ`. -/
structure Dispatcher (σ : Type) where
  /-- Takes one action. -/
  dispatch : Action → StateM σ Outcome
  /-- The state tree at present. -/
  state : σ → Node

/-- Everything a thunk might do. -/
inductive Program
  /-- Nothing more. -/
  | done
  /-- Stops with a fault. -/
  | fail (fault : Fault)
  /-- Dispatches an action and goes on with how that ended. -/
  | dispatch (action : Action) (next : Outcome → Program)
  /-- Reads the state tree and goes on with it. -/
  | read (next : Node → Program)

namespace Program

/-- Runs a program against a dispatcher. -/
def run {σ : Type} (dispatcher : Dispatcher σ) : Program → StateM σ Outcome
  | done => pure (.ok ())
  | fail fault => pure (.error fault)
  | dispatch action next => do
      let outcome ← dispatcher.dispatch action
      run dispatcher (next outcome)
  | read next => do
      let state ← get
      run dispatcher (next (dispatcher.state state))

/-- Dispatches one action and stops as that ended. -/
def send (action : Action) : Program :=
  dispatch action fun
    | .ok _ => done
    | .error fault => fail fault

end Program

/-- What a thunk is given. -/
structure ThunkContext where
  /-- The props of the caller. -/
  props : Node
  /-- The creators of the thunk's scope, by their bare names. -/
  creators : Table Creator
  /-- The arguments of this invocation. -/
  args : List Json

/-- Builds an action of the thunk's scope. -/
def ThunkContext.action (context : ThunkContext) (name : String) (args : List Json) :
    Except Fault Action :=
  match Table.get? context.creators name with
  | some creator => .ok (creator.create args)
  | none => .error (.unknownAction name)

/-- An action that is decided only when it is invoked. -/
abbrev Thunk := ThunkContext → Program

end Reducer
