/-
A dispatcher that only keeps what it is handed.

A recorder may have a limit.  Once it holds that many actions it refuses any
further one, and says of which type it was.
-/
import Reducer.Program

namespace Reducer

/-- The actions dispatched so far, with a state tree that never changes. -/
structure Recorder where
  /-- What thunks read as the state. -/
  state : Node
  /-- How many actions it takes; none for any number. -/
  limit : Option Nat
  /-- The actions it took, oldest first. -/
  taken : List Action

namespace Recorder

/-- Whether no further action is taken. -/
def isFull (recorder : Recorder) : Bool :=
  match recorder.limit with
  | some limit => limit ≤ recorder.taken.length
  | none => false

/-- Dispatching to a recorder adds the action at the end, while there is room. -/
def dispatcher : Dispatcher Recorder where
  dispatch action := fun recorder =>
    if recorder.isFull then (.error (.unknownAction ("refused " ++ action.type)), recorder)
    else (.ok (), { recorder with taken := recorder.taken ++ [action] })
  state := Recorder.state

end Recorder

end Reducer
