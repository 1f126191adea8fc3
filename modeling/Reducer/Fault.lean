/-
What can go wrong, and how it is said.

A fault is a cause together with what its message names.  Four of them are faults of
the declarations and arise only while reactions are registered; the others arise
while an action is reduced, dispatched or replayed.
-/
import Reducer.Json.Basic
import Reducer.Path

namespace Reducer

/-- Why an operation was refused. -/
inductive Fault
  /-- A reaction says nothing about the payload of its actions. -/
  | missingPayload (reaction : String)
  /-- A reaction names a slice and does nothing to it. -/
  | missingEffect (reaction slice : String)
  /-- A reaction's effect names no place. -/
  | emptySlice (reaction : String)
  /-- A group or an action type already has other redirects. -/
  | redirectsConflict (name : String)
  /-- The value to append to is not an array. -/
  | appendToOther (path : Path)
  /-- The value to assign to, or the patch, is not an object. -/
  | assignToOther (path : Path)
  /-- The value is of another kind than the effect needs. -/
  | wrongKind (path : Path) (expected found : Kind)
  /-- The position to insert at is past the end. -/
  | outOfBounds (path : Path) (index length : Nat)
  /-- Nothing of that name can be invoked or built. -/
  | unknownAction (name : String)
  /-- No group of that name was registered. -/
  | unknownGroup (group : String)
  /-- The history has no action at that index. -/
  | invalidReplay (index length : Nat)
  deriving DecidableEq, Repr

namespace Fault

/-- The text of a fault. -/
def message : Fault → String
  | missingPayload reaction => s!"missing action constructor in reaction {reaction}"
  | missingEffect reaction slice =>
      "missing set, append, insert, assign or delete on slice " ++ slice ++
        " for reaction " ++ reaction
  | emptySlice reaction => s!"empty slice in reaction {reaction}"
  | redirectsConflict name => s!"substitution map for {name} is already registered"
  | appendToOther path => "append requires array value at " ++ path.text
  | assignToOther path => "assign requires object value at " ++ path.text
  | wrongKind path expected found =>
      "type mismatch at " ++ path.text ++ ": expected " ++ expected.name ++ ", found " ++ found.name
  | outOfBounds path index length =>
      s!"index {index} out of bounds (len: {length}) at path " ++ path.text
  | unknownAction name => s!"unknown action: {name}"
  | unknownGroup group => s!"unknown group: {group}"
  | invalidReplay index length => s!"invalid replay index: {index}, history length: {length}"

/-- Whether the fault lies in the declarations. -/
def isConfiguration : Fault → Bool
  | missingPayload _ | missingEffect _ _ | emptySlice _ | redirectsConflict _ => true
  | _ => false

end Fault

end Reducer
