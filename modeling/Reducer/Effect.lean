/-
Effects: what happens at a place.

An effect turns the value of one slot, or its absence, into the next.  Its callback
sees the action, the view, and the value there now, null for a deleted slot.
Appending, inserting and assigning make a new container around the children that
were there; setting takes the callback's value as it is; deleting empties the slot.

Appending and assigning count a missing value as an empty container.  Inserting does
not: it needs an array.
-/
import Reducer.Build
import Reducer.Slice

namespace Reducer

/-- Computes a value from the action, the view, and the value now in the slot. -/
abbrev Callback := Action → Node → Node → Draft

/-- A change of one slot. -/
inductive Effect
  /-- Replaces the value. -/
  | set (value : Callback)
  /-- Adds an item at the end of an array. -/
  | append (item : Callback)
  /-- Adds an item at a position of an array. -/
  | insert (item : Action → Node → Node → Nat × Draft)
  /-- Writes the fields of an object over those of another. -/
  | assign (patch : Callback)
  /-- Empties the slot. -/
  | delete

namespace Effect

/-- The word for an effect. -/
def name : Effect → String
  | set _ => "set"
  | append _ => "append"
  | insert _ => "insert"
  | assign _ => "assign"
  | delete => "delete"

/-- The items to append to. -/
def appendable? : Node → Option (List Node)
  | .arr _ items => some items
  | .null => some []
  | _ => none

/-- The fields to assign to, or to assign. -/
def assignable? : Node → Option (Table Node)
  | .obj _ fields => some fields
  | .null => some []
  | _ => none

/-- The next value of a slot, or none once it is deleted; `path` is the slot's place. -/
def run (effect : Effect) (action : Action) (view : Node) (path : Path) (current : Option Node) :
    Build (Option Node) := do
  let value := current.getD .null
  match effect with
  | set callback => return some (← Build.draft (callback action view value))
  | append callback =>
      let item ← Build.draft (callback action view value)
      let some items := appendable? value | throw (.appendToOther path)
      return some (← Build.arr (items ++ [item]))
  | insert callback =>
      let (index, draft) := callback action view value
      let item ← Build.draft draft
      let some items := value.items? | throw (.wrongKind path .array value.kind)
      if items.length < index then throw (.outOfBounds path index items.length)
      return some (← Build.arr (items.take index ++ item :: items.drop index))
  | assign callback =>
      let some fields := assignable? value | throw (.assignToOther path)
      let patch ← Build.draft (callback action view value)
      let some changes := assignable? patch | throw (.assignToOther path)
      return some (← Build.obj (Table.merge fields changes))
  | delete => return none

end Effect

/-- An effect on a slice; one that names no effect is refused at registration. -/
structure SliceEffect where
  /-- Where it applies. -/
  slice : Slice
  /-- What happens there. -/
  effect : Option Effect

end Reducer
