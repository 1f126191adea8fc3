/-
Work that makes nodes and may fail.

Such work takes its labels from a supply and hands on what is left of it.  Work that
fails hands on nothing, so whatever it had made is gone and its labels are free
again.
-/
import Reducer.Fault
import Reducer.Node.Draft

namespace Reducer

/-- Work on a supply of labels that may end in a fault. -/
abbrev Build := StateT Label (Except Fault)

namespace Build

/-- The next label. -/
def fresh : Build Label := modifyGet fun next => (next, next + 1)

/-- The node of a draft. -/
def draft (draft : Draft) : Build Node := modifyGet draft.build

/-- A new array. -/
def arr (items : List Node) : Build Node := return .arr (← fresh) items

/-- A new object. -/
def obj (fields : Table Node) : Build Node := return .obj (← fresh) fields

end Build

end Reducer
