/-
What changed from one tree to another.

Two nodes differ when they are not the same node.  Since whatever a reduction does
not reach is carried over, the places that differ are those it rebuilt, replaced or
removed.  The report goes down through mappings and through arrays of one length; an
array that changed its length is reported and not entered.  The root is never
reported.
-/
import Reducer.Node.Basic

namespace Reducer

namespace Node

mutual

/-- The changes below two nodes that are not the same, at `path`. -/
def changesBelow (path : Path) : Node → Node → List Path
  | obj _ before, obj _ after =>
      changesInFields path before after ++
        ((Table.keys before).filter fun name => !Table.has after name).map fun name =>
          path ++ [Seg.key name]
  | arr _ before, arr _ after =>
      if before.length == after.length then changesInItems path 0 before after else []
  | _, _ => []
termination_by structural _ after => after

/-- Fields that are new or hold another node, in order, each before what changed below it. -/
def changesInFields (path : Path) (before : List (String × Node)) :
    List (String × Node) → List Path
  | [] => []
  | (name, value) :: rest =>
      (match Table.get? before name with
        | some old =>
            if old.same value then []
            else (path ++ [.key name]) :: changesBelow (path ++ [.key name]) old value
        | none => [path ++ [.key name]]) ++ changesInFields path before rest
termination_by structural after => after

/-- Items that are another node than the one before them at their position. -/
def changesInItems (path : Path) (position : Nat) : List Node → List Node → List Path
  | old :: before, value :: rest =>
      (if old.same value then []
        else (path ++ [.index position]) :: changesBelow (path ++ [.index position]) old value) ++
        changesInItems path (position + 1) before rest
  | _, _ => []
termination_by structural _ after => after

end

/-- The places that differ, in the order of the new tree, removed fields last. -/
def changes (old new : Node) : List Path :=
  if old.same new then [] else changesBelow [] old new

end Node

/-- The text of a report: every place, dotted, with a semicolon behind it. -/
def changeText (paths : List Path) : String :=
  String.join (paths.map fun path => path.dotted ++ ";")

end Reducer
