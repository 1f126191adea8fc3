/-
The compact text of a state tree.

A tree is written out as it stands, kind by kind, without making a JSON value of it first:
labels are left out, fields come in their order, and there are no blanks.
-/
import Reducer.Json.Printer
import Reducer.Node.Basic

namespace Reducer.Node

mutual

/-- The characters of a tree, in front of `rest`. -/
def write : Node → List Char → List Char
  | null, rest => "null".toList ++ rest
  | bool value, rest => (if value then "true".toList else "false".toList) ++ rest
  | num value, rest => value.text.toList ++ rest
  | str value, rest => Quoted.encode value ++ rest
  | arr _ items, rest => '[' :: writeItems true items (']' :: rest)
  | obj _ fields, rest => '{' :: writeFields true fields ('}' :: rest)
termination_by structural node => node

/-- Items, each but the first with a comma in front. -/
def writeItems : Bool → List Node → List Char → List Char
  | _, [], rest => rest
  | isFirst, item :: more, rest =>
      (if isFirst then [] else [',']) ++ write item (writeItems false more rest)
termination_by structural _ items => items

/-- Fields, each but the first with a comma in front. -/
def writeFields : Bool → List (String × Node) → List Char → List Char
  | _, [], rest => rest
  | isFirst, (name, value) :: more, rest =>
      (if isFirst then [] else [',']) ++ Quoted.encode name ++ ':' ::
        write value (writeFields false more rest)
termination_by structural _ fields => fields

end

/-- The compact text. -/
def text (node : Node) : String :=
  String.ofList (write node [])

end Reducer.Node
