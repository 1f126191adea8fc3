/-
The compact text of a JSON value: fields in their order, no blanks.
-/
import Reducer.Json.Basic
import Reducer.Json.Quoted
import Reducer.Number.Text

namespace Reducer.Json

mutual

/-- The characters of a value, in front of `rest`. -/
def write : Json → List Char → List Char
  | null, rest => "null".toList ++ rest
  | bool value, rest => (if value then "true".toList else "false".toList) ++ rest
  | num value, rest => value.text.toList ++ rest
  | str value, rest => Quoted.encode value ++ rest
  | arr items, rest => '[' :: writeItems true items (']' :: rest)
  | obj fields, rest => '{' :: writeFields true fields ('}' :: rest)
termination_by structural value => value

/-- Items, each but the first with a comma in front. -/
def writeItems : Bool → List Json → List Char → List Char
  | _, [], rest => rest
  | isFirst, item :: more, rest =>
      (if isFirst then [] else [',']) ++ write item (writeItems false more rest)
termination_by structural _ items => items

/-- Fields, each but the first with a comma in front. -/
def writeFields : Bool → List (String × Json) → List Char → List Char
  | _, [], rest => rest
  | isFirst, (name, value) :: more, rest =>
      (if isFirst then [] else [',']) ++ Quoted.encode name ++ ':' ::
        write value (writeFields false more rest)
termination_by structural _ fields => fields

end

/-- The compact text. -/
def text (value : Json) : String :=
  String.ofList (write value [])

end Reducer.Json
