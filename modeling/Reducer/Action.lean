/-
Actions and what builds them.

An action is a type and a payload.  The type is given by the registry, so a caller
only supplies arguments: a creator turns positional arguments into an action of its
one type.  As JSON an action is flat where its payload is an object, and the payload
never hides the type: a payload field called `type` is left out.
-/
import Reducer.Json.Basic
import Reducer.Path

namespace Reducer

/-- Something to reduce: what happened, and with what. -/
structure Action where
  /-- The qualified name of the reaction that answers. -/
  type : String
  /-- What the reaction's payload function made of the arguments. -/
  payload : Json

namespace Action

/-- The action that callbacks see while none is dispatched. -/
def empty : Action := ⟨"", .null⟩

instance : Inhabited Action := ⟨empty⟩

/-- Field of an object payload. -/
def field? (action : Action) (name : String) : Option Json :=
  action.payload.get? name

/-- Equal types and deep-equal payloads. -/
def eqv (a b : Action) : Bool :=
  a.type == b.type && a.payload.eqv b.payload

/-- The action as JSON: its type, and next to it the payload's fields or the payload itself. -/
def toJson (action : Action) : Json :=
  .obj (("type", .str action.type) :: match action.payload with
    | .obj fields => fields.filter fun field => field.1 != "type"
    | .null => []
    | other => [("payload", other)])

end Action

/-- What turns arguments into a payload. -/
abbrev PayloadOf := List Json → Json

/-- Builds the actions of one type. -/
structure Creator where
  /-- The type of every action this builds. -/
  type : String
  /-- The payload of the arguments. -/
  payload : PayloadOf

/-- The action of the given arguments. -/
def Creator.create (creator : Creator) (args : List Json) : Action :=
  ⟨creator.type, creator.payload args⟩

/-! ### Payloads as typed values -/

/-- Types a JSON value may decode to; what is of another shape or out of range does not. -/
class Decode (α : Type) where
  /-- The decoded value, if the JSON value has the type's shape. -/
  decode? : Json → Option α

export Decode (decode?)

/-- Every value decodes to itself. -/
instance : Decode Json := ⟨some⟩

/-- Whole numbers that fit a signed 64-bit word. -/
instance : Decode Int := ⟨fun
  | .num value => value.toSigned?
  | _ => none⟩

/-- Whole numbers that fit an unsigned 64-bit word. -/
instance : Decode Nat := ⟨fun
  | .num value => value.toUnsigned?
  | _ => none⟩

/-- Whole numbers below 256. -/
instance : Decode UInt8 := ⟨fun
  | .num value => value.toUnsigned?.bind fun n =>
      if h : n < UInt8.size then some (UInt8.ofNatLT n h) else none
  | _ => none⟩

instance : Decode Bool := ⟨fun
  | .bool value => some value
  | _ => none⟩

instance : Decode String := ⟨fun
  | .str value => some value
  | _ => none⟩

/-- Null alone. -/
instance : Decode Unit := ⟨fun
  | .null => some ()
  | _ => none⟩

/-- A string is a key, and a whole number that is not negative an index. -/
instance : Decode Seg := ⟨fun
  | .str name => some (.key name)
  | value => (decode? value).map .index⟩

instance {α : Type} [Decode α] : Decode (List α) := ⟨fun
  | .arr items => items.mapM decode?
  | _ => none⟩

/-- The payload as a value of the type asked for. -/
def Action.payloadAs? (α : Type) [Decode α] (action : Action) : Option α :=
  decode? action.payload

end Reducer
