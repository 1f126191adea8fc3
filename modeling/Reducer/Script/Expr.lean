/-
Callbacks written as data.

An expression computes a draft, and a condition a truth value, from what a callback
is given: the action, a state, the current value, and for a predicate the name of
the child it is asked about.  Paths read nodes that exist and keep them; literals,
payload fields and the makers of arrays and objects lay out containers to make, anew
each time they are evaluated.  Reading what is not there gives null.
-/
import Reducer.Effect

namespace Reducer.Script

/-- What a path may start from. -/
inductive Source
  /-- The current value. -/
  | current
  /-- The state. -/
  | state
  /-- A register. -/
  | register (name : String)

mutual

/-- Computes a value. -/
inductive Expr
  /-- A constant. -/
  | lit (value : Json)
  /-- What lies at a path. -/
  | read (source : Source) (path : Path)
  /-- A payload field. -/
  | field (name : String)
  /-- Whether the payload has a field. -/
  | hasField (name : String)
  /-- The payload. -/
  | payload
  /-- The action type. -/
  | type
  /-- The name or position of the child a predicate is asked about. -/
  | key
  /-- A whole number and a constant, added in signed 64-bit words. -/
  | add (value : Expr) (amount : Int)
  /-- The number of children. -/
  | size (value : Expr)
  /-- The truth of a condition. -/
  | truth (condition : Cond)
  /-- One of two values. -/
  | choose (condition : Cond) (yes no : Expr)
  /-- A new array. -/
  | arr (items : List Expr)
  /-- A new object; a repeated name keeps its place and takes the last value. -/
  | obj (fields : List (String × Expr))

/-- Decides something. -/
inductive Cond
  /-- A constant. -/
  | const (value : Bool)
  /-- All conditions hold. -/
  | all (conditions : List Cond)
  /-- Some condition holds. -/
  | any (conditions : List Cond)
  /-- The condition does not hold. -/
  | not (condition : Cond)
  /-- Deep equality. -/
  | eqv (a b : Expr)
  /-- Identity. -/
  | same (a b : Expr)
  /-- Deep equality with a payload field. -/
  | eqvField (value : Expr) (name : String)
  /-- The value is the boolean true. -/
  | isTrue (value : Expr)
  /-- The value is null. -/
  | isNull (value : Expr)
  /-- The value is of a kind. -/
  | isKind (value : Expr) (kind : Kind)
  /-- The value is a whole number that leaves a remainder. -/
  | leaves (value : Expr) (modulus remainder : Int)
  /-- Both are whole numbers, and the first is smaller. -/
  | less (a b : Expr)
  /-- The child's position is the value; a child with a key has no position. -/
  | atIndex (value : Expr)
  /-- The child's key is the value; a child with a position has no key. -/
  | atKey (value : Expr)
  /-- The child's key starts with a text. -/
  | keyStarts (start : String)

end

/-- What an expression is evaluated with. -/
structure Env where
  /-- The action. -/
  action : Action
  /-- The state. -/
  state : Node
  /-- The current value. -/
  current : Node
  /-- The name of the child, for a predicate. -/
  key : Option Seg
  /-- Named values. -/
  registers : Table Node

namespace Env

/-- The node a path starts from. -/
def source (env : Env) : Source → Node
  | .current => env.current
  | .state => env.state
  | .register name => (Table.get? env.registers name).getD .null

/-- A payload field as a draft. -/
def field (env : Env) (name : String) : Draft :=
  .ofJson ((env.action.field? name).getD .null)

end Env

/-- A whole number as a draft. -/
def intDraft (value : Int) : Draft := .keep (.num (.int value))

/-- The whole number a draft keeps, if it fits a signed 64-bit word. -/
def signed? (draft : Draft) : Option Int := draft.node?.bind Node.signed?

mutual

/-- The draft an expression stands for. -/
def Expr.eval (env : Env) : Expr → Draft
  | .lit value => .ofJson value
  | .read source path => .keep (((env.source source).at? path).getD .null)
  | .field name => env.field name
  | .hasField name => .keep (.bool (env.action.field? name).isSome)
  | .payload => .ofJson env.action.payload
  | .type => .keep (.str env.action.type)
  | .key => match env.key with
    | some (.key name) => .keep (.str name)
    | some (.index position) => intDraft position
    | none => .keep .null
  | .add value amount =>
      intDraft (Number.wrapSigned ((signed? (value.eval env)).getD 0 + amount))
  | .size value => intDraft (value.eval env).size
  | .truth condition => .keep (.bool (condition.holds env))
  | .choose condition yes no => if condition.holds env then yes.eval env else no.eval env
  | .arr items => .arr (Expr.evalItems env items)
  | .obj fields => .obj (Table.ofEntries (Expr.evalFields env fields))
termination_by structural expr => expr

/-- The drafts of items. -/
def Expr.evalItems (env : Env) : List Expr → List Draft
  | [] => []
  | item :: rest => item.eval env :: Expr.evalItems env rest
termination_by structural items => items

/-- The drafts of fields. -/
def Expr.evalFields (env : Env) : List (String × Expr) → List (String × Draft)
  | [] => []
  | (name, value) :: rest => (name, value.eval env) :: Expr.evalFields env rest
termination_by structural fields => fields

/-- Whether a condition holds. -/
def Cond.holds (env : Env) : Cond → Bool
  | .const value => value
  | .all conditions => Cond.allHold env conditions
  | .any conditions => Cond.anyHolds env conditions
  | .not condition => !condition.holds env
  | .eqv a b => (a.eval env).eqv (b.eval env)
  | .same a b => (a.eval env).same (b.eval env)
  | .eqvField value name => (value.eval env).eqv (env.field name)
  | .isTrue value => ((value.eval env).node?.bind Node.bool?) == some true
  | .isNull value => (value.eval env).kind == .null
  | .isKind value kind => (value.eval env).kind == kind
  | .leaves value modulus remainder => match signed? (value.eval env) with
    | some n => n % modulus == remainder
    | none => false
  | .less a b => match signed? (a.eval env), signed? (b.eval env) with
    | some m, some n => m < n
    | _, _ => false
  | .atIndex value =>
      env.key.bind Seg.index? == (value.eval env).node?.bind Node.unsigned?
  | .atKey value => env.key.bind Seg.key? == (value.eval env).node?.bind Node.str?
  | .keyStarts start => match env.key with
    | some (.key name) => start.toList.isPrefixOf name.toList
    | _ => false
termination_by structural condition => condition

/-- Whether all conditions hold. -/
def Cond.allHold (env : Env) : List Cond → Bool
  | [] => true
  | condition :: rest => condition.holds env && Cond.allHold env rest
termination_by structural conditions => conditions

/-- Whether some condition holds. -/
def Cond.anyHolds (env : Env) : List Cond → Bool
  | [] => false
  | condition :: rest => condition.holds env || Cond.anyHolds env rest
termination_by structural conditions => conditions

end

/-! ### As callbacks -/

/-- A condition as a test; it stands in no source file. -/
def Cond.test (condition : Cond) : Test :=
  ⟨fun action state value seg => condition.holds ⟨action, state, value, some seg, []⟩, none⟩

/-- An expression as a callback. -/
def Expr.callback (expr : Expr) : Callback :=
  fun action view current => expr.eval ⟨action, view, current, none, []⟩

/-- An expression for a position and one for an item; what is no position counts as the first. -/
def Expr.insertion (index item : Expr) : Action → Node → Node → Nat × Draft :=
  fun action view current =>
    (((index.callback action view current).node?.bind Node.unsigned?).getD 0,
      item.callback action view current)

/-- An expression over a view, which is both the state and the current value. -/
def Expr.selector (expr : Expr) : Node → Draft :=
  fun view => expr.callback .empty view view

end Reducer.Script
