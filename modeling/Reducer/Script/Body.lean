/-
Thunks written as data.

A body is a list of instructions, run in order until one fails.  An instruction
builds actions of the thunk's scope and dispatches them, tries other instructions
and drops their fault, runs others under a condition, or fails.  A body becomes a
program by saying, for each instruction, what comes after it: a program for every
way it may end.
-/
import Reducer.Script.Expr
import Reducer.Program

namespace Reducer.Script

/-- An argument of an action to build. -/
inductive Arg
  /-- A constant. -/
  | lit (value : Json)
  /-- The thunk's own argument at a position, or null. -/
  | arg (position : Nat)
  /-- What lies at a path of the props, or null. -/
  | props (path : Path)
  /-- What lies at a path of the state at that moment, or null. -/
  | state (path : Path)

/-- One instruction of a body. -/
inductive Instr
  /-- Dispatches an action of the scope. -/
  | call (name : String) (args : List Arg)
  /-- Dispatches an action of the scope with the thunk's own arguments. -/
  | forward (name : String)
  /-- Runs instructions and drops their fault. -/
  | attempt (body : List Instr)
  /-- Runs instructions if a condition holds of the state, with the props as current value. -/
  | guarded (condition : Cond) (body : List Instr)
  /-- Fails with an unknown action. -/
  | fail (name : String)

/-- The value of an argument. -/
def Arg.eval (context : ThunkContext) (state : Node) : Arg → Json
  | lit value => value
  | arg position => context.args[position]?.getD .null
  | props path => ((context.props.at? path).getD .null).toJson
  | .state path => ((state.at? path).getD .null).toJson

/-- Builds an action, dispatches it, and goes on with how that ended. -/
def dispatchNamed (context : ThunkContext) (name : String) (args : List Json)
    (next : Outcome → Program) : Program :=
  match context.action name args with
  | .ok action => .dispatch action next
  | .error fault => next (.error fault)

mutual

/-- The program of one instruction, with what comes after it. -/
def Instr.program (context : ThunkContext) : Instr → (Outcome → Program) → Program
  | .call name args, next => .read fun state =>
      dispatchNamed context name (args.map (Arg.eval context state)) next
  | .forward name, next => dispatchNamed context name context.args next
  | .attempt body, next => Instr.programAll context body fun _ => next (.ok ())
  | .guarded condition body, next => .read fun state =>
      if condition.holds ⟨.empty, state, context.props, none, []⟩ then
        Instr.programAll context body next
      else next (.ok ())
  | .fail name, next => next (.error (.unknownAction name))
termination_by structural instr => instr

/-- The program of instructions run until one fails, with what comes after them. -/
def Instr.programAll (context : ThunkContext) : List Instr → (Outcome → Program) → Program
  | [], next => next (.ok ())
  | instr :: rest, next => instr.program context fun
    | .ok _ => Instr.programAll context rest next
    | .error fault => next (.error fault)
termination_by structural body => body

end

/-- A body as a thunk: it ends as its last instruction ended. -/
def thunk (body : List Instr) : Thunk := fun context =>
  Instr.programAll context body fun
    | .ok _ => .done
    | .error fault => .fail fault

end Reducer.Script
