import Stencil.Procedure
import Stencil.Script.Globals

/-!
# Rendering

A procedure is rendered on a machine of its own: its script runs with the names of the data in
scope, writes to a new block tree, and gives the text of the root block.
-/

namespace Stencil

namespace Procedure

open Script

/-- What the script is given: the operations on the block tree, and the options. -/
def arguments (options : Script.Value) : List Script.Value :=
  [.native .append, .native .openBlock, .native .closeBlock, .native .trim, .native .render,
    options]

/-- The options if none are given: an empty map. -/
def noOptions : Data.Value := .map []

/-- Runs the script of a procedure.  The options are loaded before the data, so that the table that stands for
absent data is made when an empty map would be loaded; nothing else depends on this order. -/
def execute (fuel : Nat) (body : Script.Block) (data options : Data.Value) :
    Run (List Script.Value) := do
  let options ← load options
  let data ← load data
  let scope ← scope data
  runScript fuel body scope (arguments options)

/-- The error of a value that the script has raised. -/
def raised (fuel : Nat) (v : Script.Value) : Run Error := do
  return .eval (← Native.uncaught (Evaluator.at fuel fuel).toCallbacks v) true

/-- The result of a script: its first value, which has to be a text. -/
def result (values : List Script.Value) : Except Error String :=
  match Native.hostText (values.headD .nil) with
  | .ok text => .ok text
  | .error why => .error (.eval why false)

/-- Runs the script of a procedure to its result or to an error. -/
def finish (fuel : Nat) (body : Script.Block) (data options : Data.Value) :
    Run (Except Error String) := do
  match ← Run.catching (execute fuel body data options) with
  | .ok values => return result values
  | .error v => return .error (← raised fuel v)

/-- Renders a procedure with data and options. -/
def render (fuel : Nat) (p : Procedure) (data options : Data.Value) :
    Outcome String :=
  match parse p.origin p.chunk with
  | .error e => .error (.error e)
  | .ok body =>
    match (finish fuel body data options).run (Machine.start (scriptName p.origin)) with
    | (.ok (.ok text), _) => .ok text
    | (.ok (.error e), _) => .error (.error e)
    | (.error _, _) => .error .exhausted

end Procedure

end Stencil
