import Stencil.Script.Library

/-!
# Evaluators

An evaluator runs the parts of a script.  Evaluating a part asks the evaluator one level below for
its parts, so every level is defined without recursion; `Execute` stacks the levels up, and a
computation that goes below the last one has used its budget up.

This module holds what expressions and statements share: looking up fields, calling functions and
writing values as text, and the messages of operations that a value does not have.
-/

namespace Stencil.Script

open Stencil.Text (Bytes bytesOf)

/-- How control leaves a statement. -/
inductive Exit where
  /-- To the next statement, with what surrounds it. -/
  | next (env : Env)
  /-- To the next statement, with what surrounds it and a value that is closed when the block is
  left. -/
  | closing (env : Env) (v : Value)
  /-- Out of the innermost loop. -/
  | «break»
  /-- To a label. -/
  | goto (label : Bytes)
  /-- Out of the function, with its results. -/
  | «return» (results : List Value)
  /-- Out of the function, with the results of a call that is still to be made. -/
  | tail (f : Value) (args : List Value)

/-- The level below. -/
structure Evaluator extends Callbacks where
  /-- How many times a loop goes round at most. -/
  turns : Nat
  /-- A call, and what the function is called where it is called. -/
  callAt : Value → List Value → Option Site → Run (List Value)
  /-- The value of an expression. -/
  expr : Env → Expr → Run Value
  /-- All values of an expression. -/
  results : Env → Expr → Run (List Value)
  /-- A block of statements. -/
  block : Env → Block → Run Exit

/-! ### Names and messages -/

namespace Env

/-- Where the machine keeps a variable. -/
def find? (env : Env) (x : Bytes) : Option Nat := (env.own.lookup x).or (env.outer.lookup x)

/-- All variables that are in scope. -/
def all (env : Env) : Variables := env.own ++ env.outer

/-- Adds variables, the latest last. -/
def declare (env : Env) (vars : Variables) : Env := { env with own := vars.reverse ++ env.own }

end Env

/-- The name of the variable that holds the global names. -/
def globalsName : Bytes := bytesOf "_ENV"

/-- What kind of variable a name is. -/
def variableKind (env : Env) (x : Bytes) : String :=
  if (env.own.lookup x).isSome then "local"
  else if (env.outer.lookup x).isSome then "upvalue"
  else "global"

/-- How a field is spoken of. -/
def fieldSite (object key : Expr) : Site :=
  match object, key with
  | .name o _, .string k => ⟨if o == globalsName then "global" else "field", k⟩
  | _, .string k => ⟨"field", k⟩
  | _, .number (.int n) =>
    if 0 ≤ n ∧ n ≤ 255 then ⟨"field", bytesOf "integer index"⟩ else ⟨"field", bytesOf "?"⟩
  | _, _ => ⟨"field", bytesOf "?"⟩

/-- How the value of an expression is spoken of, if there is a word for it. -/
def site? (env : Env) : Expr → Option Site
  | .name x _ => some ⟨variableKind env x, x⟩
  | .index object key _ => some (fieldSite object key)
  | .string s => some ⟨"constant", s⟩
  | .paren e => site? env e
  | _ => none

/-- A site as a message shows it. -/
def Site.shown (site : Option Site) : Bytes :=
  match site with
  | some s => bytesOf (" (" ++ s.kind ++ " '") ++ s.name ++ bytesOf "')"
  | none => []

namespace Run

/-- Raises that a value does not have an operation. -/
def lacks {α : Type} (operation : String) (v : Value) (site : Option Site) : Run α :=
  failHere (bytesOf ("attempt to " ++ operation ++ " a " ++ v.typeName ++ " value") ++
    Site.shown site)

end Run

namespace Evaluator

variable (level : Evaluator)

/-! ### Fields -/

/-- What is found under a key. -/
inductive Lookup where
  /-- A value. -/
  | found (v : Value)
  /-- None, but there may be one elsewhere: in another object, or as the result of a function. -/
  | missing (elsewhere : Value)

/-- Looks a key up in an object alone.  The fields of a string are those of the string functions. -/
def lookUp (site : Option Site) (object key : Value) : Run Lookup := do
  match object with
  | .table id =>
    match (← Run.table id).get key with
    | .nil => return .missing (← Run.behaviour id "__index")
    | v => return .found v
  | .string _ => return .missing (.table (← get).strings)
  | v => Run.lacks "index" v site

/-- Looks a key up in an object, and in the object that stands in for it if there is one. -/
def lookUpOr (onward : Value → Run Value) (site : Option Site) (object key : Value) :
    Run Value := do
  match ← lookUp site object key with
  | .found v => return v
  | .missing .nil => return .nil
  | .missing (.function f) => first (.function f)
  | .missing (.native f) => first (.native f)
  | .missing other => onward other
where
  /-- The first result of a function that stands in for the field. -/
  first (f : Value) : Run Value := do
    let site : Site := ⟨"metamethod", bytesOf "index"⟩
    return (← Run.nested (level.callAt f [object, key] (some site))).headD .nil

/-- Looks a key up along a chain of objects of which each stands in for the one before. -/
def follow (key : Value) : (links : Nat) → (site : Option Site) → (object : Value) → Run Value
  | 0, site, object =>
    level.lookUpOr (fun _ => Run.failHere (bytesOf "'__index' chain too long; possibly a loop"))
      site object key
  | links + 1, site, object =>
    level.lookUpOr (fun other => follow key links none other) site object key

/-- How many objects can stand in for one. -/
def maxLinks : Nat := 2000

/-- The value of a field. -/
def readField (site : Option Site) (object key : Value) : Run Value :=
  level.follow key maxLinks site object

/-- Gives a field its value. -/
def writeField (site : Option Site) (object key value : Value) : Run Unit := do
  match object with
  | .table id =>
    match key with
    | .nil => Run.failHere (bytesOf "table index is nil")
    | .number n =>
      if n.isNaN then Run.failHere (bytesOf "table index is NaN")
      else Run.modifyTable id fun t => t.set key value
    | _ => Run.modifyTable id fun t => t.set key value
  | v => Run.lacks "index" v site

/-! ### Calls and text -/

/-- Enters a function of the script. -/
def enter (id : Nat) (args : List Value) : Run Exit := do
  let ⟨.mk params vararg body, outer⟩ ← Run.closure id
  let vars ← Run.newCells params args
  let extra := if vararg then args.drop params.length else []
  Run.within (.script 0) (level.block ⟨vars.reverse, outer, extra⟩ body)

/-- One turn of a call: a function whose last deed is another call is left before that call is
made. -/
def callTurn (site : Option Site) (call : Value × List Value) :
    Run (Run.Turn (Value × List Value) (List Value)) := do
  match call.1 with
  | .native f => return .done (← Run.within (.native f site) (f.run level.toCallbacks call.2))
  | .function id =>
    match ← level.enter id call.2 with
    | .return results => return .done results
    | .tail f args => return .again (f, args)
    | _ => return .done []
  | v => Run.lacks "call" v site

/-- The results of a call. -/
def runCall (f : Value) (args : List Value) (site : Option Site) : Run (List Value) :=
  Run.iterate (level.callTurn site) level.turns (f, args)

/-- The text of a value.  A table can say how it is written. -/
def runText (v : Value) : Run Bytes := do
  match v with
  | .table id =>
    match ← Run.behaviour id "__tostring" with
    | .nil => return v.plainText
    | f =>
      match ((← level.call f [v]).headD .nil).toBytes? with
      | some s => return s
      | none => Run.failNative (bytesOf "'__tostring' must return a string")
  | v => return v.plainText

end Evaluator

end Stencil.Script
