import Stencil.Data.Value
import Stencil.Script.Execute

/-!
# The start of a script

The machine as a script finds it: the tables of ready functions, and the data as values of the
script.  What is absent from the data is `nil`: in a list it leaves its place empty, and in a map
it leaves its key out.
-/

namespace Stencil.Script

open Stencil.Text (Bytes bytesOf)

/-- A table of named values. -/
def named (entries : List (String × Value)) : Table :=
  { entries := (entries.map fun (k, v) => (Value.text k, v)).toArray }

/-- Where the string functions are kept. -/
def stringsTable : Nat := 0

/-- Where the mathematical functions are kept. -/
def mathTable : Nat := 1

/-- Where the list functions are kept. -/
def listsTable : Nat := 2

/-- Where the globals are kept. -/
def globalsTable : Nat := 3

/-- Where it is kept that the behaviour of lists in the data cannot be changed. -/
def sealedTable : Nat := 4

namespace Library

/-- The string functions. -/
def strings : Table :=
  named
    [("byte", .native .stringByte), ("char", .native .stringChar), ("len", .native .stringLen),
      ("lower", .native .stringLower), ("rep", .native .stringRep),
      ("reverse", .native .stringReverse), ("sub", .native .stringSub),
      ("upper", .native .stringUpper)]

/-- The mathematical functions and constants. -/
def mathematics : Table :=
  named
    [("abs", .native .mathAbs), ("floor", .native .mathFloor),
      ("huge", .number (.float (.infinity false))), ("max", .native .mathMax),
      ("maxinteger", .number (.int Int64.maxValue)), ("min", .native .mathMin),
      ("mininteger", .number (.int Int64.minValue)), ("type", .native .mathType)]

/-- The list functions. -/
def lists : Table := named [("concat", .native .tableConcat)]

/-- The globals. -/
def globals : Table :=
  named
    [("_G", .table globalsTable), ("assert", .native .assert), ("error", .native .error),
      ("ipairs", .native .ipairs), ("math", .table mathTable), ("next", .native .next),
      ("pairs", .native .pairs), ("pcall", .native .pcall), ("print", .native .print),
      ("rawget", .native .rawget), ("select", .native .select),
      ("setmetatable", .native .setmetatable), ("string", .table stringsTable),
      ("table", .table listsTable), ("tonumber", .native .tonumber),
      ("tostring", .native .tostring), ("type", .native .type)]

/-- The behaviour of a table that nobody can change. -/
def sealed : Table := named [("__metatable", .bool false)]

/-- The tables that are there before a script runs. -/
def tables : Array Table := #[strings, mathematics, lists, globals, sealed]

end Library

/-- The machine of a script with a name. -/
def Machine.start (name : Bytes) : Machine where
  name := name
  tables := Library.tables
  strings := stringsTable

/-! ### Data -/

mutual

/-- The value of the script for a value of the data. -/
def load : Data.Value → Run Value
  | .none => return .nil
  | .bool b => return .bool b
  | .int n => return .number (.int n)
  | .float x => return .number (.float x)
  | .text s => return .string (bytesOf s)
  | .list items => do
    let vs ← loadItems items
    Run.newTable { items := vs.toArray, behaviour := some sealedTable }
  | .map entries => do
    let es ← loadEntries entries
    Run.newTable { entries := es.toArray }

/-- The values of a list. -/
def loadItems : List Data.Value → Run (List Value)
  | [] => return []
  | v :: rest => do
    let w ← load v
    let ws ← loadItems rest
    return w :: ws

/-- The entries of a map that have a value. -/
def loadEntries : List (String × Data.Value) → Run (List (Value × Value))
  | [] => return []
  | (k, v) :: rest => do
    let w ← load v
    let ws ← loadEntries rest
    return if w == .nil then ws else (Value.text k, w) :: ws

end

/-- The scope of the names of a script: what the script assigns to them, then the data, then the
globals. -/
def scopeTable (data : Nat) : Run Value := do
  let behaviour ← Run.newTable (named [("__index", .native (.lookUp data globalsTable))])
  match behaviour with
  | .table id => Run.newTable { behaviour := some id }
  | _ => return .nil

/-- The scope of the names of a script for its data, which has to be a table or absent. -/
def scope (data : Value) : Run Value := do
  match data with
  | .table id => scopeTable id
  | .nil =>
    match ← Run.newTable {} with
    | .table id => scopeTable id
    | _ => return .nil
  | v =>
    Run.fail (bytesOf ("expected template data to be a map, found " ++ v.typeName))

/-- Runs a whole script: its names are looked up in `scope`, and its extra arguments are `args`. -/
def runScript (fuel : Nat) (body : Block) (scope : Value) (args : List Value) :
    Run (List Value) := do
  let env ← Run.newCell scope
  let f ← Run.newFunction ⟨.mk [] true body, [(globalsName, env)]⟩
  Run.nested ((Evaluator.at fuel fuel).runCall f args none)

end Stencil.Script
