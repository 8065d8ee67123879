import Stencil.Block.Tree
import Stencil.Script.Syntax
import Stencil.Script.Table

/-!
# The machine

What a script works on: the cells of its variables, its tables and functions, the block tree that
it writes to, and the calls that are running.  A computation on the machine ends with a result,
with a raised value that the script can catch, or because its budget is used up; the machine is
kept in each case.
-/

namespace Stencil.Script

open Stencil.Text (Bytes bytesOf)

/-- The variables of a function that are in scope: where the machine keeps each of them. -/
abbrev Variables := List (Bytes × Nat)

/-- What surrounds a statement. -/
structure Env where
  /-- The variables of the function. -/
  own : Variables
  /-- The variables of the functions around it. -/
  outer : Variables
  /-- The extra arguments of the function. -/
  extra : List Value := []

/-- A function of the script together with the variables around it. -/
structure Closure where
  /-- The function. -/
  function : Function
  /-- The variables. -/
  outer : Variables

instance : Inhabited Closure := ⟨⟨.mk [] false [], []⟩⟩

/-- How a value is spoken of where it is used. -/
structure Site where
  /-- What kind of thing it is. -/
  kind : String
  /-- Its name. -/
  name : Bytes
  deriving DecidableEq, Repr

/-- A running call. -/
inductive Frame where
  /-- A function of the script, and the line that runs. -/
  | script (line : Nat)
  /-- A function that the script found ready, and what it is called where it was called. -/
  | native (f : Native) (site : Option Site)

/-- The running calls. -/
structure Calls where
  /-- The calls, the latest first. -/
  frames : List Frame := []
  /-- How many there are. -/
  depth : Nat := 0
  /-- How many of them the script did not make itself: they were made by a native function, by a
  loop, or because a table behaves so. -/
  nested : Nat := 0

/-- The state of a script. -/
structure Machine where
  /-- The name of the script in messages. -/
  name : Bytes
  /-- The values of variables. -/
  cells : Array Value := #[]
  /-- The tables. -/
  tables : Array Table := #[]
  /-- The functions. -/
  functions : Array Closure := #[]
  /-- The running calls. -/
  calls : Calls := {}
  /-- The table in which the fields of strings are looked up. -/
  strings : Nat := 0
  /-- The blocks. -/
  tree : Block.Tree := .empty

/-- Why a computation has no result. -/
inductive Raise where
  /-- A value was raised. -/
  | error (v : Value)
  /-- The budget is used up. -/
  | exhausted

/-- A computation on the machine. -/
abbrev Run := ExceptT Raise (StateM Machine)

namespace Run

/-- Raises a value. -/
def raise {α : Type} (v : Value) : Run α := throw (.error v)

/-- Raises a message as it is. -/
def fail {α : Type} (message : Bytes) : Run α := raise (.string message)

/-- A line of the script as messages start with it. -/
def position (line : Nat) : Run Bytes := do
  let m ← get
  return m.name ++ bytesOf s!":{line}: "

/-- The position of a running call, counted from the latest, if it is one of the script. -/
def positionOf (level : Nat) : Run Bytes := do
  match (← get).calls.frames[level]? with
  | some (.script line) => position line
  | _ => return []

/-- Raises a message of a native function, about the line that called it. -/
def failNative {α : Type} (message : Bytes) : Run α := do
  fail ((← positionOf 1) ++ message)

/-- Raises a message about what runs. -/
def failHere {α : Type} (message : Bytes) : Run α := do
  fail ((← positionOf 0) ++ message)

/-- Gives up: the budget is used up. -/
def exhausted {α : Type} : Run α := throw .exhausted

/-- Notes which line runs. -/
def atLine (line : Nat) : Run Unit :=
  modify fun m =>
    match m.calls.frames with
    | .script _ :: rest => { m with calls := { m.calls with frames := .script line :: rest } }
    | _ => m

/-! ### Variables -/

/-- A new variable. -/
def newCell (v : Value) : Run Nat := do
  let m ← get
  let id := m.cells.size
  set { m with cells := m.cells.push v }
  return id

/-- New variables with values; those without one are `nil`. -/
def newCells : List Bytes → List Value → Run Variables
  | [], _ => return []
  | x :: xs, vs => do
    let id ← newCell (vs.headD .nil)
    let rest ← newCells xs vs.tail
    return (x, id) :: rest

/-- The value of a variable. -/
def cell (id : Nat) : Run Value := return (← get).cells.getD id .nil

/-- Gives a variable its value. -/
def setCell (id : Nat) (v : Value) : Run Unit :=
  modify fun m => { m with cells := m.cells.setIfInBounds id v }

/-! ### Tables and functions -/

/-- A new table. -/
def newTable (t : Table) : Run Value := do
  let m ← get
  let id := m.tables.size
  set { m with tables := m.tables.push t }
  return .table id

/-- A table. -/
def table (id : Nat) : Run Table := return (← get).tables.getD id default

/-- Changes a table. -/
def modifyTable (id : Nat) (f : Table → Table) : Run Unit :=
  modify fun m => { m with tables := m.tables.modify id f }

/-- A new function. -/
def newFunction (c : Closure) : Run Value := do
  let m ← get
  let id := m.functions.size
  set { m with functions := m.functions.push c }
  return .function id

/-- A function. -/
def closure (id : Nat) : Run Closure := return (← get).functions.getD id default

/-- What a table says under a name about how it behaves. -/
def behaviour (id : Nat) (name : String) : Run Value := do
  match (← table id).behaviour with
  | some b => return (← table b).get (.text name)
  | none => return .nil

/-! ### Calls -/

/-- How many calls can run at once. -/
def maxDepth : Nat := 100000

/-- How many of them can be nested in ways other than a plain call, the script itself included. -/
def maxNested : Nat := 199

/-- Runs a computation with other calls running, which have ended afterwards. -/
def withCalls {α : Type} (change : Calls → Calls) (body : Run α) : Run α := do
  let calls := (← get).calls
  modify fun m => { m with calls := change calls }
  let result ← body
  modify fun m => { m with calls := calls }
  return result

/-- Runs a call. -/
def within {α : Type} (frame : Frame) (body : Run α) : Run α := do
  if (← get).calls.depth ≥ maxDepth then failHere (bytesOf "stack overflow")
  else
    withCalls (fun c => { c with frames := frame :: c.frames, depth := c.depth + 1 }) body

/-- Runs a call that the script does not make itself. -/
def nested {α : Type} (body : Run α) : Run α := do
  if (← get).calls.nested ≥ maxNested then failHere (bytesOf "C stack overflow")
  else withCalls (fun c => { c with nested := c.nested + 1 }) body

/-- Runs a computation and catches what it raises; the calls that it leaves behind are ended. -/
def catching {α : Type} (body : Run α) : Run (Except Value α) := do
  let calls := (← get).calls
  try
    return .ok (← body)
  catch
    | .error v =>
      modify fun m => { m with calls := calls }
      return .error v
    | .exhausted => exhausted

/-- What comes of a turn of a loop. -/
inductive Turn (α β : Type) where
  /-- The loop goes on. -/
  | again (a : α)
  /-- The loop is over. -/
  | done (b : β)

/-- Goes round a loop until it is over, at most `turns` times. -/
def iterate {α β : Type} (turn : α → Run (Turn α β)) : (turns : Nat) → α → Run β
  | 0, _ => exhausted
  | turns + 1, a => do
    match ← turn a with
    | .again a => iterate turn turns a
    | .done b => return b

end Run

end Stencil.Script
