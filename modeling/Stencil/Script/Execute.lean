import Stencil.Script.Evaluate
import Stencil.Script.Range

/-!
# Executing statements

A statement is left for the next one, or it hands control to something around it.  A block looks
for the label of a jump among its own statements before it hands the jump on; a jump back goes to
what surrounded the label when it was passed.  The value of a variable that is to be closed is
closed however its block is left, by what is raised too.
-/

namespace Stencil.Script

open Stencil.Text (Bytes bytesOf)

namespace Evaluator

variable (level : Evaluator)

/-! ### Closing -/

/-- What a value says about how it is closed. -/
def closer (v : Value) : Run Value := do
  match v with
  | .table id => Run.behaviour id "__close"
  | _ => return .nil

/-- Refuses a value that a variable is to close and that cannot be closed; `nil` and `false` need no
closing. -/
def checkClosable (x : Bytes) (v : Value) (line : Nat) : Run Unit := do
  let f ← closer v
  if v.isTrue && f == .nil then
    Run.atLine line
    Run.failHere (bytesOf "variable '" ++ x ++ bytesOf "' got a non-closable value")

/-- Closes a value, which is told what was raised, if anything was. -/
def close (v raised : Value) : Run Unit := do
  let f ← closer v
  let _ ← Run.nested (level.runCall f [v, raised] (some ⟨"metamethod", bytesOf "close"⟩))

/-- Makes the call that a function is left with, if there is one. -/
def finishCall (exit : Exit) : Run Exit := do
  match exit with
  | .tail f args => return .return (← level.runCall f args none)
  | exit => return exit

/-- Runs a part of a function, and closes a value when it is left.  A call that the function is left
with is made before that. -/
def closing (v : Value) (part : Run Exit) : Run Exit := do
  if v.isTrue then
    match ← Run.catching (part >>= level.finishCall) with
    | .ok exit =>
      level.close v .nil
      return exit
    | .error raised =>
      level.close v raised
      Run.raise raised
  else part

/-! ### Blocks -/

/-- A label that has been passed. -/
structure Passed where
  /-- Its name. -/
  name : Bytes
  /-- What surrounded it. -/
  env : Env
  /-- The statements after it. -/
  rest : List Stat

/-- A block that has run in part. -/
structure Progress where
  /-- What surrounds the next statement. -/
  env : Env
  /-- The statements to come. -/
  rest : List Stat
  /-- The labels that have been passed, the latest first. -/
  passed : List Passed := []

/-- The statements after a label. -/
def after? (name : Bytes) : List Stat → Option (List Stat)
  | [] => none
  | .label x :: rest => if x = name then some rest else after? name rest
  | _ :: rest => after? name rest

/-- Where a jump inside a block goes. -/
def Progress.jump? (p : Progress) (name : Bytes) : Option Progress :=
  match p.passed.find? fun l => l.name == name with
  | some l => some { p with env := l.env, rest := l.rest }
  | none =>
    (after? name p.rest).map fun rest =>
      { p with rest := rest, passed := ⟨name, p.env, rest⟩ :: p.passed }

/-- Leaves a block, or goes on with it after a jump inside it. -/
def Progress.leave (p : Progress) (exit : Exit) : Run.Turn Progress Exit :=
  match exit with
  | .goto name => (p.jump? name).elim (.done (.goto name)) .again
  | exit => .done exit

/-- Runs the next statement of a block.  After a variable that is to be closed the rest of the block
is a part of its own. -/
def blockTurn (stat : Env → Stat → Run Exit) (p : Progress) : Run (Run.Turn Progress Exit) := do
  match p.rest with
  | [] => return .done (.next p.env)
  | .label x :: rest =>
    return .again { p with rest := rest, passed := ⟨x, p.env, rest⟩ :: p.passed }
  | s :: rest =>
    let p := { p with rest := rest }
    match ← stat p.env s with
    | .next env => return .again { p with env := env }
    | .closing env v => return p.leave (← level.closing v (level.block env rest))
    | exit => return p.leave exit

/-- Runs a block. -/
def runBlock (stat : Env → Stat → Run Exit) (env : Env) (body : Block) : Run Exit :=
  Run.iterate (level.blockTurn stat) level.turns { env := env, rest := body }

/-! ### Assignments -/

/-- Where an assignment goes. -/
inductive Target where
  /-- To a variable. -/
  | cell (id : Nat)
  /-- To a field. -/
  | field (object key : Run Value) (site : Option Site)

/-- Evaluates what an assignment needs to know of its target. -/
def target (env : Env) (e : Expr) : Run Target := do
  match e with
  | .name x _ =>
    match env.find? x with
    | some id => return .cell id
    | none => return .field (globals env) (return .string x) (globalsSite env)
  | .index object key _ =>
    let o ← level.operand env object
    let k ← level.operand env key
    return .field o k (site? env object)
  | _ => return .field (return .nil) (return .nil) none

/-- Does an assignment. -/
def store (t : Target) (v : Value) : Run Unit := do
  match t with
  | .cell id => Run.setCell id v
  | .field object key site => writeField site (← object) (← key) v

/-- Evaluates the targets of an assignment from left to right. -/
def targets (env : Env) : List Expr → Run (List Target)
  | [] => return []
  | e :: rest => do
    let t ← level.target env e
    let ts ← targets env rest
    return t :: ts

/-- Does assignments from right to left; a target without a value gets `nil`. -/
def storeAll : List Target → List Value → Run Unit
  | [], _ => return ()
  | t :: ts, vs => do
    storeAll ts vs.tail
    store t (vs.headD .nil)

/-- Assigns values to targets. -/
def assign (env : Env) (left right : List Expr) (line : Nat) : Run Exit := do
  let ts ← level.targets env left
  let vs ← level.exprs env right
  Run.atLine line
  storeAll ts vs
  return .next env

/-! ### Declarations -/

/-- The variable that is to be closed, and its value. -/
def toClose? : List (Bytes × LocalKind) → List Value → Option (Bytes × Value)
  | [], _ => none
  | (x, kind) :: rest, vs =>
    if kind = .close then some (x, vs.headD .nil) else toClose? rest vs.tail

/-- Declares variables. -/
def declare (env : Env) (names : List (Bytes × LocalKind)) (values : List Expr) (line : Nat) :
    Run Exit := do
  let vs ← level.exprs env values
  let vars ← Run.newCells (names.map (·.1)) vs
  match toClose? names vs with
  | some (x, v) =>
    checkClosable x v line
    return .closing (env.declare vars) v
  | none => return .next (env.declare vars)

/-- Declares a function that knows its own name. -/
def declareFunction (env : Env) (x : Bytes) (f : Function) : Run Exit := do
  let id ← Run.newCell .nil
  let env := env.declare [(x, id)]
  Run.setCell id (← Run.newFunction ⟨f, env.all⟩)
  return .next env

/-! ### Loops -/

/-- What a loop does after its body. -/
def afterBody {α : Type} (env : Env) (exit : Exit) (again : α) : Run.Turn α Exit :=
  match exit with
  | .next _ => .again again
  | .break => .done (.next env)
  | exit => .done exit

/-- A loop with a condition before its body. -/
def runWhile (env : Env) (condition : Expr) (body : Block) : Run Exit :=
  Run.iterate (fun _ => do
    if (← level.expr env condition).isTrue then
      return afterBody env (← level.block env body) ()
    else return .done (.next env)) level.turns ()

/-- A loop with a condition after its body.  The condition sees the variables of the body, which end
after it. -/
def runRepeat (env : Env) (body : Block) (condition : Expr) : Run Exit :=
  Run.iterate (fun _ => do
    let exit ← level.block env (body ++ [.if condition [.break] []])
    return afterBody env exit ()) level.turns ()

/-- A loop over a range of numbers. -/
def runRange (env : Env) (x : Bytes) (range : Range) (body : Block) : Run Exit :=
  Run.iterate (fun range => do
    match Range.first? range with
    | some n =>
      let id ← Run.newCell (.number n)
      return afterBody env (← level.block (env.declare [(x, id)]) body) range.rest
    | none => return .done (.next env)) level.turns range

/-- A loop over numbers. -/
def numericFor (env : Env) (x : Bytes) (start stop : Expr) (step : Option Expr) (body : Block)
    (line : Nat) : Run Exit := do
  let a ← level.expr env start
  let b ← level.expr env stop
  let c ←
    match step with
    | some e => level.expr env e
    | none => pure (Value.int 1)
  Run.atLine line
  match Range.ofValues a b c with
  | .ok range => level.runRange env x range body
  | .error fault => Run.failHere (bytesOf fault.message)

/-- The turns of a loop over the values of an iterator, which is given its last value each time. -/
def runIterator (env : Env) (names : List Bytes) (f state control : Value) (body : Block)
    (line : Nat) : Run Exit :=
  let site : Site := ⟨"for iterator", bytesOf "for iterator"⟩
  Run.iterate (fun control => do
    Run.atLine line
    let results ← Run.nested (level.runCall f [state, control] (some site))
    match results.headD .nil with
    | .nil => return .done (.next env)
    | next =>
      let vars ← Run.newCells names results
      return afterBody env (← level.block (env.declare vars) body) next) level.turns control

/-- A loop over the values of an iterator.  A value may come with them that is closed after the
loop. -/
def genericFor (env : Env) (names : List Bytes) (values : List Expr) (body : Block)
    (valuesLine line : Nat) : Run Exit := do
  let vs ← level.exprs env values
  checkClosable (bytesOf "(for state)") (vs.getD 3 .nil) line
  level.closing (vs.getD 3 .nil)
    (level.runIterator env names (vs.getD 0 .nil) (vs.getD 1 .nil) (vs.getD 2 .nil) body valuesLine)

/-! ### Statements -/

/-- Leaves a function with a call that is made in its place, if a function of the script is
called.  Other functions are called from here. -/
def tailCall (f : Value) (args : List Value) (site : Option Site) : Run Exit := do
  match f with
  | .function _ => return .tail f args
  | f => return .return (← level.runCall f args site)

/-- Leaves a function. -/
def runReturn (env : Env) (values : List Expr) : Run Exit := do
  match values with
  | [.call callee args line] =>
    let f ← level.expr env callee
    let vs ← level.exprs env args
    Run.atLine line
    level.tailCall f vs (site? env callee)
  | [.method object name args nameLine line] =>
    let o ← level.expr env object
    Run.atLine nameLine
    let f ← level.readField (site? env object) o (.string name)
    let vs ← level.exprs env args
    Run.atLine line
    level.tailCall f (o :: vs) (some ⟨"method", name⟩)
  | _ => return .return (← level.exprs env values)

/-- Runs a block whose variables end with it. -/
def inner (env : Env) (body : Block) : Run Exit := do
  match ← level.block env body with
  | .next _ => return .next env
  | exit => return exit

/-- Runs a statement. -/
def runStat (env : Env) (s : Stat) : Run Exit := do
  match s with
  | .assign targets values line => level.assign env targets values line
  | .call e =>
    let _ ← level.runResults env e
    return .next env
  | .local names values line => level.declare env names values line
  | .localFunction x f => declareFunction env x f
  | .block body => level.inner env body
  | .while condition body => level.runWhile env condition body
  | .repeat body condition => level.runRepeat env body condition
  | .if condition body otherwise =>
    if (← level.expr env condition).isTrue then level.inner env body
    else level.inner env otherwise
  | .numericFor x start stop step body line => level.numericFor env x start stop step body line
  | .genericFor names values body valuesLine line =>
    level.genericFor env names values body valuesLine line
  | .return values => level.runReturn env values
  | .break => return .break
  | .goto label => return .goto label
  | .label _ => return .next env

/-! ### Levels -/

/-- The evaluator whose budget is used up. -/
def spent : Evaluator where
  index _ _ := Run.exhausted
  text _ := Run.exhausted
  call _ _ := Run.exhausted
  turns := 0
  callAt _ _ _ := Run.exhausted
  expr _ _ := Run.exhausted
  results _ _ := Run.exhausted
  block _ _ := Run.exhausted

/-- The evaluator with `depth` levels, whose loops go round at most `turns` times.  A level is put
together when it is asked for something. -/
def «at» (turns : Nat) : (depth : Nat) → Evaluator
  | 0 => spent
  | depth + 1 =>
    { index := fun object key => (Evaluator.at turns depth).readField none object key
      text := fun v => (Evaluator.at turns depth).runText v
      call := fun f args => Run.nested ((Evaluator.at turns depth).runCall f args none)
      turns := turns
      callAt := fun f args site => (Evaluator.at turns depth).runCall f args site
      expr := fun env e => (Evaluator.at turns depth).runExpr env e
      results := fun env e => (Evaluator.at turns depth).runResults env e
      block := fun env body =>
        (Evaluator.at turns depth).runBlock (Evaluator.at turns depth).runStat env body }

end Evaluator

end Stencil.Script
