import Stencil.Script.Evaluator

/-!
# Evaluating expressions

The operands of an expression are evaluated from left to right.  A local variable is no exception,
but it is not copied: an operand that is a local variable has the value that the variable has when
the operation is done.
-/

namespace Stencil.Script

open Stencil.Text (Bytes bytesOf)

namespace Evaluator

variable (level : Evaluator)

/-! ### Names -/

/-- The variable that an expression is, if it is one of the function. -/
def ownVariable? (env : Env) : Expr → Option Nat
  | .name x _ => env.own.lookup x
  | .paren e => ownVariable? env e
  | _ => none

/-- Evaluates an operand, and answers how to get its value when it is used. -/
def operand (env : Env) (e : Expr) : Run (Run Value) := do
  match ownVariable? env e with
  | some id => return Run.cell id
  | none =>
    let v ← level.expr env e
    return (return v)

/-- The table of the global names. -/
def globals (env : Env) : Run Value := do
  match env.find? globalsName with
  | some id => Run.cell id
  | none => return .nil

/-- How the table of the global names is spoken of. -/
def globalsSite (env : Env) : Option Site := some ⟨variableKind env globalsName, globalsName⟩

/-- The value of a name. -/
def readName (env : Env) (x : Bytes) (line : Nat) : Run Value := do
  match env.find? x with
  | some id => Run.cell id
  | none =>
    Run.atLine line
    level.readField (globalsSite env) (← globals env) (.string x)

/-! ### Operators -/

/-- Arithmetic on two values.  Strings that read as numbers count as numbers. -/
def runArith (op : ArithOp) (a b : Value) (siteA siteB : Option Site) : Run Value := do
  match a, b with
  | .number m, .number n =>
    match Number.arith op m n with
    | .ok r => return .number r
    | .error fault => Run.failHere (bytesOf fault.message)
  | .string _, _ | _, .string _ =>
    match a.toNumber?, b.toNumber? with
    | some m, some n =>
      match Number.arith op m n with
      | .ok r => return .number r
      | .error fault => Run.fail (bytesOf fault.message)
    | _, _ =>
      Run.failHere (bytesOf
        ("attempt to " ++ op.name ++ " a '" ++ a.typeName ++ "' with a '" ++ b.typeName ++ "'"))
  | .number _, _ => Run.lacks "perform arithmetic on" b siteB
  | _, _ => Run.lacks "perform arithmetic on" a siteA

/-- Raises that a number is no integer. -/
def noInteger {α : Type} (site : Option Site) : Run α :=
  Run.failHere (bytesOf "number" ++ Site.shown site ++ bytesOf " has no integer representation")

/-- An operation on the bits of two values. -/
def runBits (op : BitOp) (a b : Value) (siteA siteB : Option Site) : Run Value := do
  match a, b with
  | .number m, .number n =>
    match m.toInt?, n.toInt? with
    | some m, some n => return .number (Number.bitOp op m n)
    | none, _ => noInteger siteA
    | _, none => noInteger siteB
  | .number _, _ => Run.lacks "perform bitwise operation on" b siteB
  | _, _ => Run.lacks "perform bitwise operation on" a siteA

/-- The order of two values. -/
def runOrder (orSame : Bool) (a b : Value) : Run Value :=
  match a.ordered? orSame b with
  | some r => return .bool r
  | none => Run.failHere (unordered a b)

/-- The comparison of two values. -/
def runCompare (op : CompareOp) (a b : Value) : Run Value :=
  match op with
  | .equal => return .bool (a.same b)
  | .notEqual => return .bool (!a.same b)
  | .less => runOrder false a b
  | .lessEqual => runOrder true a b
  | .greater => runOrder false b a
  | .greaterEqual => runOrder true b a

/-- Two texts, one after the other. -/
def runConcat (a b : Value) (siteA siteB : Option Site) : Run Value :=
  match a.toBytes?, b.toBytes? with
  | some s, some t => return .string (s ++ t)
  | some _, none => Run.lacks "concatenate" b siteB
  | none, _ => Run.lacks "concatenate" a siteA

/-- An operation on two values. -/
def runBinary (env : Env) (op : BinaryOp) (left right : Expr) (line : Nat) : Run Value := do
  match op with
  | .and =>
    let a ← level.expr env left
    if a.isTrue then level.expr env right else return a
  | .or =>
    let a ← level.expr env left
    if a.isTrue then return a else level.expr env right
  | .concat =>
    let a ← level.expr env left
    let b ← level.expr env right
    Run.atLine line
    runConcat a b (site? env left) (site? env right)
  | .arith op =>
    let a ← level.operand env left
    let b ← level.expr env right
    Run.atLine line
    runArith op (← a) b (site? env left) (site? env right)
  | .bits op =>
    let a ← level.operand env left
    let b ← level.expr env right
    Run.atLine line
    runBits op (← a) b (site? env left) (site? env right)
  | .compare op =>
    let a ← level.operand env left
    let b ← level.expr env right
    Run.atLine line
    runCompare op (← a) b

/-- An operation on one value. -/
def runUnary (op : UnaryOp) (v : Value) (site : Option Site) : Run Value := do
  match op with
  | .not => return .bool !v.isTrue
  | .negate =>
    match v with
    | .number n => return .number n.negate
    | .string _ =>
      match v.toNumber? with
      | some n => return .number n.negate
      | none => Run.failHere (bytesOf "attempt to unm a 'string' with a 'string'")
    | _ => Run.lacks "perform arithmetic on" v site
  | .length =>
    match v with
    | .string s => return .int s.length
    | .table id => return .int (← Run.table id).length
    | _ => Run.lacks "get length of" v site
  | .bitNot =>
    match v with
    | .number n =>
      match n.toInt? with
      | some i => return .number (Number.complement i)
      | none => noInteger site
    | _ => Run.lacks "perform bitwise operation on" v site

/-! ### Lists and tables -/

/-- The values of a list of expressions; the last one can have any number of them. -/
def exprs (env : Env) : List Expr → Run (List Value)
  | [] => return []
  | [e] => level.results env e
  | e :: rest => do
    let v ← level.expr env e
    let vs ← exprs env rest
    return v :: vs

/-- Evaluates the items of a new table; entries are set at once, and the values of list items are
answered. -/
def fields (env : Env) (table : Value) : List Field → Run (List Value)
  | [] => return []
  | [.item e] => level.results env e
  | .item e :: rest => do
    let v ← level.expr env e
    let vs ← fields env table rest
    return v :: vs
  | .entry key value line :: rest => do
    let k ← level.operand env key
    let v ← level.expr env value
    Run.atLine line
    writeField none table (← k) v
    fields env table rest

/-- A new table. -/
def runTable (env : Env) (items : List Field) : Run Value := do
  let t ← Run.newTable {}
  let vs ← level.fields env t items
  if let .table id := t then Run.modifyTable id fun t => t.withItems vs
  return t

/-! ### Expressions -/

/-- The results of a call. -/
def runResults (env : Env) (e : Expr) : Run (List Value) := do
  match e with
  | .dots => return env.extra
  | .call callee args line =>
    let f ← level.expr env callee
    let vs ← level.exprs env args
    Run.atLine line
    level.runCall f vs (site? env callee)
  | .method object name args nameLine line =>
    let o ← level.expr env object
    Run.atLine nameLine
    let f ← level.readField (site? env object) o (.string name)
    let vs ← level.exprs env args
    Run.atLine line
    level.runCall f (o :: vs) (some ⟨"method", name⟩)
  | e => return [← level.expr env e]

/-- The value of an expression. -/
def runExpr (env : Env) (e : Expr) : Run Value := do
  match e with
  | .nil => return .nil
  | .true => return .bool true
  | .false => return .bool false
  | .number n => return .number n
  | .string s => return .string s
  | .dots => return env.extra.headD .nil
  | .function f => Run.newFunction ⟨f, env.all⟩
  | .name x line => level.readName env x line
  | .index object key line =>
    let o ← level.operand env object
    let k ← level.expr env key
    Run.atLine line
    level.readField (site? env object) (← o) k
  | .call .. | .method .. => return (← level.runResults env e).headD .nil
  | .unary op operand line =>
    let v ← level.expr env operand
    Run.atLine line
    runUnary op v (site? env operand)
  | .binary op left right line => level.runBinary env op left right line
  | .table items => level.runTable env items
  | .paren e => level.expr env e

end Evaluator

end Stencil.Script
