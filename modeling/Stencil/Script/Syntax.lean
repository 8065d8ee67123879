import Stencil.Script.Number

/-!
# Syntax trees

A script is a block of statements.  Names are kept as they are written; what a name means is
decided by what surrounds it.  A node that can fail when it runs carries the line that its failure
is reported on.
-/

namespace Stencil.Script

open Stencil.Text (Bytes)

/-- The operators with one operand. -/
inductive UnaryOp where
  | negate | not | length | bitNot
  deriving DecidableEq, Repr

/-- The operators on two numbers. -/
inductive ArithOp where
  | add | sub | mul | mod | pow | div | floorDiv
  deriving DecidableEq, Repr

/-- The operators on the bits of two integers. -/
inductive BitOp where
  | and | or | xor | shiftLeft | shiftRight
  deriving DecidableEq, Repr

/-- The comparisons. -/
inductive CompareOp where
  | equal | notEqual | less | lessEqual | greater | greaterEqual
  deriving DecidableEq, Repr

/-- The operators with two operands. -/
inductive BinaryOp where
  | arith (op : ArithOp)
  | bits (op : BitOp)
  | compare (op : CompareOp)
  | concat
  | and
  | or
  deriving DecidableEq, Repr

/-- What a local variable is declared to be. -/
inductive LocalKind where
  /-- An ordinary variable. -/
  | plain
  /-- One that is never assigned to. -/
  | const
  /-- One that is never assigned to, and whose value is closed at the end of its scope. -/
  | close
  deriving DecidableEq, Repr

mutual

/-- An expression. -/
inductive Expr where
  | nil
  | true
  | false
  | number (n : Number)
  | string (s : Bytes)
  /-- The extra arguments of the function. -/
  | dots
  | function (f : Function)
  /-- A variable. -/
  | name (x : Bytes) (line : Nat)
  /-- A field of an object. -/
  | index (object key : Expr) (line : Nat)
  /-- A call of a function. -/
  | call (callee : Expr) (args : List Expr) (line : Nat)
  /-- A call of a field of an object, with the object as the first argument. -/
  | method (object : Expr) (name : Bytes) (args : List Expr) (nameLine line : Nat)
  | unary (op : UnaryOp) (operand : Expr) (line : Nat)
  | binary (op : BinaryOp) (left right : Expr) (line : Nat)
  /-- A new table. -/
  | table (fields : List Field)
  /-- An expression in parentheses has one value. -/
  | paren (e : Expr)

/-- An item of a new table. -/
inductive Field where
  /-- The next item of the list. -/
  | item (value : Expr)
  /-- The value of a key. -/
  | entry (key value : Expr) (line : Nat)

/-- A function. -/
inductive Function where
  /-- Its parameters, whether it takes more arguments than those, and its body. -/
  | mk (params : List Bytes) (vararg : Bool) (body : List Stat)

/-- A statement. -/
inductive Stat where
  | assign (targets values : List Expr) (line : Nat)
  /-- A call whose results are dropped. -/
  | call (e : Expr)
  | «local» (names : List (Bytes × LocalKind)) (values : List Expr) (line : Nat)
  | localFunction (name : Bytes) (f : Function)
  | block (body : List Stat)
  | «while» (condition : Expr) (body : List Stat)
  | «repeat» (body : List Stat) (condition : Expr)
  | «if» (condition : Expr) (body : List Stat) (otherwise : List Stat)
  | numericFor (name : Bytes) (start stop : Expr) (step : Option Expr) (body : List Stat)
    (line : Nat)
  | genericFor (names : List Bytes) (values : List Expr) (body : List Stat) (valuesLine line : Nat)
  | «return» (values : List Expr)
  | «break»
  | goto (label : Bytes)
  | label (name : Bytes)

end

instance : Inhabited Expr := ⟨.nil⟩

/-- A sequence of statements. -/
abbrev Block := List Stat

namespace Expr

/-- Gives the line to a variable or a field: it is read when what follows it has been seen. -/
def settle (line : Nat) : Expr → Expr
  | .name x _ => .name x line
  | .index object key _ => .index object key line
  | e => e

/-- Whether a value can be assigned to an expression. -/
def isAssignable : Expr → Bool
  | .name .. | .index .. => Bool.true
  | _ => Bool.false

/-- Whether an expression is a call. -/
def isCall : Expr → Bool
  | .call .. | .method .. => Bool.true
  | _ => Bool.false

end Expr

end Stencil.Script
