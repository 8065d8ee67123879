import Stencil.Script.Syntax
import Stencil.Script.Value

/-!
# Arithmetic of scripts

Operations on two integers give integers and wrap around, except division and powers, which are
always done with floats.  If either operand is a float, both are.  Division that is rounded down
and the remainder that belongs to it go toward minus infinity.  Bits are those of integers; a float
with an integer value counts as one.
-/

namespace Stencil.Script

open Stencil.Text (Bytes bytesOf)

/-- The name of an operation in messages. -/
def ArithOp.name : ArithOp → String
  | .add => "add"
  | .sub => "sub"
  | .mul => "mul"
  | .mod => "mod"
  | .pow => "pow"
  | .div => "div"
  | .floorDiv => "idiv"

/-- An operation on integers that has no answer. -/
inductive ArithFault where
  /-- A quotient by zero. -/
  | quotientByZero
  /-- A remainder by zero. -/
  | remainderByZero
  deriving DecidableEq, Repr

/-- The wording of a fault. -/
def ArithFault.message : ArithFault → String
  | .quotientByZero => "attempt to divide by zero"
  | .remainderByZero => "attempt to perform 'n%0'"

namespace Number

/-- An integer of 64 bits, from the lowest bits of `n`. -/
def wrap (n : Int) : Number := .int (Int64.ofInt n)

/-- An operation on floats. -/
def floatOp : ArithOp → Binary64 → Binary64 → Binary64
  | .add => .add
  | .sub => .sub
  | .mul => .mul
  | .mod => .floorRem
  | .pow => .pow
  | .div => .div
  | .floorDiv => .floorDiv

/-- An operation on two numbers. -/
def arith (op : ArithOp) (a b : Number) : Except ArithFault Number :=
  match op, a, b with
  | .add, .int m, .int n => .ok (.int (m + n))
  | .sub, .int m, .int n => .ok (.int (m - n))
  | .mul, .int m, .int n => .ok (.int (m * n))
  | .floorDiv, .int m, .int n =>
    if n = 0 then .error .quotientByZero else .ok (wrap (Int.fdiv m.toInt n.toInt))
  | .mod, .int m, .int n =>
    if n = 0 then .error .remainderByZero else .ok (wrap (Int.fmod m.toInt n.toInt))
  | op, a, b => .ok (.float (floatOp op a.toBinary64 b.toBinary64))

/-- The number with the other sign. -/
def negate : Number → Number
  | .int n => .int (-n)
  | .float x => .float x.neg

/-- The bits of an integer moved up by `n` places, or down if `n` is negative; zeros take the free
places. -/
def shift (bits : UInt64) (n : Int) : UInt64 :=
  if n ≤ -64 ∨ 64 ≤ n then 0
  else if 0 ≤ n then bits <<< UInt64.ofNat n.toNat
  else bits >>> UInt64.ofNat (-n).toNat

/-- An operation on the bits of two integers. -/
def bitOp (op : BitOp) (a b : Int64) : Number :=
  let x := a.toUInt64
  let y := b.toUInt64
  let bits :=
    match op with
    | .and => x &&& y
    | .or => x ||| y
    | .xor => x ^^^ y
    | .shiftLeft => shift x b.toInt
    | .shiftRight => shift x (-b.toInt)
  .int bits.toInt64

/-- An integer with all bits turned over. -/
def complement (a : Int64) : Number := .int (~~~a)

end Number

/-- How two values are ordered: whether the first is less than the second, or at most as great if
`orSame`.  Only two numbers or two strings have an order. -/
def Value.ordered? (orSame : Bool) : Value → Value → Option Bool
  | .number a, .number b => some (if orSame then a.le b else a.lt b)
  | .string a, .string b => some (if orSame then !bytesLt b a else bytesLt a b)
  | _, _ => none

/-- What is said of two values without an order. -/
def unordered (a b : Value) : Bytes :=
  if a.typeName = b.typeName then bytesOf ("attempt to compare two " ++ a.typeName ++ " values")
  else bytesOf ("attempt to compare " ++ a.typeName ++ " with " ++ b.typeName)

end Stencil.Script
