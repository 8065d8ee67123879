import Stencil.Decimal.Notation
import Stencil.Decimal.Numeral
import Stencil.Text.Utf8

/-!
# Numbers of the script language

A number is an integer of 64 bits or a floating-point number.  Integer arithmetic wraps around.
Comparison between the two kinds is exact: an integer is never rounded to be compared.
-/

namespace Stencil.Script

-- powers as the core library has them, whatever else is imported
attribute [local instance (high)] instPowNat

open Stencil.Text (Bytes)

/-- A number. -/
inductive Number where
  /-- An integer. -/
  | int (n : Int64)
  /-- A floating-point number. -/
  | float (x : Binary64)
  deriving DecidableEq, Repr, Inhabited

namespace Number

/-- Whether an integer has 64 bits. -/
def fits (n : Int) : Bool := -(2 ^ (63 : Nat) : Int) ≤ n && n < (2 ^ (63 : Nat) : Int)

/-- The number as a floating-point number. -/
def toBinary64 : Number → Binary64
  | .int n => .ofInt n.toInt
  | .float x => x

/-- The integer of 64 bits that a number is equal to. -/
def toInt? : Number → Option Int64
  | .int n => some n
  | .float x => (x.toInt?.filter fits).map Int64.ofInt

/-- The text of a number: an integer in digits, a float with fourteen significant digits and with
`.0` after it if nothing else tells it from an integer. -/
def text : Number → String
  | .int n => String.ofList (Decimal.signed n.toInt)
  | .float x =>
    let digits := Decimal.general 14 x
    if digits.toList.all fun c => c.isDigit || c == '-' then digits ++ ".0" else digits

/-- The place of a finite float between the integers, in an order with the integers: twice the
value of an integer, and the odd number between two integers for anything that lies there. -/
def doubled (x : Binary64) : Int :=
  let low := x.floorInt
  if low = x.ceilInt then 2 * low else 2 * low + 1

/-- Order of an integer and a float. -/
def intLtFloat (n : Int64) (x : Binary64) : Bool :=
  if x.isNaN then false
  else if x.isInfinite then !x.negative
  else 2 * n.toInt < doubled x

/-- Order of a float and an integer. -/
def floatLtInt (x : Binary64) (n : Int64) : Bool :=
  if x.isNaN then false
  else if x.isInfinite then x.negative
  else doubled x < 2 * n.toInt

/-- Numeric order. -/
def lt : Number → Number → Bool
  | .int a, .int b => a < b
  | .float a, .float b => a.lt b
  | .int a, .float b => intLtFloat a b
  | .float a, .int b => floatLtInt a b

/-- Numeric equality. -/
def same : Number → Number → Bool
  | .int a, .int b => a == b
  | .float a, .float b => a.same b
  | .int a, .float b => (Number.float b).toInt? == some a
  | .float a, .int b => (Number.float a).toInt? == some b

/-- Numeric order or equality. -/
def le (a b : Number) : Bool := a.lt b || a.same b

/-- A number that is not the same as itself. -/
def isNaN : Number → Bool
  | .int _ => false
  | .float x => x.isNaN

/-- The blanks around a numeral. -/
def isBlankByte (b : UInt8) : Bool := (9 ≤ b && b ≤ 13) || b == 0x20

/-- Bytes as the characters with the same numbers. -/
def asChars (bs : Bytes) : List Char := bs.map fun b => Char.ofNat b.toNat

/-- Bytes without the blanks at either end. -/
def stripBlanks (bs : Bytes) : Bytes :=
  ((bs.dropWhile isBlankByte).reverse.dropWhile isBlankByte).reverse

/-- What stands after the mark of a hexadecimal numeral. -/
def afterHexMark? : List Char → Option (List Char)
  | '0' :: 'x' :: rest => some rest
  | '0' :: 'X' :: rest => some rest
  | _ => none

/-- Reads an integer.  Hexadecimal digits wrap around; a decimal integer that is too large is
none. -/
def readInt? (negative : Bool) (s : List Char) : Option Int64 :=
  match afterHexMark? s with
  | some digits =>
    match Decimal.readDigits 16 {} digits with
    | (run, []) =>
      if run.count = 0 then none
      else some (Int64.ofInt (if negative then -(run.value : Int) else run.value))
    | _ => none
  | none =>
    match Decimal.readDigits 10 {} s with
    | (run, []) =>
      let value : Int := if negative then -(run.value : Int) else run.value
      if run.count = 0 || !fits value then none else some (Int64.ofInt value)
    | _ => none

/-- Reads a float. -/
def readFloat? (negative : Bool) (s : List Char) : Option Binary64 :=
  match afterHexMark? s with
  | some digits => Decimal.readHexadecimal negative digits
  | none => Decimal.readDecimal negative s

/-- Reads a numeral with blanks and a sign before it and blanks after it. -/
def read? (bs : Bytes) : Option Number :=
  let (negative, body) := Decimal.readSign (asChars (stripBlanks bs))
  match readInt? negative body with
  | some n => some (.int n)
  | none => (readFloat? negative body).map .float

end Number

end Stencil.Script
