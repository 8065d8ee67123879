import Stencil.Script.Number

/-!
# Values of scripts

Tables and functions have an identity: a value holds the number under which the machine keeps
them.  Functions that are not written in the script are named by the constructors of `Native`.
-/

namespace Stencil.Script

open Stencil.Text (Bytes bytesOf)

/-- The functions that a script finds ready. -/
inductive Native where
  | assert | error | ipairs | ipairsNext | next | pairs | pcall | print | rawget | select
  | setmetatable | tonumber | tostring | type
  | mathAbs | mathFloor | mathMax | mathMin | mathType
  | stringByte | stringChar | stringLen | stringLower | stringRep | stringReverse | stringSub
  | stringUpper
  | tableConcat
  /-- Looks a name up in the data, and in the globals if the data has no value for it. -/
  | lookUp (data globals : Nat)
  /-- Writes the text of a value into the open block. -/
  | append
  /-- Opens a block. -/
  | openBlock
  /-- Closes the open block. -/
  | closeBlock
  /-- Removes the blanks that the open block ends with. -/
  | trim
  /-- Gives the text of the root block. -/
  | render
  deriving DecidableEq, Repr

/-- The name of a function in messages, if nothing at the call tells one. -/
def Native.name : Native → String
  | .assert => "assert"
  | .error => "error"
  | .ipairs => "ipairs"
  | .next => "next"
  | .pairs => "pairs"
  | .pcall => "pcall"
  | .print => "print"
  | .rawget => "rawget"
  | .select => "select"
  | .setmetatable => "setmetatable"
  | .tonumber => "tonumber"
  | .tostring => "tostring"
  | .type => "type"
  | .mathAbs => "math.abs"
  | .mathFloor => "math.floor"
  | .mathMax => "math.max"
  | .mathMin => "math.min"
  | .mathType => "math.type"
  | .stringByte => "string.byte"
  | .stringChar => "string.char"
  | .stringLen => "string.len"
  | .stringLower => "string.lower"
  | .stringRep => "string.rep"
  | .stringReverse => "string.reverse"
  | .stringSub => "string.sub"
  | .stringUpper => "string.upper"
  | .tableConcat => "table.concat"
  | .ipairsNext | .lookUp .. | .append | .openBlock | .closeBlock | .trim | .render => "?"

/-- A value. -/
inductive Value where
  | nil
  | bool (b : Bool)
  | number (n : Number)
  | string (s : Bytes)
  | table (id : Nat)
  /-- A function of the script. -/
  | function (id : Nat)
  | native (f : Native)
  /-- An error of the host, with its message. -/
  | failure (message : String)
  deriving DecidableEq, Repr, Inhabited

namespace Value

/-- A string. -/
def text (s : String) : Value := .string (bytesOf s)

/-- An integer. -/
def int (n : Int) : Value := .number (.int (Int64.ofInt n))

/-- Whether a value counts as true: everything but `nil` and `false` does. -/
def isTrue : Value → Bool
  | .nil | .bool false => false
  | _ => true

/-- The name of the type of a value. -/
def typeName : Value → String
  | .nil => "nil"
  | .bool _ => "boolean"
  | .number _ => "number"
  | .string _ => "string"
  | .table _ => "table"
  | .function _ | .native _ => "function"
  | .failure _ => "userdata"

/-- Equality of values: numbers by their value, tables and functions by their identity. -/
def same : Value → Value → Bool
  | .number a, .number b => a.same b
  | a, b => a == b

/-- The form under which a table keeps a key: a float with an integer value is that integer. -/
def asKey : Value → Value
  | .number n =>
    match n.toInt? with
    | some i => .number (.int i)
    | none => .number n
  | v => v

/-- The number that a value is, or that a string reads as. -/
def toNumber? : Value → Option Number
  | .number n => some n
  | .string s => Number.read? s
  | _ => none

/-- The integer that a value is, or that a string reads as. -/
def toInt? (v : Value) : Option Int64 := v.toNumber?.bind Number.toInt?

/-- The bytes of a string, or the text of a number. -/
def toBytes? : Value → Option Bytes
  | .string s => some s
  | .number n => some (bytesOf n.text)
  | _ => none

/-- The text of a value that is always written in the same way; tables and functions are told by
their identity. -/
def plainText : Value → Bytes
  | .nil => bytesOf "nil"
  | .bool true => bytesOf "true"
  | .bool false => bytesOf "false"
  | .number n => bytesOf n.text
  | .string s => s
  | .table id => bytesOf s!"table: {id}"
  | .function id => bytesOf s!"function: {id}"
  | .native f => bytesOf ("function: builtin: " ++ f.name)
  | .failure message => bytesOf message

end Value

/-- Order of strings, byte by byte. -/
def bytesLt : Bytes → Bytes → Bool
  | _, [] => false
  | [], _ :: _ => true
  | a :: as, b :: bs => a < b || (a == b && bytesLt as bs)

end Stencil.Script
