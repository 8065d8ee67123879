import Stencil.Script.Arithmetic
import Stencil.Script.Machine

/-!
# The functions that a script finds ready

Each of them takes a list of arguments and gives a list of results.  An argument that is wrong is
reported by its number and by the name that the call used.  The functions that write to the block
tree belong to the host: what they raise is a failure and not a message of the script.
-/

namespace Stencil.Script

-- powers as the core library has them, whatever else is imported
attribute [local instance (high)] instPowNat

open Stencil.Text (Bytes bytesOf)

/-- What a native function can ask of the script that calls it. -/
structure Callbacks where
  /-- The field of an object. -/
  index : Value → Value → Run Value
  /-- The text of a value. -/
  text : Value → Run Bytes
  /-- The results of a call. -/
  call : Value → List Value → Run (List Value)

namespace Native

/-! ### Arguments -/

/-- Raises that an argument is wrong.  The object of a method call is not counted. -/
def badArgument {α : Type} (number : Nat) (why : Bytes) : Run α := do
  let (f, site) :=
    match (← get).calls.frames.head? with
    | some (.native f site) => (some f, site)
    | _ => (none, none)
  let name := ((site.map Site.name).or (f.map fun f => bytesOf f.name)).getD (bytesOf "?")
  let isMethod := site.any fun s => s.kind == "method"
  let tail := name ++ bytesOf "' (" ++ why ++ bytesOf ")"
  if isMethod && number = 1 then
    Run.failNative (bytesOf "calling '" ++ name ++ bytesOf "' on bad self (" ++ why ++ bytesOf ")")
  else
    let number := if isMethod then number - 1 else number
    Run.failNative (bytesOf s!"bad argument #{number} to '" ++ tail)

/-- The arguments of a call. -/
abbrev Args := List Value

/-- An argument, counted from one; one that is missing is `nil`. -/
def arg (args : Args) (number : Nat) : Value := args.getD (number - 1) .nil

/-- Raises that an argument has the wrong type. -/
def wrongType {α : Type} (args : Args) (number : Nat) (wanted : String) : Run α :=
  let got := ((args[number - 1]?).map Value.typeName).getD "no value"
  badArgument number (bytesOf (wanted ++ " expected, got " ++ got))

/-- An argument that may be anything but must be there. -/
def anyArg (args : Args) (number : Nat) : Run Value :=
  match args[number - 1]? with
  | some v => return v
  | none => badArgument number (bytesOf "value expected")

/-- An argument that is a table. -/
def tableArg (args : Args) (number : Nat) : Run Nat :=
  match arg args number with
  | .table id => return id
  | _ => wrongType args number "table"

/-- An argument that is a number. -/
def numberArg (args : Args) (number : Nat) : Run Number :=
  match (arg args number).toNumber? with
  | some n => return n
  | none => wrongType args number "number"

/-- An argument that is an integer. -/
def intArg (args : Args) (number : Nat) : Run Int64 := do
  let n ← numberArg args number
  match n.toInt? with
  | some i => return i
  | none => badArgument number (bytesOf "number has no integer representation")

/-- An argument that is an integer, or `otherwise` if it is missing. -/
def intArgOr (args : Args) (number : Nat) (otherwise : Int) : Run Int :=
  if arg args number = .nil then return otherwise
  else return (← intArg args number).toInt

/-- An argument that is a string; a number counts as its text. -/
def bytesArg (args : Args) (number : Nat) : Run Bytes :=
  match (arg args number).toBytes? with
  | some s => return s
  | none => wrongType args number "string"

/-- An argument that is a string, or an empty one if it is missing. -/
def bytesArgOrEmpty (args : Args) (number : Nat) : Run Bytes :=
  if arg args number = .nil then return [] else bytesArg args number

/-! ### Basic functions -/

/-- Raises a value; a message is put after the position of the call at `level`. -/
def raiseAt (v : Value) (level : Int) : Run (List Value) := do
  match v with
  | .string s =>
    if level > 0 then Run.fail ((← Run.positionOf level.toNat) ++ s) else Run.raise v
  | _ => Run.raise v

/-- Goes on if the first argument is true. -/
def runAssert (args : Args) : Run (List Value) := do
  if (arg args 1).isTrue then return args
  else
    let _ ← anyArg args 1
    raiseAt ((args[1]?).getD (.text "assertion failed!")) 1

/-- Selects arguments by their number, or counts them. -/
def runSelect (args : Args) : Run (List Value) := do
  match arg args 1 with
  | .string (0x23 :: _) => return [.int (args.length - 1)]
  | _ =>
    let i := (← intArg args 1).toInt
    let i := if i < 0 then args.length + i else min i args.length
    if i < 1 then badArgument 1 (bytesOf "index out of range")
    else return args.drop i.toNat

/-- Says how a table behaves. -/
def runSetmetatable (args : Args) : Run (List Value) := do
  let id ← tableArg args 1
  let behaviour : Option Nat ←
    match args.drop 1 with
    | .nil :: _ => pure none
    | .table b :: _ => pure (some b)
    | _ => wrongType args 2 "nil or table"
  if (← Run.behaviour id "__metatable") != .nil then
    Run.failNative (bytesOf "cannot change a protected metatable")
  else
    Run.modifyTable id fun t => { t with behaviour := behaviour }
    return [.table id]

/-- The value of a digit or a letter in bases up to 36. -/
def digitValue? (b : UInt8) : Option Nat :=
  let c := (Char.ofNat b.toNat).toLower
  if c.isDigit then some (c.toNat - '0'.toNat)
  else if c.isLower then some (c.toNat - 'a'.toNat + 10)
  else none

/-- Reads an integer in a base of up to 36. -/
def readInBase (base : Nat) (s : Bytes) : Option Int :=
  let (negative, digits) :=
    match Number.stripBlanks s with
    | 0x2D :: rest => (true, rest)
    | 0x2B :: rest => (false, rest)
    | rest => (false, rest)
  let value := digits.foldl (fun n b =>
    match n, digitValue? b with
    | some n, some d => if d < base then some (n * base + d) else none
    | _, _ => none) (some 0)
  if digits.isEmpty then none else value.map fun n => if negative then -(n : Int) else n

/-- Reads a number from a value. -/
def runTonumber (args : Args) : Run (List Value) := do
  if arg args 2 = .nil then
    match ← anyArg args 1 with
    | v@(.number _) => return [v]
    | .string s => return [((Number.read? s).map Value.number).getD .nil]
    | _ => return [.nil]
  else
    let base := (← intArg args 2).toInt
    match arg args 1 with
    | .string s =>
      if 2 ≤ base ∧ base ≤ 36 then
        return [((readInBase base.toNat s).map Value.int).getD .nil]
      else badArgument 2 (bytesOf "base out of range")
    | _ => wrongType args 1 "string"

/-- The entry of a table that comes after a key. -/
def runNext (args : Args) : Run (List Value) := do
  let id ← tableArg args 1
  match (← Run.table id).next? (arg args 2) with
  | some (some (key, value)) => return [key, value]
  | some none => return [.nil]
  | none => Run.fail (bytesOf "invalid key to 'next'")

/-- The next item of a list with its index. -/
def runIpairsNext (eval : Callbacks) (args : Args) : Run (List Value) := do
  let i := Value.number (.int ((← intArg args 2) + 1))
  match ← eval.index (arg args 1) i with
  | .nil => return [.nil]
  | v => return [i, v]

/-- Calls a function and catches what it raises. -/
def runPcall (eval : Callbacks) (args : Args) : Run (List Value) := do
  match args with
  | [] => Run.fail (bytesOf "not enough arguments to pcall")
  | f :: rest =>
    match ← Run.catching (eval.call f rest) with
    | .ok results => return .bool true :: results
    | .error v => return [.bool false, v]

/-! ### Mathematics -/

/-- The number without its sign. -/
def runAbs (args : Args) : Run (List Value) := do
  match arg args 1 with
  | .number (.int n) => return [.number (.int (if n < 0 then -n else n))]
  | _ => return [.number (.float (← numberArg args 1).toBinary64.abs)]

/-- The greatest integer that is not above a number. -/
def runFloor (args : Args) : Run (List Value) := do
  match arg args 1 with
  | .number (.int n) => return [.number (.int n)]
  | _ =>
    let x := Number.float (← numberArg args 1).toBinary64.floor
    return [.number ((x.toInt?.map Number.int).getD x)]

/-- The argument that comes first in an order, which `less` tells. -/
def pick (less : Value → Value → Value × Value) (best : Value) : Args → Run (List Value)
  | [] => return [best]
  | v :: rest => do
    let (a, b) := less best v
    match a.ordered? false b with
    | some better => pick less (if better then v else best) rest
    | none => Run.fail (unordered a b)

/-- The greatest or the least argument. -/
def runExtreme (less : Value → Value → Value × Value) (args : Args) : Run (List Value) := do
  pick less (← anyArg args 1) args.tail

/-- The kind of a number. -/
def runMathType (args : Args) : Run (List Value) := do
  match ← anyArg args 1 with
  | .number (.int _) => return [.text "integer"]
  | .number (.float _) => return [.text "float"]
  | _ => return [.nil]

/-! ### Strings -/

/-- Where a slice of a string starts; a negative position counts from the end. -/
def sliceStart (position : Int) (size : Nat) : Nat :=
  if position > 0 then position.toNat
  else if position = 0 ∨ position < -(size : Int) then 1
  else (size + position + 1).toNat

/-- Where a slice of a string stops; a negative position counts from the end. -/
def sliceStop (position : Int) (size : Nat) : Nat :=
  if position > size then size
  else if position ≥ 0 then position.toNat
  else if position < -(size : Int) then 0
  else (size + position + 1).toNat

/-- The bytes from one position to another, both counted from one. -/
def slice (s : Bytes) (start stop : Nat) : Bytes := (s.take stop).drop (start - 1)

/-- A part of a string. -/
def runSub (args : Args) : Run (List Value) := do
  let s ← bytesArg args 1
  let start := (← intArg args 2).toInt
  let stop ← intArgOr args 3 (-1)
  return [.string (slice s (sliceStart start s.length) (sliceStop stop s.length))]

/-- The numbers of the bytes of a string. -/
def runByte (args : Args) : Run (List Value) := do
  let s ← bytesArg args 1
  let start ← intArgOr args 2 1
  let first := sliceStart start s.length
  let stop ← intArgOr args 3 first
  return (slice s first (sliceStop stop s.length)).map fun b => .int b.toNat

/-- The string of some bytes. -/
def charsFrom (args : Args) : (number : Nat) → (count : Nat) → Run Bytes
  | _, 0 => return []
  | number, count + 1 => do
    let n := (← intArg args number).toInt
    if 0 ≤ n ∧ n ≤ 255 then return UInt8.ofNat n.toNat :: (← charsFrom args (number + 1) count)
    else badArgument number (bytesOf "value out of range")

/-- A string several times, with a separator. -/
def repeated (s separator : Bytes) : (count : Nat) → Bytes
  | 0 => []
  | count + 1 => (List.replicate count (s ++ separator)).flatten ++ s

/-- The longest string that the budget allows to be made in one step. -/
def maxRepeated : Nat := 2 ^ (28 : Nat)

/-- A string several times, with a separator. -/
def runRep (args : Args) : Run (List Value) := do
  let s ← bytesArg args 1
  let count := (← intArg args 2).toInt
  let separator ← bytesArgOrEmpty args 3
  if count ≤ 0 then return [.string []]
  else if (s.length + separator.length) * count ≥ 2 ^ (63 : Nat) then
    Run.failNative (bytesOf "resulting string too large")
  else if (s.length + separator.length) * count > maxRepeated then Run.exhausted
  else return [.string (repeated s separator count.toNat)]

/-- Changes the ASCII characters of a string. -/
def mapChars (f : Char → Char) (args : Args) : Run (List Value) := do
  let s ← bytesArg args 1
  return [.string (s.map fun b => if b < 0x80 then byteOf (f (Char.ofNat b.toNat)) else b)]
where
  /-- The byte of an ASCII character. -/
  byteOf (c : Char) : UInt8 := UInt8.ofNat c.toNat

/-! ### Lists -/

/-- The texts of the items of a list with a separator between them, from index `i` on. -/
def concatFrom (eval : Callbacks) (list : Value) (separator : Bytes) :
    (count : Nat) → (i : Int) → (done : Bytes) → Run Bytes
  | 0, _, done => return done
  | count + 1, i, done => do
    match (← eval.index list (.int i)).toBytes? with
    | some s =>
      let done := done ++ s
      concatFrom eval list separator count (i + 1) (if count = 0 then done else done ++ separator)
    | none => Run.failNative (bytesOf s!"invalid value (at index {i}) in table for 'concat'")

/-- Joins the items of a list. -/
def runConcat (eval : Callbacks) (args : Args) : Run (List Value) := do
  let id ← tableArg args 1
  let size := (← Run.table id).length
  let separator ← bytesArgOrEmpty args 2
  let start ← intArgOr args 3 1
  let stop ← intArgOr args 4 size
  let count := (stop - start + 1).toNat
  return [.string (← concatFrom eval (.table id) separator count start [])]

/-! ### Functions of the host -/

/-- A value that the host was to take as a string. -/
def notText (typeName : String) (why : String) : String :=
  s!"error converting Lua {typeName} to String ({why})"

/-- The string that the host takes a value for, or why it does not. -/
def hostText (v : Value) : Except String String :=
  match v with
  | .string s =>
    match Text.firstFault s with
    | some fault => .error (notText "string" fault.message)
    | none => .ok (Text.stringLossy s)
  | .number n => .ok n.text
  | .failure _ => .error (notText "error" "expected string or number")
  | v => .error (notText v.typeName "expected string or number")

/-- What the host says of a value that nothing has caught. -/
def uncaught (eval : Callbacks) (v : Value) : Run String := do
  match v with
  | .failure message => return message
  | v =>
    match ← Run.catching (eval.text v) with
    | .ok s => return "runtime error: " ++ Text.stringLossy s
    | .error _ => return "runtime error: " ++ Text.stringLossy v.plainText

/-- Writes the text of a value into the open block. -/
def runAppend (eval : Callbacks) (args : Args) : Run (List Value) := do
  match ← Run.catching (Run.within (.native .tostring none) (eval.text (arg args 1))) with
  | .ok s =>
    modify fun m => { m with tree := m.tree.append (Text.stringLossy s) }
    return []
  | .error v => Run.raise (.failure (← uncaught eval v))

/-- Opens a block. -/
def runOpen (args : Args) : Run (List Value) := do
  match hostText (arg args 1) with
  | .ok name =>
    modify fun m => { m with tree := (m.tree.openBlock name).2 }
    return []
  | .error why => Run.raise (.failure ("bad argument #1: " ++ why))

/-- Runs a native function. -/
def run (eval : Callbacks) (f : Native) (args : Args) : Run (List Value) := do
  match f with
  | .assert => runAssert args
  | .error => raiseAt (arg args 1) (← intArgOr args 2 1)
  | .ipairs => return [.native .ipairsNext, ← anyArg args 1, .int 0]
  | .ipairsNext => runIpairsNext eval args
  | .next => runNext args
  | .pairs => return [.native .next, ← anyArg args 1, .nil]
  | .pcall => runPcall eval args
  | .print => return []
  | .rawget =>
    let id ← tableArg args 1
    return [(← Run.table id).get (← anyArg args 2)]
  | .select => runSelect args
  | .setmetatable => runSetmetatable args
  | .tonumber => runTonumber args
  | .tostring => return [.string (← eval.text (← anyArg args 1))]
  | .type => return [.text (← anyArg args 1).typeName]
  | .mathAbs => runAbs args
  | .mathFloor => runFloor args
  | .mathMax => runExtreme (fun best v => (best, v)) args
  | .mathMin => runExtreme (fun best v => (v, best)) args
  | .mathType => runMathType args
  | .stringByte => runByte args
  | .stringChar => return [.string (← charsFrom args 1 args.length)]
  | .stringLen => return [.int (← bytesArg args 1).length]
  | .stringLower => mapChars Char.toLower args
  | .stringRep => runRep args
  | .stringReverse => return [.string (← bytesArg args 1).reverse]
  | .stringSub => runSub args
  | .stringUpper => mapChars Char.toUpper args
  | .tableConcat => runConcat eval args
  | .lookUp data globals =>
    match ← eval.index (.table data) (arg args 2) with
    | .nil => return [← eval.index (.table globals) (arg args 2)]
    | v => return [v]
  | .append => runAppend eval args
  | .openBlock => runOpen args
  | .closeBlock =>
    modify fun m => { m with tree := m.tree.close }
    return []
  | .trim =>
    modify fun m => { m with tree := m.tree.trim }
    return []
  | .render => return [.string (bytesOf (← get).tree.renderRoot)]

end Native

end Stencil.Script
