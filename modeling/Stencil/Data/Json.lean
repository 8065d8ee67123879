import Stencil.Data.Value
import Stencil.Text.Utf8

/-!
# Reading data from JSON

A text holds one JSON value with blanks around it.  What is wrong with a text is reported with the
line and the column of the byte at which it is noticed, counted in bytes.

Integers of 64 bits are kept as they are and all other numbers are floats.  A float is not rounded
once: the first digits, as many as 64 bits hold, are rounded to a float, and that is multiplied or
divided by a power of ten.
-/

namespace Stencil.Data.Json

-- powers as the core library has them, whatever else is imported
attribute [local instance (high)] instPowNat

open Text (Bytes)

/-! ### Places and faults -/

/-- What is wrong with a text. -/
inductive Mistake where
  | endInList | endInObject | endInString | endInValue
  | expectedColon | expectedCommaOrBracket | expectedCommaOrBrace | expectedIdent | expectedValue
  | invalidEscape | invalidNumber | outOfRange | controlCharacter | keyNotString
  | loneSurrogate | endOfEscape | trailingComma | trailingCharacters | tooDeep
  deriving DecidableEq, Repr

/-- The wording of a mistake. -/
def Mistake.message : Mistake → String
  | .endInList => "EOF while parsing a list"
  | .endInObject => "EOF while parsing an object"
  | .endInString => "EOF while parsing a string"
  | .endInValue => "EOF while parsing a value"
  | .expectedColon => "expected `:`"
  | .expectedCommaOrBracket => "expected `,` or `]`"
  | .expectedCommaOrBrace => "expected `,` or `\x7d`"
  | .expectedIdent => "expected ident"
  | .expectedValue => "expected value"
  | .invalidEscape => "invalid escape"
  | .invalidNumber => "invalid number"
  | .outOfRange => "number out of range"
  | .controlCharacter => "control character (\\u0000-\\u001F) found while parsing a string"
  | .keyNotString => "key must be a string"
  | .loneSurrogate => "lone leading surrogate in hex escape"
  | .endOfEscape => "unexpected end of hex escape"
  | .trailingComma => "trailing comma"
  | .trailingCharacters => "trailing characters"
  | .tooDeep => "recursion limit exceeded"

/-- A place in a text: how many lines end before it, and how many bytes of its own line. -/
structure Spot where
  /-- The lines before. -/
  lines : Nat := 0
  /-- The bytes before, on the line. -/
  column : Nat := 0
  deriving DecidableEq, Repr

/-- The place after a byte. -/
def Spot.after (s : Spot) (b : UInt8) : Spot :=
  if b = 0x0A then ⟨s.lines + 1, 0⟩ else ⟨s.lines, s.column + 1⟩

/-- A mistake and its place. -/
structure Fault where
  /-- The mistake. -/
  mistake : Mistake
  /-- The place. -/
  spot : Spot
  deriving DecidableEq, Repr

/-- The wording of a fault. -/
def Fault.message (f : Fault) : String :=
  let line := f.spot.lines + 1
  let column := f.spot.column
  f.mistake.message ++ s!" at line {line} column {column}"

/-- A text that has been read in part. -/
structure Cursor where
  /-- What is still to be read. -/
  ahead : Bytes
  /-- Where that starts. -/
  spot : Spot := {}
  deriving Repr

/-- Reading a part of a text. -/
abbrev Read := StateT Cursor (Except Fault)

namespace Read

/-- The next byte. -/
def peek : Read (Option UInt8) := return (← get).ahead.head?

/-- Takes the next byte. -/
def take : Read (Option UInt8) := do
  let c ← get
  match c.ahead with
  | [] => return none
  | b :: rest =>
    set (Cursor.mk rest (c.spot.after b))
    return some b

/-- Takes the next byte and forgets it. -/
def skip : Read Unit := do
  let _ ← take

/-- A mistake that is noticed behind what has been read. -/
def fault {α : Type} (m : Mistake) : Read α := do
  throw ⟨m, (← get).spot⟩

/-- A mistake that the next byte makes. -/
def faultAt {α : Type} (m : Mistake) : Read α := do
  let c ← get
  match c.ahead with
  | b :: _ => throw ⟨m, c.spot.after b⟩
  | [] => throw ⟨m, c.spot⟩

/-- The place after some bytes. -/
def spotAfter (s : Spot) (bs : Bytes) : Spot := bs.foldl Spot.after s

/-- Takes the bytes that `keep` holds for. -/
def takeWhile (keep : UInt8 → Bool) : Read Bytes := do
  let c ← get
  let taken := c.ahead.takeWhile keep
  set (Cursor.mk (c.ahead.dropWhile keep) (spotAfter c.spot taken))
  return taken

/-- A blank. -/
def isBlank (b : UInt8) : Bool := b == 0x20 || b == 0x0A || b == 0x09 || b == 0x0D

/-- The next byte that is no blank. -/
def pastBlanks : Read (Option UInt8) := do
  let _ ← takeWhile isBlank
  peek

end Read

/-- The byte of an ASCII character. -/
def byte (c : Char) : UInt8 := UInt8.ofNat c.toNat

/-! ### Strings -/

/-- The value of a hexadecimal digit. -/
def hexValue? (b : UInt8) : Option Nat :=
  if byte '0' ≤ b ∧ b ≤ byte '9' then some (b.toNat - 48)
  else if byte 'a' ≤ b ∧ b ≤ byte 'f' then some (b.toNat - 87)
  else if byte 'A' ≤ b ∧ b ≤ byte 'F' then some (b.toNat - 55)
  else none

/-- Four hexadecimal digits. -/
def hexEscape : Read Nat := do
  let c ← get
  match c.ahead with
  | b₁ :: b₂ :: b₃ :: b₄ :: rest =>
    set (Cursor.mk rest (Read.spotAfter c.spot [b₁, b₂, b₃, b₄]))
    match hexValue? b₁, hexValue? b₂, hexValue? b₃, hexValue? b₄ with
    | some d₁, some d₂, some d₃, some d₄ => return ((d₁ * 16 + d₂) * 16 + d₃) * 16 + d₄
    | _, _, _, _ => Read.fault .invalidEscape
  | short =>
    set (Cursor.mk [] (Read.spotAfter c.spot short))
    Read.fault .endInString

/-- Takes a byte that has to follow the first half of a character. -/
def secondHalf (b : UInt8) : Read Unit := do
  match ← Read.take with
  | some c => unless c = b do Read.fault .endOfEscape
  | none => Read.fault .endInString

/-- A character written with its code; a character above 65535 is written in two halves. -/
def codeEscape : Read Char := do
  let n ← hexEscape
  if 0xDC00 ≤ n ∧ n ≤ 0xDFFF then Read.fault .loneSurrogate
  else if n < 0xD800 ∨ 0xDBFF < n then return Char.ofNat n
  else
    secondHalf (byte '\\')
    secondHalf (byte 'u')
    let m ← hexEscape
    if m < 0xDC00 ∨ 0xDFFF < m then Read.fault .loneSurrogate
    else return Char.ofNat ((n - 0xD800) * 1024 + (m - 0xDC00) + 0x10000)

/-- The character after a backslash. -/
def escape : Read Char := do
  match ← Read.take with
  | none => Read.fault .endInString
  | some b =>
    if b = byte '"' then return '"'
    else if b = byte '\\' then return '\\'
    else if b = byte '/' then return '/'
    else if b = byte 'b' then return '\x08'
    else if b = byte 'f' then return '\x0c'
    else if b = byte 'n' then return '\n'
    else if b = byte 'r' then return '\r'
    else if b = byte 't' then return '\t'
    else if b = byte 'u' then codeEscape
    else Read.fault .invalidEscape

/-- The rest of a string after its opening quote; `done` is what has been read of it. -/
def stringFrom : (turns : Nat) → (done : Bytes) → Read String
  | 0, _ => Read.fault .endInString
  | turns + 1, done => do
    let plain ← Read.takeWhile fun b => b != byte '"' && b != byte '\\' && 0x20 ≤ b
    let done := done ++ plain
    match ← Read.peek with
    | none => Read.fault .endInString
    | some b =>
      Read.skip
      if b = byte '"' then return Text.stringLossy done
      else if b = byte '\\' then
        let c ← escape
        stringFrom turns (done ++ Text.encode [c])
      else Read.fault .controlCharacter

/-! ### Numbers -/

/-- A digit. -/
def isDigit (b : UInt8) : Bool := byte '0' ≤ b && b ≤ byte '9'

/-- The greatest integer of 64 bits without a sign. -/
def maxWhole : Nat := 2 ^ (64 : Nat) - 1

/-- The greatest exponent that is read. -/
def maxExponent : Nat := 2 ^ (31 : Nat) - 1

/-- Takes digits as long as the number that they continue has 64 bits: the number, and how many
have been taken. -/
def digitsFrom (value count : Nat) : Bytes → Nat × Nat
  | [] => (value, count)
  | b :: rest =>
    if isDigit b then
      let next := value * 10 + (b.toNat - 48)
      if next ≤ maxWhole then digitsFrom next (count + 1) rest else (value, count)
    else (value, count)

/-- Takes the digits that fit, and answers whether there are more. -/
def fittingDigits (value : Nat) : Read (Nat × Nat × Bool) := do
  let c ← get
  let (value, count) := digitsFrom value 0 c.ahead
  set (Cursor.mk (c.ahead.drop count) (Read.spotAfter c.spot (c.ahead.take count)))
  return (value, count, (← Read.peek).any isDigit)

/-- A power of ten. -/
def tenTo (n : Nat) : Binary64 := .ofDecimal false 1 n

/-- Multiplies by a power of ten; a power that no float holds is taken in steps. -/
def scale (x : Binary64) (exponent : Int) : (steps : Nat) → Option Binary64
  | 0 => some x
  | steps + 1 =>
    if 0 ≤ exponent then
      if exponent ≤ 308 then
        let y := x.mul (tenTo exponent.toNat)
        if y.isInfinite then none else some y
      else if x.isZero then some x else none
    else if -308 ≤ exponent then some (x.div (tenTo (-exponent).toNat))
    else if x.isZero then some x
    else scale (x.div (tenTo 308)) (exponent + 308) steps

/-- The float with some digits and an exponent. -/
def float (negative : Bool) (digits : Nat) (exponent : Int) : Read Value := do
  match scale (.ofInt digits) exponent 8 with
  | some x => return .float (if negative then x.neg else x)
  | none => Read.fault .outOfRange

/-- The exponent of a number, from its mark on. -/
def exponentPart (negative : Bool) (digits : Nat) (exponent : Int) : Read Value := do
  Read.skip
  let sign ← Read.peek
  if sign = some (byte '+') ∨ sign = some (byte '-') then Read.skip
  let down := sign = some (byte '-')
  match ← Read.take with
  | none => Read.fault .endInValue
  | some b =>
    if !isDigit b then Read.fault .invalidNumber
    else
      let c ← get
      let value (ds : Bytes) : Nat := ds.foldl (fun n d => n * 10 + (d.toNat - 48)) (b.toNat - 48)
      let all := c.ahead.takeWhile isDigit
      let fitting := (List.range (all.length + 1)).takeWhile fun n =>
        value (all.take n) ≤ maxExponent
      if fitting.length = all.length + 1 then
        let _ ← Read.takeWhile isDigit
        let n : Int := value all
        float negative digits (if down then exponent - n else exponent + n)
      else if digits ≠ 0 ∧ !down then
        let taken := all.take fitting.length
        set (Cursor.mk (c.ahead.drop taken.length) (Read.spotAfter c.spot taken))
        Read.fault .outOfRange
      else
        let _ ← Read.takeWhile isDigit
        return .float (.zero negative)

/-- A number after its digits and its fraction. -/
def afterDigits (negative : Bool) (digits : Nat) (exponent : Int) : Read Value := do
  let mark ← Read.peek
  if mark = some (byte 'e') ∨ mark = some (byte 'E') then exponentPart negative digits exponent
  else float negative digits exponent

/-- The fraction of a number, from its point on. -/
def fractionPart (negative : Bool) (digits : Nat) (exponent : Int) : Read Value := do
  Read.skip
  let (digits, count, more) ← fittingDigits digits
  if more then
    let _ ← Read.takeWhile isDigit
    afterDigits negative digits (exponent - count)
  else if count = 0 then
    match ← Read.peek with
    | some _ => Read.faultAt .invalidNumber
    | none => Read.faultAt .endInValue
  else afterDigits negative digits (exponent - count)

/-- A whole number, which is an integer if 64 bits hold it; zero with a minus is a float. -/
def whole (negative : Bool) (digits : Nat) : Value :=
  if negative then
    if digits = 0 ∨ digits > 2 ^ (63 : Nat) then .float (Binary64.ofInt digits).neg
    else .int (Int64.ofInt (-(digits : Int)))
  else if digits < 2 ^ (63 : Nat) then .int (Int64.ofInt digits)
  else .float (.ofInt digits)

/-- What follows the first digits of a number. -/
def numberFrom (negative : Bool) (digits : Nat) : Read Value := do
  let next ← Read.peek
  if next = some (byte '.') then fractionPart negative digits 0
  else if next = some (byte 'e') ∨ next = some (byte 'E') then exponentPart negative digits 0
  else return whole negative digits

/-- A number after its sign. -/
def number (negative : Bool) : Read Value := do
  match ← Read.take with
  | none => Read.fault .endInValue
  | some b =>
    if b = byte '0' then
      if (← Read.peek).any isDigit then Read.faultAt .invalidNumber else numberFrom negative 0
    else if isDigit b then
      let (digits, _, more) ← fittingDigits (b.toNat - 48)
      if more then
        let rest ← Read.takeWhile isDigit
        if (← Read.peek) = some (byte '.') then fractionPart negative digits rest.length
        else afterDigits negative digits rest.length
      else numberFrom negative digits
    else Read.fault .invalidNumber

/-! ### Values -/

/-- The rest of a word after its first letter. -/
def word (value : Value) : List Char → Read Value
  | [] => return value
  | c :: rest => do
    match ← Read.take with
    | none => Read.fault .endInValue
    | some b => if b = byte c then word value rest else Read.fault .expectedIdent

/-- The items of a list up to its closing bracket; `first` tells whether none has been read. -/
def items (value : Read Value) :
    (turns : Nat) → (first : Bool) → (done : List Value) → Read Value
  | 0, _, done => return .list done.reverse
  | turns + 1, first, done => do
    match ← Read.pastBlanks with
    | none => Read.faultAt .endInList
    | some b =>
      if b = byte ']' then
        Read.skip
        return .list done.reverse
      else if first then items value turns false ((← value) :: done)
      else if b = byte ',' then
        Read.skip
        match ← Read.pastBlanks with
        | none => Read.faultAt .endInValue
        | some c =>
          if c = byte ']' then Read.faultAt .trailingComma
          else items value turns false ((← value) :: done)
      else Read.faultAt .expectedCommaOrBracket

/-- A key and its value. -/
def entry (value : Read Value) (turns : Nat) : Read (String × Value) := do
  Read.skip
  let key ← stringFrom turns []
  match ← Read.pastBlanks with
  | none => Read.faultAt .endInObject
  | some b =>
    if b = byte ':' then
      Read.skip
      return (key, ← value)
    else Read.faultAt .expectedColon

/-- The entries of an object up to its closing brace; `first` tells whether none has been read. -/
def entries (value : Read Value) :
    (turns : Nat) → (first : Bool) → (done : List (String × Value)) → Read Value
  | 0, _, done => return .ofEntries done.reverse
  | turns + 1, first, done => do
    match ← Read.pastBlanks with
    | none => Read.faultAt .endInObject
    | some b =>
      if b = byte '\x7d' then
        Read.skip
        return .ofEntries done.reverse
      else if first then
        if b = byte '"' then entries value turns false ((← entry value turns) :: done)
        else Read.faultAt .keyNotString
      else if b = byte ',' then
        Read.skip
        match ← Read.pastBlanks with
        | none => Read.faultAt .endInValue
        | some c =>
          if c = byte '"' then entries value turns false ((← entry value turns) :: done)
          else if c = byte '\x7d' then Read.faultAt .trailingComma
          else Read.faultAt .keyNotString
      else Read.faultAt .expectedCommaOrBrace

/-- A value with lists and objects nested less than `depth` deep. -/
def value (turns : Nat) : (depth : Nat) → Read Value
  | 0 => Read.faultAt .tooDeep
  | depth + 1 => do
    match ← Read.pastBlanks with
    | none => Read.faultAt .endInValue
    | some b =>
      if b = byte '[' then
        nested depth
        items (value turns depth) turns true []
      else if b = byte '\x7b' then
        nested depth
        entries (value turns depth) turns true []
      else if isDigit b then number false
      else if b = byte '-' then
        Read.skip
        number true
      else if b = byte '"' then
        Read.skip
        return .text (← stringFrom turns [])
      else if b = byte 'n' then
        Read.skip
        word .none ['u', 'l', 'l']
      else if b = byte 't' then
        Read.skip
        word (.bool true) ['r', 'u', 'e']
      else if b = byte 'f' then
        Read.skip
        word (.bool false) ['a', 'l', 's', 'e']
      else Read.faultAt .expectedValue
where
  /-- Takes an opening bracket, if what it opens may be nested that deep. -/
  nested (depth : Nat) : Read Unit :=
    if depth = 0 then Read.faultAt .tooDeep else Read.skip

/-- How deep lists and objects can be nested, and one more. -/
def maxDepth : Nat := 128

/-- A value with nothing but blanks after it. -/
def wholeText (turns : Nat) : Read Value := do
  let v ← value turns maxDepth
  match ← Read.pastBlanks with
  | some _ => Read.faultAt .trailingCharacters
  | none => return v

/-- Reads a text as a value. -/
def read (text : Bytes) : Except Fault Value :=
  match (wholeText (text.length + 1)).run { ahead := text } with
  | .ok (v, _) => .ok v
  | .error fault => .error fault

end Stencil.Data.Json
