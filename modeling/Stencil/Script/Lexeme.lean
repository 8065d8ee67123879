import Stencil.Script.Token

/-!
# Reading text as lexemes

A script is read one step at a time.  A step passes over a blank, a line break or a comment, or it
reads the longest token that the text starts with.  Every step takes at least one byte, so a text
has no more steps than bytes.

A line break is one byte, or a line feed and a carriage return in either order; it counts as one
line and stands for a line feed inside a string.
-/

namespace Stencil.Script

-- powers as the core library has them, whatever else is imported
attribute [local instance (high)] instPowNat

open Stencil.Text (Bytes bytesOf)

/-- The byte of an ASCII character. -/
def byte (c : Char) : UInt8 := UInt8.ofNat c.toNat

/-! ### Classes of bytes -/

/-- A line feed or a carriage return. -/
def isBreak (b : UInt8) : Bool := b == byte '\n' || b == byte '\r'

/-- A decimal digit. -/
def isDigit (b : UInt8) : Bool := byte '0' ≤ b && b ≤ byte '9'

/-- A byte that a name can start with. -/
def isNameStart (b : UInt8) : Bool :=
  (byte 'a' ≤ b && b ≤ byte 'z') || (byte 'A' ≤ b && b ≤ byte 'Z') || b == byte '_'

/-- A byte that a name can go on with. -/
def isNamePart (b : UInt8) : Bool := isNameStart b || isDigit b

/-- The value of a hexadecimal digit. -/
def hexValue? (b : UInt8) : Option Nat := Decimal.hexValue? (Char.ofNat b.toNat)

/-- What is left after a line break that starts with `b`. -/
def afterBreak (b : UInt8) : Bytes → Bytes
  | [] => []
  | c :: rest => if isBreak c && c != b then rest else c :: rest

/-! ### Escapes in strings -/

/-- What an escape stands for. -/
inductive Escape where
  /-- Bytes that take its place, the line breaks it has passed, and what follows. -/
  | bytes (value : Bytes) (lines : Nat) (rest : Bytes)
  /-- Nothing; `spelled` is the escape up to the byte that is wrong in it. -/
  | fault (f : LexFault) (spelled : Bytes)

/-- The bytes of a code point of up to 31 bits. -/
def codePointBytes (n : Nat) : Bytes :=
  let tail (k : Nat) : UInt8 := UInt8.ofNat (0x80 + n / 64 ^ k % 64)
  if n < 0x80 then [UInt8.ofNat n]
  else if n < 0x800 then [UInt8.ofNat (0xC0 + n / 64), tail 0]
  else if n < 0x10000 then [UInt8.ofNat (0xE0 + n / 64 ^ (2 : Nat)), tail 1, tail 0]
  else if n < 0x200000 then [UInt8.ofNat (0xF0 + n / 64 ^ (3 : Nat)), tail 2, tail 1, tail 0]
  else if n < 0x4000000 then [UInt8.ofNat (0xF8 + n / 64 ^ (4 : Nat)), tail 3, tail 2, tail 1, tail 0]
  else [UInt8.ofNat (0xFC + n / 64 ^ (5 : Nat)), tail 4, tail 3, tail 2, tail 1, tail 0]

/-- A byte escape of two hexadecimal digits. -/
def hexEscape (spelled : Bytes) (s : Bytes) : Escape :=
  match s with
  | [] => .fault .hexExpected spelled
  | a :: rest =>
    match hexValue? a, rest with
    | none, _ => .fault .hexExpected (spelled ++ [a])
    | some _, [] => .fault .hexExpected (spelled ++ [a])
    | some high, b :: rest =>
      match hexValue? b with
      | none => .fault .hexExpected (spelled ++ [a, b])
      | some low => .bytes [UInt8.ofNat (16 * high + low)] 0 rest

/-- The digits of a code point after the first one, and its closing brace. -/
def codePointDigits (spelled : Bytes) (value : Nat) : Bytes → Escape
  | [] => .fault .missingClose spelled
  | b :: rest =>
    match hexValue? b with
    | some d =>
      if value ≤ 0x7FFFFFF then codePointDigits (spelled ++ [b]) (16 * value + d) rest
      else .fault .codePointTooLarge (spelled ++ [b])
    | none =>
      if b = byte '\x7d' then .bytes (codePointBytes value) 0 rest
      else .fault .missingClose (spelled ++ [b])

/-- An escape of a code point in braces. -/
def codePointEscape (spelled : Bytes) (s : Bytes) : Escape :=
  match s with
  | [] => .fault .missingOpen spelled
  | a :: rest =>
    let spelled := spelled ++ [a]
    if a != byte '\x7b' then .fault .missingOpen spelled
    else
      match rest with
      | [] => .fault .hexExpected spelled
      | b :: rest =>
        match hexValue? b with
        | some d => codePointDigits (spelled ++ [b]) d rest
        | none => .fault .hexExpected (spelled ++ [b])

/-- A byte escape of up to three decimal digits. -/
def decimalEscape (spelled : Bytes) (s : Bytes) : Escape :=
  let digits := (s.take 3).takeWhile isDigit
  let rest := s.drop digits.length
  let value := digits.foldl (fun n d => 10 * n + (d.toNat - '0'.toNat)) 0
  if value ≤ 255 then .bytes [UInt8.ofNat value] 0 rest
  else .fault .decimalTooLarge (spelled ++ digits ++ rest.take 1)

/-- Passes over blanks and counts the line breaks among them. -/
def passBlanks : Bytes → Nat × Bytes
  | [] => (0, [])
  | [b] => if isBreak b then (1, []) else if Number.isBlankByte b then (0, []) else (0, [b])
  | b :: c :: rest =>
    if isBreak b then
      if isBreak c && c != b then
        let (lines, rest) := passBlanks rest
        (lines + 1, rest)
      else
        let (lines, rest) := passBlanks (c :: rest)
        (lines + 1, rest)
    else if Number.isBlankByte b then passBlanks (c :: rest)
    else (0, b :: c :: rest)

/-- The escapes of one letter. -/
def letterEscape? (b : UInt8) : Option UInt8 :=
  if b = byte 'a' then some 7
  else if b = byte 'b' then some 8
  else if b = byte 'f' then some 12
  else if b = byte 'n' then some 10
  else if b = byte 'r' then some 13
  else if b = byte 't' then some 9
  else if b = byte 'v' then some 11
  else if b = byte '\\' ∨ b = byte '"' ∨ b = byte '\'' then some b
  else none

/-- Reads what follows a backslash. -/
def readEscape (s : Bytes) : Escape :=
  match s with
  | [] => .bytes [] 0 []
  | b :: rest =>
    let spelled := [byte '\\', b]
    match letterEscape? b with
    | some value => .bytes [value] 0 rest
    | none =>
      if isBreak b then .bytes [byte '\n'] 1 (afterBreak b rest)
      else if b = byte 'x' then hexEscape spelled rest
      else if b = byte 'u' then codePointEscape spelled rest
      else if b = byte 'z' then
        let (lines, rest) := passBlanks rest
        .bytes [] lines rest
      else if isDigit b then decimalEscape [byte '\\'] s
      else .fault .invalidEscape spelled

/-! ### Strings -/

/-- What the text starts with. -/
inductive Start where
  /-- Something that is no token, with its line breaks. -/
  | skip (lines : Nat) (rest : Bytes)
  /-- A token, with its line breaks. -/
  | token (t : Token) (lines : Nat) (rest : Bytes)
  /-- A fault, after so many line breaks; `near` as in `Token.invalid`. -/
  | fault (f : LexFault) (near : Option Bytes) (lines : Nat)

/-- What has been read of a string: its delimiter and what it holds, the last byte first. -/
def soFar (delimiter : UInt8) (value : Bytes) : Bytes := delimiter :: value.reverse

/-- Reads a string up to its delimiter in at most `steps` steps, each of which takes a byte;
`value` is what it holds so far, the last byte first. -/
def readString :
    (steps : Nat) → (delimiter : UInt8) → (value : Bytes) → (lines : Nat) → Bytes → Start
  | 0, _, _, lines, _ | _, _, _, lines, [] => .fault .unfinishedString none lines
  | steps + 1, delimiter, value, lines, b :: rest =>
    if b = delimiter then
      .token (.string value.reverse (soFar delimiter value ++ [delimiter])) lines rest
    else if isBreak b then .fault .unfinishedString (some (soFar delimiter value)) lines
    else if b = byte '\\' then
      match readEscape rest with
      | .bytes bs more rest =>
        readString steps delimiter (bs.reverse ++ value) (lines + more) rest
      | .fault f spelled => .fault f (some (soFar delimiter value ++ spelled)) lines
    else readString steps delimiter (b :: value) lines rest

/-- The bytes between the two brackets of a long delimiter. -/
def levelMarks (level : Nat) : Bytes := List.replicate level (byte '=')

/-- The level of a long bracket after its first bracket, and what follows its second one.  Without
a second one there is only the number of equal signs. -/
def longBracket (s : Bytes) : Nat × Option Bytes :=
  let level := (s.takeWhile (· == byte '=')).length
  match s.drop level with
  | b :: rest => if b = byte '[' then (level, some rest) else (level, none)
  | [] => (level, none)

/-- Text in long brackets that has been read. -/
structure LongText where
  /-- What it holds. -/
  value : Bytes
  /-- Its line breaks. -/
  lines : Nat
  /-- What follows it, if it ends. -/
  rest : Option Bytes

/-- Reads up to the closing bracket `close`; `value` is the text so far, the last byte first. -/
def readLongFrom (close : Bytes) (value : Bytes) (lines : Nat) : Bytes → LongText
  | [] => ⟨value.reverse, lines, none⟩
  | [b] =>
    if isBreak b then ⟨(byte '\n' :: value).reverse, lines + 1, none⟩
    else ⟨(b :: value).reverse, lines, none⟩
  | b :: c :: rest =>
    if close.isPrefixOf (b :: c :: rest) then
      ⟨value.reverse, lines, some ((b :: c :: rest).drop close.length)⟩
    else if isBreak b then
      if isBreak c && c != b then readLongFrom close (byte '\n' :: value) (lines + 1) rest
      else readLongFrom close (byte '\n' :: value) (lines + 1) (c :: rest)
    else readLongFrom close (b :: value) lines (c :: rest)

/-- Reads a long text after its opening bracket; a line break that it starts with is left out. -/
def readLong (level : Nat) (s : Bytes) : LongText :=
  let close := [byte ']'] ++ levelMarks level ++ [byte ']']
  match s with
  | b :: rest =>
    if isBreak b then readLongFrom close [] 1 (afterBreak b rest) else readLongFrom close [] 0 s
  | [] => readLongFrom close [] 0 []

/-- Reads what follows an opening bracket. -/
def readBracket (line : Nat) (s : Bytes) : Start :=
  match longBracket s with
  | (level, some inside) =>
    let text := readLong level inside
    match text.rest with
    | some rest =>
      let spelled :=
        [byte '['] ++ levelMarks level ++ [byte '['] ++ text.value ++
          [byte ']'] ++ levelMarks level ++ [byte ']']
      .token (.string text.value spelled) text.lines rest
    | none => .fault (.unfinishedLong "string" line) none text.lines
  | (0, none) => .token (.mark .openBracket) 0 s
  | (level, none) => .fault .longDelimiter (some (byte '[' :: levelMarks level)) 0

/-- Reads a comment after its two dashes. -/
def readComment (line : Nat) (s : Bytes) : Start :=
  let short := Start.skip 0 (s.dropWhile fun b => !isBreak b)
  match s with
  | b :: rest =>
    if b = byte '[' then
      match longBracket rest with
      | (level, some inside) =>
        let text := readLong level inside
        match text.rest with
        | some rest => .skip text.lines rest
        | none => .fault (.unfinishedLong "comment" line) none text.lines
      | (_, none) => short
    else short
  | [] => short

/-! ### Numerals, names and marks -/

/-- The mark of an exponent. -/
def isExponentMark (hexadecimal : Bool) (b : UInt8) : Bool :=
  if hexadecimal then b == byte 'p' || b == byte 'P' else b == byte 'e' || b == byte 'E'

/-- A sign. -/
def isSign (b : UInt8) : Bool := b == byte '-' || b == byte '+'

/-- A byte that a numeral can go on with, exponents apart. -/
def isNumeralPart (b : UInt8) : Bool := (hexValue? b).isSome || b == byte '.'

/-- Splits off everything that is taken for the rest of a numeral. -/
def splitNumeral (hexadecimal : Bool) : Bytes → Bytes × Bytes
  | [] => ([], [])
  | [b] =>
    if isExponentMark hexadecimal b || isNumeralPart b then ([b], []) else ([], [b])
  | b :: c :: rest =>
    if isExponentMark hexadecimal b && isSign c then
      let (taken, rest) := splitNumeral hexadecimal rest
      (b :: c :: taken, rest)
    else if isExponentMark hexadecimal b || isNumeralPart b then
      let (taken, rest) := splitNumeral hexadecimal (c :: rest)
      (b :: taken, rest)
    else ([], b :: c :: rest)

/-- Reads a numeral that goes on after `start`, whose last byte is a digit.  A letter right after
it makes it malformed. -/
def readNumeral (start : Bytes) (s : Bytes) : Start :=
  let hexadecimal := start.getLast? == some (byte '0') &&
    (s.head? == some (byte 'x') || s.head? == some (byte 'X'))
  let mark := if hexadecimal then s.take 1 else []
  let (taken, rest) := splitNumeral hexadecimal (s.drop mark.length)
  let touching := (rest.take 1).filter isNameStart
  let spelled := start ++ mark ++ taken ++ touching
  match Number.read? spelled with
  | some n => .token (.number n spelled) 0 rest
  | none => .fault .malformedNumber (some spelled) 0

/-- Reads a name or a reserved word. -/
def readName (s : Bytes) : Start :=
  let text := s.takeWhile isNamePart
  let rest := s.dropWhile isNamePart
  match Word.ofBytes? text with
  | some w => .token (.word w) 0 rest
  | none => .token (.name text) 0 rest

/-- The marks, longer ones before the ones they start with. -/
def marks : List Mark :=
  [.dots, .concat, .doubleColon, .shiftLeft, .shiftRight, .equal, .notEqual, .lessEqual,
    .greaterEqual, .doubleSlash, .plus, .minus, .star, .slash, .percent, .caret, .hash, .ampersand,
    .tilde, .bar, .less, .greater, .assign, .openParen, .closeParen, .openBrace, .closeBrace,
    .openBracket, .closeBracket, .semicolon, .colon, .comma, .dot]

/-- Reads a mark, or a byte that starts no token. -/
def readMark (b : UInt8) (rest : Bytes) : Start :=
  match marks.find? fun m => (bytesOf m.text).isPrefixOf (b :: rest) with
  | some m => .token (.mark m) 0 ((b :: rest).drop m.text.length)
  | none => .token (.stray b) 0 rest

/-! ### Whole texts -/

/-- What a text starts with, given its first byte and the line it is on; `steps` is at least the
number of bytes that follow. -/
def start (steps line : Nat) (b : UInt8) (rest : Bytes) : Start :=
  if isBreak b then .skip 1 (afterBreak b rest)
  else if Number.isBlankByte b then .skip 0 rest
  else if b = byte '-' ∧ rest.head? = some (byte '-') then readComment line rest.tail
  else if b = byte '[' then readBracket line rest
  else if b = byte '"' ∨ b = byte '\'' then readString steps b [] 0 rest
  else if isDigit b then readNumeral [b] rest
  else if isNameStart b then readName (b :: rest)
  else
    match rest with
    | c :: after =>
      if b = byte '.' ∧ isDigit c then readNumeral [b, c] after else readMark b rest
    | [] => readMark b rest

/-- The lexemes of a text that starts on a line, in at most `steps` steps. -/
def lexFrom : (steps : Nat) → (line : Nat) → Bytes → List Lexeme
  | 0, line, _ | _, line, [] => [⟨.eof, line⟩]
  | steps + 1, line, b :: rest =>
    match start steps line b rest with
    | .skip lines rest => lexFrom steps (line + lines) rest
    | .token t lines rest => ⟨t, line + lines⟩ :: lexFrom steps (line + lines) rest
    | .fault f near lines => [⟨.invalid f near, line + lines⟩]

/-- The lexemes of a text, up to its end or to the first fault. -/
def lex (text : Bytes) : List Lexeme := lexFrom (text.length + 1) 1 text

end Stencil.Script
