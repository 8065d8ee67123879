import Stencil.Script.Number

/-!
# Tokens

The words, marks, names and literals of the script language, and the way each of them is shown in
a message.
-/

namespace Stencil.Script

open Stencil.Text (Bytes bytesOf)

/-- The reserved words. -/
inductive Word where
  | and | «break» | «do» | «else» | elseif | «end» | false | «for» | function | goto | «if» | «in»
  | «local» | nil | not | or | «repeat» | «return» | «then» | true | «until» | «while»
  deriving DecidableEq, Repr

namespace Word

/-- The spelling of a word. -/
def text : Word → String
  | and => "and"
  | «break» => "break"
  | «do» => "do"
  | «else» => "else"
  | elseif => "elseif"
  | «end» => "end"
  | false => "false"
  | «for» => "for"
  | function => "function"
  | goto => "goto"
  | «if» => "if"
  | «in» => "in"
  | «local» => "local"
  | nil => "nil"
  | not => "not"
  | or => "or"
  | «repeat» => "repeat"
  | «return» => "return"
  | «then» => "then"
  | true => "true"
  | «until» => "until"
  | «while» => "while"

/-- All words. -/
def all : List Word :=
  [and, «break», «do», «else», elseif, «end», false, «for», function, goto, «if», «in»,
    «local», nil, not, or, «repeat», «return», «then», true, «until», «while»]

/-- The word with a spelling. -/
def ofBytes? (bs : Bytes) : Option Word := all.find? fun w => bytesOf w.text == bs

end Word

/-- The marks. -/
inductive Mark where
  | plus | minus | star | slash | doubleSlash | percent | caret | hash | ampersand | tilde | bar
  | shiftLeft | shiftRight | equal | notEqual | lessEqual | greaterEqual | less | greater | assign
  | openParen | closeParen | openBrace | closeBrace | openBracket | closeBracket | doubleColon
  | semicolon | colon | comma | dot | concat | dots
  deriving DecidableEq, Repr

/-- The spelling of a mark. -/
def Mark.text : Mark → String
  | .plus => "+"
  | .minus => "-"
  | .star => "*"
  | .slash => "/"
  | .doubleSlash => "//"
  | .percent => "%"
  | .caret => "^"
  | .hash => "#"
  | .ampersand => "&"
  | .tilde => "~"
  | .bar => "|"
  | .shiftLeft => "<<"
  | .shiftRight => ">>"
  | .equal => "=="
  | .notEqual => "~="
  | .lessEqual => "<="
  | .greaterEqual => ">="
  | .less => "<"
  | .greater => ">"
  | .assign => "="
  | .openParen => "("
  | .closeParen => ")"
  | .openBrace => "\x7b"
  | .closeBrace => "\x7d"
  | .openBracket => "["
  | .closeBracket => "]"
  | .doubleColon => "::"
  | .semicolon => ";"
  | .colon => ":"
  | .comma => ","
  | .dot => "."
  | .concat => ".."
  | .dots => "..."

/-- Why the text does not go on with a token. -/
inductive LexFault where
  /-- A string ends with its line. -/
  | unfinishedString
  /-- A string or a comment in long brackets does not end. -/
  | unfinishedLong (what : String) (line : Nat)
  /-- A bracket and equal signs without a second bracket. -/
  | longDelimiter
  /-- A numeral that is no number. -/
  | malformedNumber
  /-- A backslash before a character that has no meaning after it. -/
  | invalidEscape
  /-- A byte escape above 255. -/
  | decimalTooLarge
  /-- Something else where a hexadecimal digit has to be. -/
  | hexExpected
  /-- No opening brace after `\u`. -/
  | missingOpen
  /-- No closing brace after the digits of `\u`. -/
  | missingClose
  /-- A code point of more than 31 bits. -/
  | codePointTooLarge
  deriving DecidableEq, Repr

/-- The wording of a fault. -/
def LexFault.message : LexFault → String
  | .unfinishedString => "unfinished string"
  | .unfinishedLong what line => s!"unfinished long {what} (starting at line {line})"
  | .longDelimiter => "invalid long string delimiter"
  | .malformedNumber => "malformed number"
  | .invalidEscape => "invalid escape sequence"
  | .decimalTooLarge => "decimal escape too large"
  | .hexExpected => "hexadecimal digit expected"
  | .missingOpen => "missing '\x7b'"
  | .missingClose => "missing '\x7d'"
  | .codePointTooLarge => "UTF-8 value too large"

/-- A token. -/
inductive Token where
  /-- A name. -/
  | name (text : Bytes)
  /-- A reserved word. -/
  | word (w : Word)
  /-- A mark. -/
  | mark (m : Mark)
  /-- A number, with its spelling. -/
  | number (value : Number) (text : Bytes)
  /-- A string, with its delimiters around its value. -/
  | string (value : Bytes) (text : Bytes)
  /-- A byte that starts no token. -/
  | stray (byte : UInt8)
  /-- The end of the text. -/
  | eof
  /-- A fault; `near` is what was read of the token, or nothing at the end of the text. -/
  | invalid (fault : LexFault) (near : Option Bytes)
  deriving DecidableEq, Repr

/-- A token and the line on which it ends. -/
structure Lexeme where
  /-- The token. -/
  token : Token
  /-- Its line, from one. -/
  line : Nat
  deriving DecidableEq, Repr

/-- Text as messages show it: a NUL ends it. -/
def shown (bs : Bytes) : Bytes := bs.takeWhile (· != 0)

/-- Text in single quotes. -/
def inQuotes (bs : Bytes) : Bytes := bytesOf "'" ++ bs ++ bytesOf "'"

/-- How a message shows a token: its spelling in quotes, the number of a byte that cannot be
shown, or what stands for the end of the text. -/
def Token.display : Token → Bytes
  | .name text | .number _ text | .string _ text => inQuotes (shown text)
  | .word w => inQuotes (bytesOf w.text)
  | .mark m => inQuotes (bytesOf m.text)
  | .stray b =>
    if 0x20 ≤ b ∧ b ≤ 0x7E then inQuotes [b]
    else
      let number := b.toNat
      bytesOf s!"'<\\{number}>'"
  | .eof => bytesOf "<eof>"
  | .invalid _ near =>
    match near with
    | some text => inQuotes (shown text)
    | none => bytesOf "<eof>"

end Stencil.Script
