import Stencil.Text.Printable

/-!
# Quoted text

The written form of a string inside diagnostic output: double quotes around it, a backslash
before a quote or a backslash, short escapes for the usual control characters, and `\u{…}` with
lower-case hexadecimal digits for every other character that has no visible form.
-/

namespace Stencil.Text

/-- The digits of a number in a base of at most sixteen, lower case. -/
def lowerDigits (base n : Nat) : List Char := Nat.toDigits base n

/-- The escape for one character, or the character itself. -/
def quoteChar (c : Char) : List Char :=
  match c with
  | '"' => ['\\', '"']
  | '\\' => ['\\', '\\']
  | '\n' => ['\\', 'n']
  | '\r' => ['\\', 'r']
  | '\t' => ['\\', 't']
  | '\x00' => ['\\', '0']
  | _ =>
    if isPlain c then [c]
    else ['\\', 'u', '\x7b'] ++ lowerDigits 16 c.toNat ++ ['\x7d']

/-- A string in quotes. -/
def quoted (s : String) : String :=
  String.ofList (['"'] ++ s.toList.flatMap quoteChar ++ ['"'])

end Stencil.Text
