import Stencil.Data.Value
import Stencil.Decimal.Notation
import Stencil.Text.Quoted

/-!
# Written forms of data

Two texts of a value.  `Value.json` is compact JSON: no blanks, keys in order, `null` for what JSON
cannot hold.  `Value.debug` names the constructor of every value.
-/

namespace Stencil.Data

/-- The escape of one character in a JSON string, or the character itself: quotes, backslashes and
control characters below the space are escaped. -/
def jsonChar (c : Char) : List Char :=
  match c with
  | '"' => ['\\', '"']
  | '\\' => ['\\', '\\']
  | '\x08' => ['\\', 'b']
  | '\x0c' => ['\\', 'f']
  | '\n' => ['\\', 'n']
  | '\r' => ['\\', 'r']
  | '\t' => ['\\', 't']
  | _ =>
    if c.toNat < 0x20 then
      let digits := Text.lowerDigits 16 c.toNat
      ['\\', 'u'] ++ List.replicate (4 - digits.length) '0' ++ digits
    else [c]

/-- A JSON string. -/
def jsonString (s : String) : List Char := ['"'] ++ s.toList.flatMap jsonChar ++ ['"']

/-- Numbers in JSON: positional from `0.00001` up to, not including, `1e16`. -/
def jsonNumber : Decimal.Shortest := ⟨-4, 16, "null", "null"⟩

/-- Numbers for a developer: positional from `0.0001` up to, not including, `1e16`. -/
def debugNumber : Decimal.Shortest := ⟨-3, 16, "inf", "NaN"⟩

namespace Value

mutual

/-- The compact JSON text of a value. -/
def jsonText : Value → List Char
  | .none => ['n', 'u', 'l', 'l']
  | .bool true => ['t', 'r', 'u', 'e']
  | .bool false => ['f', 'a', 'l', 's', 'e']
  | .int n => Decimal.signed n.toInt
  | .float x => if x.isFinite then (jsonNumber.write x).toList else ['n', 'u', 'l', 'l']
  | .text s => jsonString s
  | .list items => ['['] ++ jsonItems items ++ [']']
  | .map entries => ['\x7b'] ++ jsonEntries entries ++ ['\x7d']

/-- Items with commas between them. -/
def jsonItems : List Value → List Char
  | [] => []
  | [v] => jsonText v
  | v :: w :: rest => jsonText v ++ [','] ++ jsonItems (w :: rest)

/-- Entries with commas between them. -/
def jsonEntries : List (String × Value) → List Char
  | [] => []
  | [(k, v)] => jsonString k ++ [':'] ++ jsonText v
  | (k, v) :: e :: rest => jsonString k ++ [':'] ++ jsonText v ++ [','] ++ jsonEntries (e :: rest)

end

/-- The compact JSON text of a value. -/
def json (v : Value) : String := String.ofList v.jsonText

/-- A text in brackets after its name. -/
def named (name : String) (content : List Char) : List Char :=
  name.toList ++ ['('] ++ content ++ [')']

mutual

/-- The text of a value for a developer. -/
def debugText : Value → List Char
  | .none => "None".toList
  | .bool b => named "Bool" (if b then "true".toList else "false".toList)
  | .int n => named "Integer" (Decimal.signed n.toInt)
  | .float x => named "Float" (debugNumber.write x).toList
  | .text s => named "String" (Text.quoted s).toList
  | .list items => named "List" (['['] ++ debugItems items ++ [']'])
  | .map entries => named "Map" (['\x7b'] ++ debugEntries entries ++ ['\x7d'])

/-- Items with commas and blanks between them. -/
def debugItems : List Value → List Char
  | [] => []
  | [v] => debugText v
  | v :: w :: rest => debugText v ++ [',', ' '] ++ debugItems (w :: rest)

/-- Entries with commas and blanks between them. -/
def debugEntries : List (String × Value) → List Char
  | [] => []
  | [(k, v)] => (Text.quoted k).toList ++ [':', ' '] ++ debugText v
  | (k, v) :: e :: rest =>
    (Text.quoted k).toList ++ [':', ' '] ++ debugText v ++ [',', ' '] ++ debugEntries (e :: rest)

end

/-- The text of a value for a developer. -/
def debug (v : Value) : String := String.ofList v.debugText

end Value

end Stencil.Data
