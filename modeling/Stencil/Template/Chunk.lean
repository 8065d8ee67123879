import Stencil.Template.Instr

/-!
# Chunks

A chunk is the script that a list of instructions stands for.  It receives the operations on the
block tree and the options as arguments and keeps them in locals, so nothing is shared between
templates.  The instructions run inside a local function: a `return` in a statement ends the body
early and the root block is still rendered.  Every embedded expression is followed by a line
break, so a comment at its end cannot swallow what comes after it.
-/

namespace Stencil.Template

/-- The first line: the locals for the arguments, in order. -/
def preamble : String :=
  "local __append, __open, __close, __trim, __render, _OPTIONS = ...\n"

/-- A hexadecimal digit, upper case. -/
def upperHexDigit (n : Nat) : Char := (Nat.digitChar n).toUpper

/-- One character of a string literal: quotes, backslashes and ASCII control characters are
escaped. -/
def literalChar (c : Char) : List Char :=
  match c with
  | '"' => ['\\', '"']
  | '\\' => ['\\', '\\']
  | '\n' => ['\\', 'n']
  | '\r' => ['\\', 'r']
  | '\t' => ['\\', 't']
  | _ =>
    if c.toNat < 0x20 ∨ c.toNat = 0x7F then
      ['\\', 'x', upperHexDigit (c.toNat / 16), upperHexDigit (c.toNat % 16)]
    else [c]

/-- A text as a string literal of the script language. -/
def literal (text : List Char) : List Char := ['"'] ++ text.flatMap literalChar ++ ['"']

/-- A text as a string literal of the script language. -/
def quote (text : String) : String := String.ofList (literal text.toList)

/-- The script of an instruction. -/
def Instr.script : Instr → String
  | .raw text => "__append(" ++ quote text ++ ");\n"
  | .emit expr => "__append(" ++ expr ++ "\n);\n"
  | .exec stmt => stmt ++ "\n"
  | .start .ifTag header => "if (" ++ header ++ "\n) then\n"
  | .start .whileTag header => "while (" ++ header ++ "\n) do\n"
  | .start .forTag header => "for " ++ header ++ "\ndo\n"
  | .otherwise => "else\n"
  | .finish => "end\n"
  | .openBlock name => "__open(" ++ quote name ++ ");\n"
  | .closeBlock => "__close();\n"
  | .trim => "__trim();\n"

/-- The lines before the instructions. -/
def opening : String :=
  preamble ++ "__open(" ++ quote "root" ++ ");\n" ++ "local function __body()\n"

/-- The lines after the instructions. -/
def closing : String := "end\n__body()\nreturn __render()\n"

/-- The chunk of some instructions. -/
def chunk (instrs : List Instr) : String :=
  opening ++ instrs.foldl (fun text i => text ++ i.script) "" ++ closing

end Stencil.Template
