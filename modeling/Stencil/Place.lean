import Stencil.Text.Utf8
import Stencil.Text.Width

/-!
# Places in a template

A place is a stretch of the template it stands in, kept as the three parts that the stretch cuts
the text into.  Offsets count bytes of the text with its includes in place; they are read off the
parts, so they always fall between characters and inside the text.

`Place.report` shows a place to a reader: the line it starts on, with its number, and a row of
carets below it.
-/

namespace Stencil

/-- A stretch of a text. -/
structure Place where
  /-- The text before the stretch. -/
  before : List Char
  /-- The stretch. -/
  marked : List Char
  /-- The text after the stretch. -/
  after : List Char
  deriving DecidableEq, Repr

namespace Place

/-- The whole text. -/
def text (p : Place) : List Char := p.before ++ p.marked ++ p.after

/-- The offset of the stretch. -/
def start (p : Place) : Nat := Text.byteSize p.before

/-- The offset of the end of the stretch. -/
def stop (p : Place) : Nat := Text.byteSize (p.before ++ p.marked)

/-- A character that does not end a line. -/
def inLine (c : Char) : Bool := c != '\n'

/-- The number of the line the stretch starts on, from one. -/
def lineNumber (p : Place) : Nat := p.before.count '\n' + 1

/-- The part of that line before the stretch. -/
def lineStart (p : Place) : List Char := (p.before.reverse.takeWhile inLine).reverse

/-- That line. -/
def line (p : Place) : List Char := p.lineStart ++ (p.marked ++ p.after).takeWhile inLine

/-- The column of the stretch, from zero. -/
def column (p : Place) : Nat := Text.width p.lineStart

/-- How many carets mark the stretch. -/
def caretCount (p : Place) : Nat := max 1 (Text.width p.marked)

/-- So many blanks. -/
def blanks (n : Nat) : String := String.ofList (List.replicate n ' ')

/-- The stretch with a message below it: an empty line, a gutter, the line of the text, and the
carets with the message. -/
def report (p : Place) (message : String) : String :=
  let number := toString p.lineNumber
  let gutter := blanks number.length
  let carets := String.ofList (List.replicate p.caretCount '^')
  "\n " ++ gutter ++ " |\n " ++ number ++ " | " ++ String.ofList p.line ++ "\n " ++ gutter ++
    " | " ++ blanks p.column ++ carets ++ " " ++ message ++ "\n"

end Place

end Stencil
