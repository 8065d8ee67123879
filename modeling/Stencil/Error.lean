import Stencil.Place
import Stencil.Text.Quoted

/-!
# Errors

What can go wrong between a template and its output.  A fault in a tag knows its place in the
template.  A fault that the script language reports comes with the language's own message, whose
lines count in the generated chunk.
-/

namespace Stencil

/-- The category of an error. -/
inductive ErrorKind where
  /-- The template is not well formed. -/
  | syntaxKind
  /-- No resolver knows an included template. -/
  | resolveKind
  /-- A file or a writer failed. -/
  | ioKind
  /-- The template failed while it ran. -/
  | evalKind
  deriving DecidableEq, Repr

/-- The name of a category. -/
def ErrorKind.name : ErrorKind → String
  | .syntaxKind => "Syntax"
  | .resolveKind => "Resolve"
  | .ioKind => "Io"
  | .evalKind => "Eval"

/-- What is wrong with a tag. -/
inductive TagFault where
  /-- No tag has this name. -/
  | unknownTag (name : String)
  /-- An end tag holds more than its name. -/
  | expectedEnd (got : String)
  /-- A block tag has no name. -/
  | expectedBlockName
  /-- No resolver knows the path of an include tag. -/
  | unresolved (path : String)
  deriving DecidableEq, Repr

/-- The wording of a fault. -/
def TagFault.message : TagFault → String
  | .unknownTag name => "unknown tag: `" ++ name ++ "`"
  | .expectedEnd got => "expected `%\x7d` but got `" ++ got ++ "`"
  | .expectedBlockName => "expected block name"
  | .unresolved path => "unable to resolve template for include path `" ++ path ++ "`"

/-- The category of a fault. -/
def TagFault.kind : TagFault → ErrorKind
  | .unresolved _ => .resolveKind
  | _ => .syntaxKind

/-- An error of compilation or rendering. -/
inductive Error where
  /-- A fault in a tag. -/
  | tag (fault : TagFault) (place : Place)
  /-- The generated chunk is no script; the message is the language's. -/
  | chunk (message : String)
  /-- Something outside failed. -/
  | io (context : String) (cause : String)
  /-- The script failed.  `traced` tells whether the failure happened inside the script, so that
  a trace of its calls follows the message in the full text of the error. -/
  | eval (message : String) (traced : Bool)
  deriving DecidableEq, Repr

namespace Error

/-- The category of an error. -/
def kind : Error → ErrorKind
  | .tag fault _ => fault.kind
  | .chunk _ => .syntaxKind
  | .io _ _ => .ioKind
  | .eval _ _ => .evalKind

/-- The message without any place. -/
def message : Error → String
  | .tag fault _ => fault.message
  | .chunk text => text
  | .io context _ => context
  | .eval text _ => text

/-- The place of an error in the template. -/
def place : Error → Option Place
  | .tag _ place => some place
  | _ => none

/-- An error on one line. -/
def display : Error → String
  | .tag fault place =>
    let start := place.start
    let stop := place.stop
    fault.message ++ s!" between bytes {start} and {stop}"
  | .io context cause => context ++ ": " ++ cause
  | e => e.message

/-- An error with its place shown, if it has one. -/
def pretty : Error → String
  | .tag fault place => place.report fault.message
  | e => e.display

/-- An error for a developer: its place shown, or its category and message. -/
def debug (e : Error) : String :=
  match e.place with
  | some place => place.report e.message
  | none =>
    "Error \x7b kind: " ++ e.kind.name ++ ", msg: " ++ Text.quoted e.message ++ " \x7d"

/-- The failure of reading a template. -/
def ofRead (cause : String) : Error := .io "failed to read template" cause

end Error

end Stencil
