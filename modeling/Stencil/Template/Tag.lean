import Stencil.Template.Instr

/-!
# Tags

The kinds of tags, and how the characters inside each of them are read.
-/

namespace Stencil.Template

/-- The tags that hold nothing but their name. -/
inductive EndTag where
  /-- Goes on to the other branch. -/
  | elseTag
  /-- Ends an `if`. -/
  | endIf
  /-- Ends a `for`. -/
  | endFor
  /-- Ends a `while`. -/
  | endWhile
  /-- Ends a block. -/
  | endBlock
  deriving DecidableEq, Repr

/-- What is being read inside a tag. -/
inductive Scope where
  /-- The name of the tag. -/
  | tagName
  /-- The header of control flow. -/
  | header (keyword : Keyword)
  /-- An expression to write. -/
  | echoed
  /-- A statement to run. -/
  | statement
  /-- The path of an include. -/
  | includePath
  /-- The name of a block. -/
  | blockName
  /-- Blanks up to the end of the tag. -/
  | ending (tag : EndTag)
  deriving DecidableEq, Repr

namespace Scope

/-- What an opening brace and the character after it start. -/
def opening? : Char → Option Scope
  | '{' => some .echoed
  | '$' => some .statement
  | '%' => some .tagName
  | _ => none

/-- Only blanks may follow. -/
def isEnding : Scope → Bool
  | .ending _ => true
  | _ => false

/-- Whether a percent sign and a closing brace are text here. -/
def keepsPercent : Scope → Bool
  | .echoed | .statement => true
  | _ => false

/-- What the name of a tag is followed by. -/
def named? (name : List Char) : Option Scope :=
  match String.ofList name with
  | "if" => some (.header .ifTag)
  | "for" => some (.header .forTag)
  | "while" => some (.header .whileTag)
  | "include" => some .includePath
  | "block" => some .blockName
  | "else" => some (.ending .elseTag)
  | "endif" => some (.ending .endIf)
  | "endfor" => some (.ending .endFor)
  | "endwhile" => some (.ending .endWhile)
  | "endblock" => some (.ending .endBlock)
  | _ => none

end Scope

/-- The instruction of an end tag. -/
def EndTag.instr : EndTag → Instr
  | .elseTag => .otherwise
  | .endIf | .endFor | .endWhile => .finish
  | .endBlock => .closeBlock

/-- A tag that is being read. -/
structure OpenTag where
  /-- What is being read. -/
  scope : Scope
  /-- What has been read of it, the last character first. -/
  text : List Char
  /-- All that was read before the tag, the last character first. -/
  before : List Char
  deriving DecidableEq, Repr

end Stencil.Template
