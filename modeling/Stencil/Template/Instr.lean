/-!
# Instructions

What a template says, as a flat list: text to copy, expressions to write, statements to run, and
the beginnings and ends of control flow and of blocks.
-/

namespace Stencil.Template

/-- The tags that start control flow. -/
inductive Keyword where
  /-- Runs its body if its expression holds. -/
  | ifTag
  /-- Runs its body for the values that its header names. -/
  | forTag
  /-- Runs its body as long as its expression holds. -/
  | whileTag
  deriving DecidableEq, Repr

/-- An instruction of a template. -/
inductive Instr where
  /-- Writes text as it is. -/
  | raw (text : String)
  /-- Writes the value of an expression. -/
  | emit (expr : String)
  /-- Runs a statement. -/
  | exec (stmt : String)
  /-- Starts control flow with a header. -/
  | start (keyword : Keyword) (header : String)
  /-- Goes on to the other branch. -/
  | otherwise
  /-- Ends the innermost control flow. -/
  | finish
  /-- Opens a block; a sign before the name keeps its content. -/
  | openBlock (name : String)
  /-- Closes the open block. -/
  | closeBlock
  /-- Removes the blanks that the open block ends with. -/
  | trim
  deriving DecidableEq, Repr

end Stencil.Template
