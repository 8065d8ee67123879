import Mathlib.Logic.Function.Basic
import Stencil.Block.Tree
import Stencil.Data.Value
import Stencil.Proofs.Script.Spelling
import Stencil.Script.Grammar
import Stencil.Template.Chunk

/-!
# Structured programs

A template whose control flow is nested properly, as a tree: texts, names that are written, operations
on blocks, choices on a name and counted loops.  A program means two things here:

* `Program.flatten` : the instructions that it stands for.
* `Program.run` : what it does to a block tree, by recursion over the program.
-/

namespace Stencil.Template

-- powers as the core library has them, whatever else is imported
attribute [local instance (high)] instPowNat

open Script (IsNameLike Word)
open Stencil.Block (Tree)
open Stencil.Text (bytesOf)

/-! ### Names and values -/

/-- The names that the generated script keeps for itself. -/
def reserved : List String :=
  ["_ENV", "__append", "__open", "__close", "__trim", "__render", "__body", "_OPTIONS"]

/-- A name that a template can use: a name of the script language that is not a word of it. -/
def IsIdentifier (x : String) : Prop :=
  IsNameLike (bytesOf x) ∧ Word.ofBytes? (bytesOf x) = none ∧ x ∉ reserved

instance (x : String) : Decidable (IsIdentifier x) := inferInstanceAs (Decidable (_ ∧ _ ∧ _))

/-- A value that can be written as it is. -/
inductive Scalar where
  /-- A string. -/
  | text (s : String)
  /-- An integer of 64 bits. -/
  | int (n : Int64)
  /-- A truth value. -/
  | bool (b : Bool)
  deriving DecidableEq, Repr

namespace Scalar

/-- The value in the data. -/
def data : Scalar → Data.Value
  | .text s => .text s
  | .int n => .int n
  | .bool b => .bool b

/-- The text that is written for a value. -/
def shown : Scalar → String
  | .text s => s
  | .int n => toString n.toInt
  | .bool b => toString b

/-- Whether a choice on a value takes its first branch. -/
def holds : Scalar → Bool
  | .bool b => b
  | _ => true

end Scalar

/-! ### Programs -/

/-- An operation on the block tree that reads no name. -/
inductive Act where
  /-- Writes text as it is. -/
  | raw (text : String)
  /-- Removes the blanks that the open block ends with. -/
  | trim
  /-- Opens a block; a sign before the name keeps its content. -/
  | openBlock (name : String)
  /-- Closes the open block. -/
  | closeBlock
  deriving DecidableEq, Repr

/-- The instruction of an operation. -/
def Act.instr : Act → Instr
  | .raw text => .raw text
  | .trim => .trim
  | .openBlock name => .openBlock name
  | .closeBlock => .closeBlock

/-- What an operation does to a tree. -/
def Act.run : Act → Tree → Tree
  | .raw text, t => t.append text
  | .trim, t => t.trim
  | .openBlock name, t => (t.openBlock name).2
  | .closeBlock, t => t.close

/-- A structured program: its first part, and the rest of it. -/
inductive Program where
  /-- Nothing. -/
  | done
  /-- An operation on the block tree. -/
  | act (a : Act) (rest : Program)
  /-- Writes the value of a name. -/
  | emit (name : String) (rest : Program)
  /-- Runs its body if a name holds. -/
  | choice (name : String) (body rest : Program)
  /-- Runs one of two bodies. -/
  | branch (name : String) (body other rest : Program)
  /-- Runs its body for every integer from a first one to a last one. -/
  | loop (name : String) (first last : Int) (body rest : Program)
  deriving DecidableEq, Repr

/-- The header of a loop over integers. -/
def loopHeader (x : String) (first last : Int) : String :=
  x ++ " = " ++ toString first ++ ", " ++ toString last

/-- The integers from `first` to `last`. -/
def integers (first last : Int) : List Int :=
  (List.range (last + 1 - first).toNat).map fun (k : Nat) => first + k

theorem integers_of_lt {first last : Int} (h : last < first) : integers first last = [] := by
  rw [integers, Int.toNat_eq_zero.2 (by omega)]
  rfl

theorem integers_append {first last : Int} (h : first ≤ last) :
    integers first last = integers first (last - 1) ++ [last] := by
  obtain ⟨n, hn⟩ : ∃ n : Nat, last - first = n := Int.eq_ofNat_of_zero_le (by omega)
  have hcount : (last + 1 - first).toNat = n + 1 := by omega
  have hbefore : (last - 1 + 1 - first).toNat = n := by omega
  rw [integers, integers, hcount, hbefore, List.range_succ, List.map_append, List.map_singleton,
    show first + (n : Int) = last by omega]

namespace Program

/-- The instructions of a program. -/
def flatten : Program → List Instr
  | .done => []
  | .act a rest => a.instr :: rest.flatten
  | .emit x rest => .emit x :: rest.flatten
  | .choice x body rest => .start .ifTag x :: (body.flatten ++ .finish :: rest.flatten)
  | .branch x body other rest =>
    .start .ifTag x :: (body.flatten ++ .otherwise :: (other.flatten ++ .finish :: rest.flatten))
  | .loop x first last body rest =>
    .start .forTag (loopHeader x first last) :: (body.flatten ++ .finish :: rest.flatten)

/-- What a program does to a tree, given the values of the names.  The name of a loop has its value
inside the loop only. -/
def run : Program → (names : String → Scalar) → Tree → Tree
  | .done, _, t => t
  | .act a rest, names, t => rest.run names (a.run t)
  | .emit x rest, names, t => rest.run names (t.append (names x).shown)
  | .choice x body rest, names, t =>
    rest.run names (if (names x).holds then body.run names t else t)
  | .branch x body other rest, names, t =>
    rest.run names (if (names x).holds then body.run names t else other.run names t)
  | .loop x first last body rest, names, t =>
    let turn (t : Tree) (k : Int) : Tree :=
      body.run (Function.update names x (.int (Int64.ofInt k))) t
    rest.run names ((integers first last).foldl turn t)

/-- The text that a program gives. -/
def output (p : Program) (names : String → Scalar) : String :=
  (p.run names (Tree.empty.openBlock Block.rootName).2).renderRoot

/-- The names that a program needs from outside. -/
def free : Program → List String
  | .done => []
  | .act _ rest => rest.free
  | .emit x rest => x :: rest.free
  | .choice x body rest => x :: (body.free ++ rest.free)
  | .branch x body other rest => x :: (body.free ++ (other.free ++ rest.free))
  | .loop x _ _ body rest => body.free.filter (· ≠ x) ++ rest.free

/-- Every name of a program is an identifier, and every bound of a loop has at most 63 bits and a
sign. -/
def IsProper : Program → Prop
  | .done => True
  | .act _ rest => rest.IsProper
  | .emit x rest => IsIdentifier x ∧ rest.IsProper
  | .choice x body rest => IsIdentifier x ∧ body.IsProper ∧ rest.IsProper
  | .branch x body other rest =>
    IsIdentifier x ∧ body.IsProper ∧ other.IsProper ∧ rest.IsProper
  | .loop x first last body rest =>
    IsIdentifier x ∧ first.natAbs < 2 ^ (63 : Nat) ∧ last.natAbs < 2 ^ (63 : Nat) ∧ body.IsProper ∧ rest.IsProper

end Program

end Stencil.Template
