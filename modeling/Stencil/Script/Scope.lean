import Stencil.Script.Syntax
import Stencil.Script.Token

/-!
# Scopes

The rules on names that a grammar does not know: which variables are constant, which labels a jump
can reach, and where extra arguments exist.  While a script is read, everything that matters to
these rules is noted down in order as a list of mentions; `Scope.check` goes through the list and
finds the first mention that breaks a rule.

A jump to a label that comes later stays open until the label is found in the same block or in one
around it.  When a block ends, its open jumps become jumps of the block around it, as if they had
been made before the variables of the block were declared.
-/

namespace Stencil.Script

open Stencil.Text (Bytes bytesOf)

/-- Something that matters to the rules on names. -/
inductive Mention where
  /-- A local variable that is not in scope yet. -/
  | declare (name : Bytes) (kind : LocalKind)
  /-- So many declared variables come into scope. -/
  | activate (count : Nat)
  /-- An assignment to a variable. -/
  | assign (name : Bytes)
  /-- A block starts; a loop is what `break` leaves. -/
  | openBlock (loop : Bool)
  /-- A block ends. -/
  | closeBlock
  /-- A function starts on a line. -/
  | openFunction (line : Nat)
  /-- The function takes extra arguments. -/
  | vararg
  /-- The extra arguments are used. -/
  | dots
  /-- A function ends. -/
  | closeFunction
  /-- A jump to a label, or out of a loop. -/
  | jump (label : Option Bytes) (line : Nat)
  /-- A label; `last` tells whether nothing but the end of the block follows it. -/
  | label (name : Bytes) (line : Nat) (last : Bool)
  deriving DecidableEq, Repr

/-- What breaks a rule on names. -/
inductive ScopeFault where
  /-- An assignment to a constant. -/
  | constant (name : Bytes)
  /-- Extra arguments where there are none. -/
  | noDots
  /-- A second label of one name. -/
  | repeatedLabel (name : Bytes) (line : Nat)
  /-- A jump without a label. -/
  | noLabel (name : Bytes) (line : Nat)
  /-- A `break` without a loop. -/
  | noLoop (line : Nat)
  /-- A jump past the declaration of a variable. -/
  | intoScope (label : Bytes) (line : Nat) (name : Bytes)
  /-- Too many variables in a function; the main function has no line. -/
  | tooManyLocals (line : Nat)
  deriving DecidableEq, Repr

/-- How many local variables a function can have at one place. -/
def maxLocals : Nat := 200

/-- The wording of a fault. -/
def ScopeFault.message : ScopeFault → Bytes
  | .constant name => bytesOf "attempt to assign to const variable '" ++ name ++ bytesOf "'"
  | .noDots => bytesOf "cannot use '...' outside a vararg function"
  | .repeatedLabel name line =>
    bytesOf "label '" ++ name ++ bytesOf s!"' already defined on line {line}"
  | .noLabel name line =>
    bytesOf "no visible label '" ++ name ++ bytesOf s!"' for <goto> at line {line}"
  | .noLoop line => bytesOf s!"break outside a loop at line {line}"
  | .intoScope label line name =>
    bytesOf "<goto " ++ label ++ bytesOf s!"> at line {line} jumps into the scope of local '" ++
      name ++ bytesOf "'"
  | .tooManyLocals line =>
    let place := if line = 0 then "main function" else s!"function at line {line}"
    bytesOf s!"too many local variables (limit is {maxLocals}) in {place}"

/-- Whether the message of a fault goes on with the token it was found at. -/
def ScopeFault.showsToken : ScopeFault → Bool
  | .noDots | .tooManyLocals _ => true
  | _ => false

namespace Scope

/-- A label in a block. -/
structure Label where
  /-- Its name. -/
  name : Bytes
  /-- Its line. -/
  line : Nat

/-- A jump whose label has not been found. -/
structure Jump where
  /-- The label, or nothing for `break`. -/
  label : Option Bytes
  /-- Its line. -/
  line : Nat
  /-- How many variables are in scope where it is made. -/
  inScope : Nat

/-- An open block. -/
structure Level where
  /-- Whether `break` leaves it. -/
  loop : Bool
  /-- How many variables were in scope where it starts. -/
  inScope : Nat
  /-- Its labels. -/
  labels : List Label := []
  /-- Its open jumps, in order. -/
  jumps : List Jump := []

/-- A variable. -/
structure Variable where
  /-- Its name. -/
  name : Bytes
  /-- What it is declared to be. -/
  kind : LocalKind

/-- An open function. -/
structure Frame where
  /-- Its line, or zero for the main function. -/
  line : Nat
  /-- Whether it takes extra arguments. -/
  vararg : Bool
  /-- The variables in scope, the latest first. -/
  active : List Variable := []
  /-- The variables that are declared but not in scope, in order. -/
  pending : List Variable := []
  /-- The open blocks, the innermost first. -/
  levels : List Level := [⟨false, 0, [], []⟩]

/-- The open functions, the innermost first. -/
abbrev Frames := List Frame

/-- The main function. -/
def main : Frames := [{ line := 0, vararg := true }]

namespace Frame

/-- Changes the innermost block. -/
def modifyLevel (f : Frame) (change : Level → Level) : Frame :=
  match f.levels with
  | level :: rest => { f with levels := change level :: rest }
  | [] => f

/-- Brings declared variables into scope. -/
def activate (f : Frame) (count : Nat) : Frame :=
  { f with
    active := (f.pending.take count).reverse ++ f.active
    pending := f.pending.drop count }

/-- The label with a name in any open block. -/
def label? (f : Frame) (name : Bytes) : Option Label :=
  f.levels.findSome? fun level => level.labels.find? fun l => l.name == name

/-- Notes a jump down, unless its label is there already. -/
def jump (f : Frame) (label : Option Bytes) (line : Nat) : Frame :=
  if (label.bind f.label?).isSome then f
  else f.modifyLevel fun level =>
    { level with jumps := level.jumps ++ [⟨label, line, f.active.length⟩] }

/-- The name of the variable that is declared after `count` others. -/
def nameAt (f : Frame) (count : Nat) : Bytes :=
  ((f.active.reverse[count]?).map Variable.name).getD []

/-- Puts a label into the innermost block and ends the jumps to it. -/
def addLabel (f : Frame) (name : Bytes) (line : Nat) (last : Bool) : Except ScopeFault Frame :=
  match f.label? name, f.levels with
  | some old, _ => .error (.repeatedLabel name old.line)
  | none, [] => .ok f
  | none, level :: rest =>
    let inScope := if last then level.inScope else f.active.length
    let (mine, others) := level.jumps.partition fun j => j.label == some name
    match mine.find? fun j => j.inScope < inScope with
    | some j => .error (.intoScope name j.line (f.nameAt j.inScope))
    | none =>
      let level := { level with labels := ⟨name, line⟩ :: level.labels, jumps := others }
      .ok { f with levels := level :: rest }

/-- Ends the innermost block. -/
def closeLevel (f : Frame) : Frame :=
  match f.levels with
  | level :: outer :: rest =>
    let jumps := if level.loop then level.jumps.filter fun j => j.label.isSome else level.jumps
    let moved := jumps.map fun j => { j with inScope := level.inScope }
    { f with
      active := f.active.drop (f.active.length - level.inScope)
      levels := { outer with jumps := outer.jumps ++ moved } :: rest }
  | _ => f

/-- The fault of a function that ends with an open jump. -/
def openJump? (f : Frame) : Option ScopeFault :=
  match f.levels with
  | level :: _ =>
    level.jumps.head?.map fun j =>
      match j.label with
      | some name => .noLabel name j.line
      | none => .noLoop j.line
  | [] => none

/-- The variable with a name. -/
def find? (f : Frame) (name : Bytes) : Option Variable :=
  f.active.find? fun v => v.name == name

end Frame

/-- Goes on past one mention. -/
def step (frames : Frames) (m : Mention) : Except ScopeFault Frames :=
  match frames with
  | [] => .ok []
  | f :: rest =>
    match m with
    | .declare name kind =>
      if f.active.length + f.pending.length ≥ maxLocals then .error (.tooManyLocals f.line)
      else .ok ({ f with pending := f.pending ++ [⟨name, kind⟩] } :: rest)
    | .activate count => .ok (f.activate count :: rest)
    | .assign name =>
      match ((f :: rest).findSome? fun g => g.find? name).map Variable.kind with
      | some .const | some .close => .error (.constant name)
      | some .plain | none => .ok (f :: rest)
    | .openBlock loop =>
      .ok ({ f with levels := ⟨loop, f.active.length, [], []⟩ :: f.levels } :: rest)
    | .closeBlock => .ok (f.closeLevel :: rest)
    | .openFunction line => .ok ({ line := line, vararg := false } :: f :: rest)
    | .vararg => .ok ({ f with vararg := true } :: rest)
    | .dots => if f.vararg then .ok (f :: rest) else .error .noDots
    | .closeFunction =>
      match f.openJump? with
      | some fault => .error fault
      | none => .ok rest
    | .jump label line => .ok (f.jump label line :: rest)
    | .label name line last => (f.addLabel name line last).map (· :: rest)

/-- The first mention that breaks a rule, with the lexeme it was made at. -/
def checkFrom (frames : Frames) : List (Mention × Lexeme) → Option (ScopeFault × Lexeme)
  | [] => none
  | (m, place) :: rest =>
    match step frames m with
    | .ok frames => checkFrom frames rest
    | .error fault => some (fault, place)

/-- The first fault in the mentions of a script. -/
def check (mentions : List (Mention × Lexeme)) : Option (ScopeFault × Lexeme) :=
  checkFrom main mentions

end Scope

end Stencil.Script
