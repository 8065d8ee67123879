import Stencil.Event
import Stencil.Include.Disk
import Stencil.Include.Path

/-!
# Resolvers

A resolver turns the path of an include tag into text, or misses.  What it answers may depend on
what it has been asked before, so a resolver keeps the questions put to it.
-/

namespace Stencil.Include

/-- A question to a resolver. -/
structure Ask where
  /-- The path of the include tag. -/
  name : String
  /-- The template that holds the tag, if it is known. -/
  origin : Option String
  deriving DecidableEq, Repr

/-- A strategy for turning include paths into text. -/
inductive Resolver where
  /-- Answers by a rule; the rule sees the questions asked before, the latest first. -/
  | rule (answer : List Ask → Ask → Option String) (asked : List Ask)
  /-- Reads files: next to the origin first, then as named. -/
  | files

namespace Resolver

/-- A resolver whose answers depend on the question alone. -/
def pure (answer : Ask → Option String) : Resolver := .rule (fun _ => answer) []

/-- A resolver that knows some names and answers so many questions; hits and misses count. -/
def ofMap (entries : List (String × String)) (limit : Nat) : Resolver :=
  .rule (fun asked ask => if asked.length < limit then entries.lookup ask.name else none) []

/-- The paths at which a file may be found, in the order in which they are tried. -/
def candidates (ask : Ask) : List (List Char) :=
  let name := ask.name.toList
  match ask.origin with
  | some origin =>
    if isAbsolute name then [name] else [join (directory origin.toList) name, name]
  | none => [name]

/-- The first readable file of some candidates, and an event for each one before it. -/
def firstReadable (disk : Disk) : List (List Char) → Option String × List Event
  | [] => (none, [])
  | path :: rest =>
    let name := String.ofList path
    match disk.read name with
    | .ok text => (some text, [])
    | .error fault =>
      let (found, events) := firstReadable disk rest
      (found, .unreadable name fault.message :: events)

/-- Puts a question to a resolver: its answer, the resolver as it is afterwards, and what it
reports. -/
def ask (r : Resolver) (disk : Disk) (a : Ask) : Option String × Resolver × List Event :=
  match r with
  | .rule answer asked => (answer asked a, .rule answer (a :: asked), [])
  | .files =>
    let (found, events) := firstReadable disk (candidates a)
    (found, .files, events)

end Resolver

end Stencil.Include
