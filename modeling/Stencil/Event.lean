/-!
# Events

What the library reports about its work, in the order in which it happens.
-/

namespace Stencil

/-- How important an event is. -/
inductive Level where
  /-- Of interest to users. -/
  | debug
  /-- Of interest to developers. -/
  | trace
  deriving DecidableEq, Repr

/-- An event of compilation. -/
inductive Event where
  /-- A template of so many bytes is about to be compiled. -/
  | compiling (size : Nat) (origin : Option String)
  /-- An included text of so many bytes takes its place. -/
  | splicing (path : String) (origin : Option String) (size : Nat)
  /-- The chunk has been put together. -/
  | assembled (chunk : String)
  /-- The template has been compiled to so many instructions. -/
  | compiled (instrs : Nat) (origin : Option String)
  /-- A file that an include may mean cannot be read. -/
  | unreadable (path : String) (cause : String)
  deriving DecidableEq, Repr

namespace Event

/-- The level of an event. -/
def level : Event → Level
  | .assembled _ => .trace
  | _ => .debug

/-- The wording of an event. -/
def message : Event → String
  | .compiling .. => "compiling template"
  | .splicing .. => "splicing include"
  | .assembled _ => "assembled chunk"
  | .compiled .. => "compiled template"
  | .unreadable .. => "include candidate not readable"

end Event

/-- The name of a level. -/
def Level.name : Level → String
  | .debug => "DEBUG"
  | .trace => "TRACE"

end Stencil
