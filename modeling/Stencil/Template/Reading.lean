import Stencil.Outcome
import Stencil.Template.Scan

/-!
# Reading templates

The instructions of a whole template, with what the reading did to the resolvers and what it
reported.
-/

namespace Stencil.Template

/-- A result together with the engine as it is afterwards and what was reported. -/
structure Traced (α : Type) where
  /-- The result. -/
  outcome : Outcome α
  /-- The engine. -/
  engine : Engine
  /-- The events, in order. -/
  events : List Event

/-- The instructions of a template. -/
def read (turns : Nat) (engine : Engine) (origin : Option String) (source : String) :
    Traced (List Instr) :=
  match (Scan.start engine origin source).run turns with
  | some (.done s) => ⟨.ok s.instructions, s.engine, s.events.reverse⟩
  | some (.fault f place s) => ⟨.error (.error (.tag f place)), s.engine, s.events.reverse⟩
  | some (.more s) => ⟨.error .exhausted, s.engine, s.events.reverse⟩
  | none => ⟨.error .exhausted, engine, []⟩

end Stencil.Template
