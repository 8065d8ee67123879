import Stencil.Error

/-!
# Outcomes

Templates can include each other for ever and scripts can run for ever, so every computation is
given a budget.  An outcome is a result, an error, or the end of the budget.
-/

namespace Stencil

/-- Why there is no result. -/
inductive Stop where
  /-- The template is at fault, or something outside. -/
  | error (e : Error)
  /-- The budget is used up. -/
  | exhausted
  deriving DecidableEq, Repr

/-- A result, or why there is none. -/
abbrev Outcome := Except Stop

/-- How much work a computation may do. -/
structure Budget where
  /-- The turns of a scan. -/
  turns : Nat
  /-- The depth of evaluation, and the repetitions of each loop. -/
  fuel : Nat
  deriving DecidableEq, Repr

/-- A budget that no template in use reaches. -/
def Budget.ample : Budget := ⟨1000000000, 1000000000⟩

end Stencil
