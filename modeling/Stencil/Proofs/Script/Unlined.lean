import Mathlib.Logic.Basic
import Stencil.Script.Syntax

/-!
# Trees without lines

A syntax tree carries lines for messages only.  Two trees that differ in nothing else are the same
program, so what is said about a tree that was read in a larger script is said without its lines.
-/

namespace Stencil.Script

open Stencil.Text (Bytes)

mutual

/-- An expression without its lines. -/
def Expr.unlined : Expr → Expr
  | .function f => .function f.unlined
  | .name x _ => .name x 0
  | .index object key _ => .index object.unlined key.unlined 0
  | .call callee args _ => .call callee.unlined (Expr.allUnlined args) 0
  | .method object name args _ _ => .method object.unlined name (Expr.allUnlined args) 0 0
  | .unary op operand _ => .unary op operand.unlined 0
  | .binary op left right _ => .binary op left.unlined right.unlined 0
  | .table fields => .table (Field.allUnlined fields)
  | .paren e => .paren e.unlined
  | .nil => .nil
  | .true => .true
  | .false => .false
  | .number n => .number n
  | .string s => .string s
  | .dots => .dots

/-- Expressions without their lines. -/
def Expr.allUnlined : List Expr → List Expr
  | [] => []
  | e :: es => e.unlined :: Expr.allUnlined es

/-- An item of a table without its lines. -/
def Field.unlined : Field → Field
  | .item value => .item value.unlined
  | .entry key value _ => .entry key.unlined value.unlined 0

/-- Items of a table without their lines. -/
def Field.allUnlined : List Field → List Field
  | [] => []
  | f :: fs => f.unlined :: Field.allUnlined fs

/-- A function without its lines. -/
def Function.unlined : Function → Function
  | .mk params vararg body => .mk params vararg (Stat.allUnlined body)

/-- A statement without its lines. -/
def Stat.unlined : Stat → Stat
  | .assign targets values _ => .assign (Expr.allUnlined targets) (Expr.allUnlined values) 0
  | .call e => .call e.unlined
  | .local names values _ => .local names (Expr.allUnlined values) 0
  | .localFunction name f => .localFunction name f.unlined
  | .block body => .block (Stat.allUnlined body)
  | .while condition body => .while condition.unlined (Stat.allUnlined body)
  | .repeat body condition => .repeat (Stat.allUnlined body) condition.unlined
  | .if condition body otherwise =>
    .if condition.unlined (Stat.allUnlined body) (Stat.allUnlined otherwise)
  | .numericFor name start stop step body _ =>
    .numericFor name start.unlined stop.unlined (Expr.optionUnlined step) (Stat.allUnlined body) 0
  | .genericFor names values body _ _ =>
    .genericFor names (Expr.allUnlined values) (Stat.allUnlined body) 0 0
  | .return values => .return (Expr.allUnlined values)
  | .break => .break
  | .goto label => .goto label
  | .label name => .label name

/-- Statements without their lines. -/
def Stat.allUnlined : List Stat → List Stat
  | [] => []
  | s :: ss => s.unlined :: Stat.allUnlined ss

/-- An expression that may be absent, without its lines. -/
def Expr.optionUnlined : Option Expr → Option Expr
  | none => none
  | some e => some e.unlined

end

theorem Expr.allUnlined_eq (es : List Expr) : Expr.allUnlined es = es.map Expr.unlined := by
  induction es with
  | nil => rfl
  | cons e es ih => rw [Expr.allUnlined, ih, List.map_cons]

theorem Field.allUnlined_eq (fs : List Field) : Field.allUnlined fs = fs.map Field.unlined := by
  induction fs with
  | nil => rfl
  | cons f fs ih => rw [Field.allUnlined, ih, List.map_cons]

theorem Stat.allUnlined_eq (ss : List Stat) : Stat.allUnlined ss = ss.map Stat.unlined := by
  induction ss with
  | nil => rfl
  | cons s ss ih => rw [Stat.allUnlined, ih, List.map_cons]

/-! ### Alike -/

/-- Two things are the same in some respect. -/
def Same {α β : Type} (f : α → β) (a a' : α) : Prop := f a = f a'

instance {α β : Type} (f : α → β) : Std.Refl (Same f) := ⟨fun _ => rfl⟩

namespace Expr

/-- Expressions that differ in lines only. -/
abbrev Alike : Expr → Expr → Prop := Same unlined

/-- Lists of expressions that differ in lines only. -/
abbrev AllAlike : List Expr → List Expr → Prop := Same allUnlined

@[simp]
theorem unlined_settle (line : Nat) (e : Expr) : (e.settle line).unlined = e.unlined := by
  cases e <;> rfl

@[simp]
theorem isAssignable_unlined (e : Expr) : e.unlined.isAssignable = e.isAssignable := by
  cases e <;> rfl

@[simp]
theorem isCall_unlined (e : Expr) : e.unlined.isCall = e.isCall := by
  cases e <;> rfl

theorem eq_name_of_unlined {e : Expr} {x : Bytes} {line : Nat} (h : e.unlined = .name x line) :
    ∃ line, e = .name x line := by
  cases e with
  | name y line' =>
    rw [unlined, Expr.name.injEq] at h
    exact ⟨line', by rw [h.1]⟩
  | _ => cases h

@[simp]
theorem allUnlined_reverse (es : List Expr) : allUnlined es.reverse = (allUnlined es).reverse := by
  simp [allUnlined_eq]

namespace Alike

variable {e e' : Expr}

theorem settle (h : e.Alike e') (line line' : Nat) : (e.settle line).Alike (e'.settle line') :=
  (unlined_settle line e).trans (Eq.trans h (unlined_settle line' e').symm)

theorem isAssignable (h : e.Alike e') : e.isAssignable = e'.isAssignable := by
  rw [← isAssignable_unlined, ← isAssignable_unlined e']
  exact congrArg Expr.isAssignable h

theorem isCall (h : e.Alike e') : e.isCall = e'.isCall := by
  rw [← isCall_unlined, ← isCall_unlined e']
  exact congrArg Expr.isCall h

/-- A choice between variables and anything else is made alike. -/
theorem cases (h : e.Alike e') :
    (∃ x line line', e = .name x line ∧ e' = .name x line') ∨
    (∀ x line, e ≠ .name x line) ∧ ∀ x line, e' ≠ .name x line := by
  have hname {e : Expr} {x : Bytes} {line : Nat} (he : e = .name x line) :
      e.unlined = .name x 0 := by rw [he, unlined]
  by_cases hsome : ∃ x line, e = .name x line
  · obtain ⟨x, line, he⟩ := hsome
    obtain ⟨line', he'⟩ := eq_name_of_unlined (Eq.trans (Eq.symm h) (hname he))
    exact .inl ⟨x, line, line', he, he'⟩
  · refine .inr ⟨fun x line he => hsome ⟨x, line, he⟩, fun x line he' => ?_⟩
    obtain ⟨line', he⟩ := eq_name_of_unlined (Eq.trans h (hname he'))
    exact hsome ⟨x, line', he⟩

end Alike

theorem AllAlike.cons {e e' : Expr} {es es' : List Expr} (he : e.Alike e')
    (hes : AllAlike es es') : AllAlike (e :: es) (e' :: es') :=
  congrArg₂ List.cons he hes

theorem AllAlike.reverse {es es' : List Expr} (h : AllAlike es es') :
    AllAlike es.reverse es'.reverse :=
  (allUnlined_reverse es).trans
    ((congrArg List.reverse h).trans (allUnlined_reverse es').symm)

end Expr

/-- Lists of items that differ in lines only. -/
abbrev Field.AllAlike : List Field → List Field → Prop := Same Field.allUnlined

/-- Functions that differ in lines only. -/
abbrev Function.Alike : Function → Function → Prop := Same Function.unlined

/-- Blocks that differ in lines only. -/
abbrev Block.Alike : Block → Block → Prop := Same Stat.allUnlined

@[simp]
theorem Stat.allUnlined_append (b c : Block) :
    allUnlined (b ++ c) = allUnlined b ++ allUnlined c := by
  simp [allUnlined_eq]

@[simp]
theorem Stat.allUnlined_reverse (b : Block) : allUnlined b.reverse = (allUnlined b).reverse := by
  simp [allUnlined_eq]

namespace Block.Alike

variable {b b' c c' : Block}

theorem append (hb : b.Alike b') (hc : c.Alike c') : Block.Alike (b ++ c) (b' ++ c') :=
  (Stat.allUnlined_append b c).trans
    ((congrArg₂ List.append hb hc).trans (Stat.allUnlined_append b' c').symm)

theorem reverse (hb : b.Alike b') : Block.Alike b.reverse b'.reverse :=
  (Stat.allUnlined_reverse b).trans
    ((congrArg List.reverse hb).trans (Stat.allUnlined_reverse b').symm)

end Block.Alike

end Stencil.Script
