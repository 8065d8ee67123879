import Stencil.Proofs.Script.Constants
import Stencil.Proofs.Script.Layers

/-!
# Assignments of constants

Statements that give a constant to a name, to a field of a table with a name, or to a new variable: how they
are read (`reads_assignStat`) and what they do to the machine.  An assignment to a variable changes its cell;
an assignment to any other name is written to the table of the script's own names.
-/

namespace Stencil.Script

open Evaluator
open Stencil.Text (Bytes bytesOf)

/-! ### Reading -/

section

variable {bad : Refusal → Prop} {level : Level} {r : Reader} {t k : Token} {ts u : List Token}
  {x f : Bytes}

/-- What an assignment to a target mentions. -/
def Expr.assigned : Expr → List Mention
  | .name x _ => [.assign x]
  | _ => []

theorem Expr.assigned_unlined (e : Expr) : e.unlined.assigned = e.assigned := by
  cases e <;> rfl

theorem reads_check {e : Expr} (he : e.isAssignable) :
    Reads bad (Level.moreTargets.check e) r fun _ s ms => s.tokens = r.tokens ∧ ms = e.assigned := by
  rw [Level.moreTargets.check.eq_def, if_pos he]
  cases e with
  | name x line => exact .of_gives (Parse.gives_note (.assign x)) rfl ⟨rfl, rfl⟩
  | index object key line => exact .pure ⟨rfl, rfl⟩
  | _ => cases he

/-- A name as the target of an assignment. -/
theorem reads_nameTarget (h : r.tokens = .name x :: .mark .assign :: ts) :
    Reads bad level.suffixed r fun e s ms =>
      s.tokens = .mark .assign :: ts ∧ e.unlined = .name x 0 ∧ ms = [] := by
  have hprimary : Reads bad level.primary r fun e s ms =>
      s.tokens = .mark .assign :: ts ∧ e.unlined = .name x 0 ∧ ms = [] :=
    .peek h (.advance h rfl fun s hs => .lastLine fun line => .pure ⟨hs, rfl, rfl⟩)
  refine .bind hprimary ?_
  rintro e s _ ⟨hs, he, rfl⟩
  cases level.turns with
  | zero => exact .pure ⟨hs, he, rfl⟩
  | succ turns => exact .lastLine fun _ => .peek hs (.pure ⟨hs, he, rfl⟩)

/-- A field of what a name stands for as the target of an assignment. -/
theorem reads_fieldTarget (hturns : 0 < level.turns)
    (h : r.tokens = .name x :: .mark .dot :: .name f :: .mark .assign :: ts) :
    Reads bad level.suffixed r fun e s ms => s.tokens = .mark .assign :: ts ∧
      e.unlined = .index (.name x 0) (.string f) 0 ∧ ms = [] := by
  have hprimary : Reads bad level.primary r fun e s ms => s.tokens =
      .mark .dot :: .name f :: .mark .assign :: ts ∧ e.unlined = .name x 0 ∧ ms = [] :=
    .peek h (.advance h rfl fun s hs => .lastLine fun line => .pure ⟨hs, rfl, rfl⟩)
  refine .bind hprimary ?_
  rintro e s _ ⟨hs, he, rfl⟩
  obtain ⟨turns, hturns⟩ : ∃ turns, level.turns = turns + 1 := ⟨level.turns - 1, by omega⟩
  rw [hturns]
  refine .lastLine fun line => .peek hs (.advance hs rfl fun s hs => .name hs rfl fun s hs => ?_)
  refine .lastLine fun line' => ?_
  have hfield : (Expr.index (e.settle line) (.string f) line').unlined =
      .index (.name x 0) (.string f) 0 := by
    rw [Expr.unlined, Expr.unlined_settle, he, Expr.unlined]
  cases turns with
  | zero => exact .pure ⟨hs, hfield, rfl⟩
  | succ turns => exact .lastLine fun _ => .peek hs (.pure ⟨hs, hfield, rfl⟩)

/-- An assignment of one expression to one target. -/
theorem reads_assignStat {target value : Expr} (hassignable : target.isAssignable)
    (htarget : Reads bad level.suffixed r fun e s ms =>
      s.tokens = .mark .assign :: t :: ts ∧ e.unlined = target ∧ ms = []) (ht : Parse.valid t)
    (hexpr : ∀ s, s.tokens = t :: ts → Reads bad level.anyExpr s fun e s ms =>
      s.tokens = k :: u ∧ e.unlined = value ∧ ms = []) (hk : k ≠ .mark .comma) :
    Reads bad level.exprStat r fun ss s ms => s.tokens = k :: u ∧
      Stat.allUnlined ss = [.assign [target] [value] 0] ∧ ms = target.assigned := by
  refine .bind htarget ?_
  rintro first s _ ⟨hs, rfl, rfl⟩
  rw [Expr.isAssignable_unlined] at hassignable
  refine .peek hs (.bind (reads_check hassignable) ?_)
  rintro _ s' _ ⟨hs', rfl⟩
  have hs' := hs'.trans hs
  -- there is one target, because no comma comes after it
  have hmore : Reads bad (level.moreTargets level.turns [first]) s' fun targets s'' ms =>
      s''.tokens = s'.tokens ∧ targets = [first] ∧ ms = [] := by
    cases level.turns with
    | zero => exact .pure ⟨rfl, rfl, rfl⟩
    | succ turns => exact .skip_false hs' (by decide) (.pure ⟨rfl, rfl, rfl⟩)
  refine .bind hmore ?_
  rintro _ s'' _ ⟨hs'', rfl, rfl⟩
  refine .expect (hs''.trans hs') ht fun s hs => ?_
  simp only [Level.exprs, bind_assoc, pure_bind]
  refine .bind (reads_oneExpr (G := fun e ms => e.unlined = value ∧ ms = []) hk (hexpr s hs)) ?_
  rintro _ s _ ⟨hs, e, rfl, he, rfl⟩
  refine .lastLine fun line => .lastLine fun line' => .pure ⟨hs, ?_, ?_⟩
  · simp [Level.settleLast, Stat.allUnlined, Stat.unlined, Expr.allUnlined, he]
  · simp [Expr.assigned_unlined]

end

/-! ### Running -/

variable {m m' : Machine} {env : Env} {c : Constant} {s : Stat} {e : Expr} {x g : Bytes} {id : Nat}
  {v : Value}

/-- A machine whose table has a value under a name. -/
def Machine.write (m : Machine) (id : Nat) (x : Bytes) (v : Value) : Machine :=
  { m with tables := m.tables.modify id fun t => t.set (.string x) v }

/-- A machine whose variable has a value. -/
def Machine.put (m : Machine) (id : Nat) (v : Value) : Machine :=
  { m with cells := m.cells.setIfInBounds id v }

theorem Constant.isPlain (c : Constant) (ts : Array Table) : IsPlain ts c.value :=
  fun id h => absurd h (c.value_ne_table id)

/-- A constant as the only expression of a list. -/
theorem Constant.ends_exprs (he : e.unlined = c.expr) (env : Env) (m : Machine) :
    Ends (fun level => level.exprs env [e]) m fun vs m' => vs = [c.value] ∧ m.Leads m.tree m' := by
  have hresults (level : Evaluator) : level.runResults env e = do return [← level.expr env e] := by
    cases e with
    | dots => cases c with
      | bool b => cases b <;> cases he
      | _ => cases he
    | call callee args line => cases c with
      | bool b => cases b <;> cases he
      | _ => cases he
    | method object name args nameLine line => cases c with
      | bool b => cases b <;> cases he
      | _ => cases he
    | _ => rfl
  refine .below (p := fun level => level.runResults env e) ?_ fun _ _ => rfl
  simp only [hresults]
  refine .bind (Constant.ends_expr he env m) ?_
  rintro _ m' ⟨rfl, hm⟩
  exact .pure ⟨rfl, hm⟩

/-- An assignment of a constant to one target. -/
theorem ends_assignStat {target : Expr} {P : Target → Machine → Prop} {Q : Machine → Prop} {line : Nat}
    (htarget : Ends (fun level => level.target env target) m P) (he : e.unlined = c.expr)
    (hstore : ∀ t m₁, P t m₁ → ∀ m₂, m₁.Leads m₁.tree m₂ →
      ∃ m₃, (store t c.value).Gives m₂ () m₃ ∧ Q m₃) :
    Ends (fun level => level.runStat env (.assign [target] [e] line)) m fun exit m' =>
      exit = .next env ∧ Q m' := by
  have htargets : Ends (fun level => level.targets env [target]) m fun ts m' =>
      ∃ t, ts = [t] ∧ P t m' := .bind htarget fun t m' h => .step (Run.gives_pure _) (.pure ⟨t, rfl, h⟩)
  refine .bind htargets ?_
  rintro _ m₁ ⟨t, rfl, ht⟩
  refine .bind (c.ends_exprs he env m₁) ?_
  rintro _ m₂ ⟨rfl, h₂⟩
  obtain ⟨m₃, hline, h₃⟩ := Run.gives_atLine (m := m₂) line
  obtain ⟨m₄, hgives, hQ⟩ := hstore t m₁ ht m₃ (h₂.trans_tree h₃)
  have hall : (storeAll [t] [c.value]).Gives m₃ () m₄ := (Run.gives_pure ()).bind hgives
  exact .step hline (.step hall (.pure ⟨rfl, hQ⟩))

/-- An assignment to a variable. -/
theorem ends_assignVariable {line line' : Nat} (hx : env.find? x = some id) (he : e.unlined = c.expr) :
    Ends (fun level => level.runStat env (.assign [.name x line] [e] line')) m fun exit m' =>
      exit = .next env ∧ ∃ m₁, m.Leads m.tree m₁ ∧ m' = m₁.put id c.value := by
  have htarget : Ends (fun level => level.target env (.name x line)) m fun t m' =>
      t = .cell id ∧ m' = m := by
    simp only [Evaluator.target, hx]
    exact .pure ⟨rfl, rfl⟩
  refine ends_assignStat htarget he ?_
  rintro _ m₁ ⟨rfl, rfl⟩ m₂ hm
  exact ⟨_, Run.gives_modify _, m₂, hm, rfl⟩

/-- A value is written to a field of a table. -/
theorem gives_storeField {object key : Run Value} (hobject : object.Gives m (.table id) m)
    (hkey : key.Gives m (.string x) m) (site : Option Site) :
    (store (.field object key site) v).Gives m () (m.write id x v) :=
  hobject.bind (hkey.bind (Run.gives_modify _))

/-- An assignment to a name that is no variable. -/
theorem ends_assignShared {line line' : Nat} (hx : env.find? x = none)
    (hglobals : m.Holds env globalsName (.table id)) (he : e.unlined = c.expr) :
    Ends (fun level => level.runStat env (.assign [.name x line] [e] line')) m fun exit m' =>
      exit = .next env ∧ ∃ m₁, m.Leads m.tree m₁ ∧ m' = m₁.write id x c.value := by
  have htarget : Ends (fun level => level.target env (.name x line)) m fun t m' =>
      t = .field (Evaluator.globals env) (return .string x) (globalsSite env) ∧ m' = m := by
    simp only [Evaluator.target, hx]
    exact .pure ⟨rfl, rfl⟩
  refine ends_assignStat htarget he ?_
  rintro _ m₁ ⟨rfl, rfl⟩ m₂ hm
  obtain ⟨cell, hcell, hid⟩ := hglobals
  have hobject : (Evaluator.globals env).Gives m₂ (.table id) m₂ := by
    simp only [Evaluator.globals, hcell]
    exact Run.gives_cell (hm.cells _ _ hid)
  exact ⟨_, gives_storeField hobject (Run.gives_pure _) _, m₂, hm, rfl⟩

/-- An operand that is no variable of the function. -/
theorem ends_operand (hown : ownVariable? env e = none)
    (h : Ends (fun level => level.expr env e) m fun w m' => w = v ∧ m.Leads m.tree m') :
    Ends (fun level => level.operand env e) m fun o m' => o = pure v ∧ m.Leads m.tree m' := by
  simp only [Evaluator.operand, hown]
  refine .bind h ?_
  rintro _ m' ⟨rfl, hm⟩
  exact .pure ⟨rfl, hm⟩

/-- An assignment to a field of the table that a name stands for. -/
theorem ends_assignField {line line' line'' : Nat} (hg : env.own.lookup g = none)
    (hread : Ends (fun level => level.expr env (.name g line)) m fun v m' =>
      v = .table id ∧ m.Leads m.tree m') (he : e.unlined = c.expr) :
    Ends (fun level => level.runStat env (.assign [.index (.name g line) (.string x) line'] [e] line'')) m
      fun exit m' => exit = .next env ∧ ∃ m₁, m.Leads m.tree m₁ ∧ m' = m₁.write id x c.value := by
  have hstring (m : Machine) : Ends (fun level => level.expr env (.string x)) m fun v m' =>
      v = .string x ∧ m.Leads m.tree m' :=
    Constant.ends_expr (c := .text x) rfl env m
  have htarget : Ends (fun level => level.target env (.index (.name g line) (.string x) line')) m
      fun t m' => (∃ site, t = .field (pure (.table id)) (pure (.string x)) site) ∧ m.Leads m.tree m' := by
    refine .bind (ends_operand (e := .name g line) hg hread) ?_
    rintro _ m₁ ⟨rfl, h₁⟩
    refine .bind (ends_operand (e := .string x) rfl (hstring m₁)) ?_
    rintro _ m₂ ⟨rfl, h₂⟩
    exact .pure ⟨⟨_, rfl⟩, h₁.trans_tree h₂⟩
  refine ends_assignStat htarget he ?_
  rintro _ m₁ ⟨⟨site, rfl⟩, h₁⟩ m₂ h₂
  exact ⟨_, gives_storeField (Run.gives_pure _) (Run.gives_pure _) _, m₂, h₁.trans_tree h₂, rfl⟩

/-- A declaration of a variable. -/
theorem ends_declareStat {line : Nat} (he : e.unlined = c.expr) :
    Ends (fun level => level.runStat env (.local [(x, .plain)] [e] line)) m fun exit m' =>
      ∃ m₁, exit = .next (env.declare [(x, m₁.cells.size)]) ∧ m.Leads m.tree m₁ ∧ m' = m₁.push c.value := by
  refine .bind (c.ends_exprs he env m) ?_
  rintro _ m₁ ⟨rfl, h₁⟩
  have hcells : (Run.newCells [x] [c.value]).Gives m₁ [(x, m₁.cells.size)] (m₁.push c.value) :=
    (Run.gives_newCell _).bind (Run.gives_pure _)
  exact .step hcells (.pure ⟨m₁, rfl, h₁, rfl⟩)

end Stencil.Script
