import Stencil.Proofs.Script.Spelling
import Stencil.Proofs.Script.Statements
import Stencil.Proofs.Script.Walks

/-!
# Constants

Literals of the script language: `nil`, truth values, numbers with or without a sign, and strings.  A
literal is read as an expression of its own in front of every token that is no operator (`reads_constant`),
and the value of that expression is always the same (`Constant.ends_expr`).
-/

namespace Stencil.Script

open Stencil.Text (Bytes bytesOf)

/-- A constant. -/
inductive Constant where
  /-- The lack of a value. -/
  | nil
  /-- A truth value. -/
  | bool (b : Bool)
  /-- A number. -/
  | number (n : Number)
  /-- A number after a minus sign. -/
  | negated (n : Number)
  /-- A string. -/
  | text (s : Bytes)
  deriving DecidableEq, Repr

namespace Constant

/-- The value of a constant. -/
def value : Constant → Value
  | nil => .nil
  | bool b => .bool b
  | number n => .number n
  | negated n => .number n.negate
  | text s => .string s

/-- The expression of a constant, without lines. -/
def expr : Constant → Expr
  | nil => .nil
  | bool true => .true
  | bool false => .false
  | number n => .number n
  | negated n => .unary .negate (.number n) 0
  | text s => .string s

/-- The constant that a token is. -/
def ofToken? : Token → Option Constant
  | .word .nil => some nil
  | .word .true => some (bool true)
  | .word .false => some (bool false)
  | .number n _ => some (number n)
  | .string s _ => some (text s)
  | _ => none

/-- The constant that some tokens are: a sign is a token of its own. -/
def ofTokens? : List Token → Option Constant
  | [t] => ofToken? t
  | [.mark .minus, .number n _] => some (negated n)
  | _ => none

theorem ofTokens?_cases {us : List Token} {c : Constant} (h : ofTokens? us = some c) :
    (∃ u, us = [u] ∧ ofToken? u = some c) ∨
      ∃ n spelled, us = [.mark .minus, .number n spelled] ∧ c = negated n := by
  rw [ofTokens?.eq_def] at h
  split at h
  · exact .inl ⟨_, rfl, h⟩
  · exact .inr ⟨_, _, rfl, (Option.some.inj h).symm⟩
  · cases h

/-- The constant that a text is, if it is a literal. -/
def ofText? (text : String) : Option Constant :=
  if IsLine (bytesOf text) then ofTokens? (lineTokens (bytesOf text)) else none

theorem value_ne_table (c : Constant) (id : Nat) : c.value ≠ .table id := by
  cases c <;> exact Value.noConfusion

end Constant

/-- A text that is a literal. -/
structure Literal where
  /-- The text. -/
  text : String
  /-- What it stands for. -/
  constant : Constant
  /-- The text is read so. -/
  reads : Constant.ofText? text = some constant

namespace Literal

/-- The value of a literal. -/
def value (l : Literal) : Value := l.constant.value

theorem isLine (l : Literal) : IsLine (bytesOf l.text) := by
  have h := l.reads
  rw [Constant.ofText?] at h
  split at h
  · assumption
  · cases h

theorem tokens (l : Literal) : Constant.ofTokens? (lineTokens (bytesOf l.text)) = some l.constant := by
  have h := l.reads
  rwa [Constant.ofText?, if_pos l.isLine] at h

end Literal

/-! ### Reading -/

section

variable {bad : Refusal → Prop} {level : Level} {r : Reader} {u t : Token} {ts us : List Token}
  {c : Constant}

/-- A constant of one token. -/
theorem reads_constantToken (hu : Constant.ofToken? u = some c) (h : r.tokens = u :: t :: ts)
    (ht : Parse.valid t) (hop : binaryOp? t = none) {limit : Nat} :
    Reads bad (level.readExpr limit) r fun e s ms => s.tokens = t :: ts ∧ e = c.expr ∧ ms = [] := by
  -- the token is the whole operand, whatever kind of constant it is
  have htaken (e : Expr) : Reads bad (Level.taken e) r fun e' s ms =>
      s.tokens = t :: ts ∧ e' = e ∧ ms = [] := .advance h ht fun s hs => .pure ⟨hs, rfl, rfl⟩
  refine .bind (Q := fun e s ms => s.tokens = t :: ts ∧ e = c.expr ∧ ms = []) ?_ ?_
  · cases u with
    | number n spelled =>
      obtain rfl : .number n = c := Option.some.inj hu
      exact .peek h (.peek h (htaken _))
    | string s spelled =>
      obtain rfl : .text s = c := Option.some.inj hu
      exact .peek h (.peek h (htaken _))
    | word w =>
      cases w with
      | nil =>
        obtain rfl : .nil = c := Option.some.inj hu
        exact .peek h (.peek h (htaken _))
      | true =>
        obtain rfl : .bool true = c := Option.some.inj hu
        exact .peek h (.peek h (htaken _))
      | false =>
        obtain rfl : .bool false = c := Option.some.inj hu
        exact .peek h (.peek h (htaken _))
      | _ => cases hu
    | _ => cases hu
  · rintro e s _ ⟨hs, rfl, rfl⟩
    exact reads_operators_end hop hs ⟨hs, rfl, rfl⟩

/-- A constant, if it is known how the number after a sign is read. -/
theorem reads_constantExpr (hu : Constant.ofTokens? us = some c) (h : r.tokens = us ++ t :: ts)
    (ht : Parse.valid t) (hop : binaryOp? t = none)
    (hnumber : ∀ {s n spelled}, s.tokens = .number n spelled :: t :: ts →
      Reads bad (level.expr unaryBinding) s fun e s' ms => s'.tokens = t :: ts ∧ e = .number n ∧ ms = []) :
    Reads bad (level.readExpr 0) r fun e s ms => s.tokens = t :: ts ∧ e.unlined = c.expr ∧ ms = [] := by
  rcases Constant.ofTokens?_cases hu with ⟨u, rfl, hu⟩ | ⟨n, spelled, rfl, rfl⟩
  · refine (reads_constantToken hu h ht hop).mono (fun _ => id) ?_
    rintro _ s _ ⟨hs, rfl, rfl⟩
    refine ⟨hs, ?_, rfl⟩
    cases c with
    | bool b => cases b <;> rfl
    | _ => rfl
  · refine .bind (Q := fun e s ms =>
      s.tokens = t :: ts ∧ e.unlined = (Constant.negated n).expr ∧ ms = []) ?_ ?_
    · refine .peek h (.advance h rfl fun s hs => .lastLine fun line => .bind (hnumber hs) ?_)
      rintro _ s _ ⟨hs, rfl, rfl⟩
      exact .lastLine fun last => .pure ⟨hs, rfl, rfl⟩
    · rintro e s _ ⟨hs, he, rfl⟩
      exact reads_operators_end hop hs ⟨hs, he, rfl⟩

variable {turns depth : Nat}

/-- **Constants.**  A constant is read as an expression in front of a token that is no operator. -/
theorem reads_constant (hu : Constant.ofTokens? us = some c) (h : r.tokens = us ++ t :: ts)
    (ht : Parse.valid t) (hop : binaryOp? t = none) :
    Reads bad (Level.at turns (depth + 2)).anyExpr r fun e s ms =>
      s.tokens = t :: ts ∧ e.unlined = c.expr ∧ ms = [] :=
  show Reads bad ((Level.at turns (depth + 1)).readExpr 0) r _ from
    reads_constantExpr hu h ht hop fun hs => reads_constantToken (c := .number _) rfl hs ht hop

end

/-! ### Evaluating -/

/-- A constant starts with a token that can be read. -/
theorem Constant.tokens_head {c : Constant} {us : List Token} (hu : Constant.ofTokens? us = some c)
    (ts : List Token) : ∃ t ts', us ++ ts = t :: ts' ∧ Parse.valid t := by
  rcases Constant.ofTokens?_cases hu with ⟨u, rfl, hu⟩ | ⟨n, spelled, rfl, rfl⟩
  · refine ⟨u, ts, rfl, ?_⟩
    cases u with
    | invalid f near => cases hu
    | _ => rfl
  · exact ⟨_, _, rfl, rfl⟩

theorem Constant.ends_expr {c : Constant} {e : Expr} (he : e.unlined = c.expr) (env : Env) (m : Machine) :
    Ends (fun level => level.expr env e) m fun v m' => v = c.value ∧ m.Leads m.tree m' := by
  have hpure {e : Expr} {v : Value} (h : ∀ level, Evaluator.runExpr level env e = pure v) :
      Ends (fun level => level.expr env e) m fun w m' => w = v ∧ m.Leads m.tree m' :=
    .below (p := fun _ => pure v) (.pure ⟨rfl, .refl m⟩) fun _ _ => h _
  cases c with
  | negated n =>
    cases e with
    | unary op operand line =>
      rw [Expr.unlined, Constant.expr, Expr.unary.injEq] at he
      obtain ⟨rfl, hoperand, -⟩ := he
      cases operand with
      | number n' =>
        obtain rfl : n' = n := Expr.number.inj hoperand
        have hnegate : Ends (fun level => level.runExpr env (.unary .negate (.number n') line)) m
            fun v m' => v = .number n'.negate ∧ m.Leads m.tree m' := by
          refine .bind (hpure (v := .number n') fun _ => rfl) ?_
          rintro _ m' ⟨rfl, hm⟩
          obtain ⟨m'', hline, hm'⟩ := Run.gives_atLine (m := m') line
          rw [hm.tree] at hm'
          exact .step hline (.pure ⟨rfl, hm.trans hm'⟩)
        exact .below hnegate fun _ _ => rfl
      | _ => cases hoperand
    | _ => cases he
  | bool b =>
    cases b with
    | true =>
      cases e with
      | true => exact hpure fun _ => rfl
      | _ => cases he
    | false =>
      cases e with
      | false => exact hpure fun _ => rfl
      | _ => cases he
  | nil =>
    cases e with
    | nil => exact hpure fun _ => rfl
    | _ => cases he
  | number n =>
    cases e with
    | number n' =>
      obtain rfl : n' = n := Expr.number.inj he
      exact hpure fun _ => rfl
    | _ => cases he
  | text s =>
    cases e with
    | string s' =>
      obtain rfl : s' = s := Expr.string.inj he
      exact hpure fun _ => rfl
    | _ => cases he

end Stencil.Script
