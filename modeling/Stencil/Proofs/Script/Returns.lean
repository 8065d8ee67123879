import Stencil.Proofs.Script.Assignments
import Stencil.Proofs.Script.Complete

/-!
# Returns

A `return` of a constant or of nothing, in a block of its own, ends the function around it: it leaves every
choice and loop that it stands in, and nothing that comes after it is run.

* `reads_returnBlock` : how it is read, wherever it stands and whatever comes after it.
* `reads_nextStat` : a block has the statement that it is known to go on with, and maybe more.
* `Header.Enters` : what the first turn of a loop starts with, and what is closed after the loop.
* `ends_returnBlock`, `ends_ifReturns`, `ends_loopReturns` : how it is run, by itself and inside choices and
  loops.
-/

namespace Stencil.Script

open Evaluator
open Stencil.Text (Bytes bytesOf)

/-! ### Rules of which little is known -/

section

variable {α β : Type} {bad : Refusal → Prop} {kind : Mention → Prop} {c : Nat} {p : Parse α}
  {q : Parse β} {r : Reader} {Q : α → Reader → List Mention → Prop}

/-- A rule may be refused, and of its result is known what it gives. -/
theorem Takes.reads (h : Takes kind c p) (hbad : ∀ e, bad e)
    (hQ : ∀ a s ms, p.Gives r a s → Q a s ms) : Reads bad p r Q := by
  rw [Reads]
  cases hrun : p.runOn r with
  | mk o s =>
    cases o with
    | error e => exact hbad e
    | ok a =>
      obtain ⟨-, -, ms, hms, -⟩ := h r a s hrun
      refine ⟨(ms.map (·.1)).reverse, ?_, hQ a s _ hrun⟩
      rw [hms, List.map_append, List.reverse_reverse]

/-- A rule after one, each of which may take nothing. -/
theorem Takes.then {f : α → Parse β} (h : Takes kind 0 p) (hf : ∀ a, Takes kind 0 (f a)) :
    Takes kind 0 (p >>= f) := h.bind hf

/-- What is known of a rule, and what it gives. -/
theorem Reads.gives (h : Reads bad p r Q) : Reads bad p r fun a s ms => Q a s ms ∧ p.Gives r a s := by
  rw [Reads] at h ⊢
  split at h
  next a s heq =>
    obtain ⟨ms, hms, hQ⟩ := h
    exact ⟨ms, hms, hQ, heq⟩
  next => exact h

/-- The end of a construct, if it is there. -/
theorem Reads.closeAny {closing opening : Token} {line : Nat} {P : β → Prop} (hbad : ∀ e, bad e)
    (hq : ∀ s, Reads bad q s fun b _ _ => P b) :
    Reads bad (Parse.close closing opening line >>= fun _ => q) r fun b _ _ => P b :=
  have htakes : Takes Mention.IsInner 1 (Parse.close closing opening line) :=
    (show Mirrors default Mention.IsInner Eq 1 0 _ _ from .close closing opening line line).takes
  .bind (htakes.reads hbad fun _ _ _ _ => trivial) fun _ s _ _ => hq s

end

/-! ### Statements of which more may follow -/

section

variable {bad : Refusal → Prop} {turns depth n : Nat} {r s : Reader} {t : Token} {ts : List Token}
  {done b : Block}

theorem Level.takes_statsFrom (turns depth n : Nat) (done : Block) :
    Takes Mention.IsInner 0 ((Level.at turns depth).statsFrom n done) := by
  induction n generalizing done with
  | zero => exact .pure _
  | succ n ih =>
    have hstat : Takes Mention.IsInner 0 (Level.at turns depth).stat :=
      (takes_stat turns depth).weaken (Nat.zero_le 1)
    have hpeek : Takes Mention.IsInner 0 Parse.peek := .of_still fun _ => rfl
    rw [Level.statsFrom, blockEnds_eq, bind_assoc]
    refine hpeek.then fun t => ?_
    rw [pure_bind]
    split
    · exact .pure _
    · refine hpeek.then fun t => ?_
      split
      · exact hstat.then fun ss => .pure _
      · exact hstat.then fun ss => ih _

/-- The statements that have been read stay. -/
theorem Level.prefix_of_statsFrom {level : Level} (h : (level.statsFrom n done).Gives r b s) :
    done.reverse <+: b := by
  induction n generalizing done r with
  | zero =>
    cases h
    exact List.prefix_rfl
  | succ n ih =>
    rw [Level.statsFrom, blockEnds_eq, bind_assoc, gives_peek_iff, pure_bind] at h
    split at h
    · cases h
      exact List.prefix_rfl
    · rw [gives_peek_iff] at h
      split at h
      · obtain ⟨ss, r', -, hb⟩ := Parse.gives_bind_iff.1 h
        cases hb
        rw [List.reverse_append]
        exact List.prefix_append _ _
      · obtain ⟨ss, r', -, hb⟩ := Parse.gives_bind_iff.1 h
        refine .trans ?_ (ih hb)
        rw [List.reverse_append]
        exact List.prefix_append _ _

/-- A block goes on with a statement that is known, and maybe with others after it. -/
theorem reads_nextStat (hbad : ∀ e, bad e) (h : r.tokens = t :: ts) (ht : t.endsBlock = false)
    (hreturn : t ≠ .word .return) {P : Stat → Prop}
    (hstat : Reads bad (Level.at turns depth).stat r fun ss _ _ =>
      ∃ st, Stat.allUnlined ss = [st] ∧ P st) :
    Reads bad ((Level.at turns depth).statsFrom (n + 1) done) r fun b _ _ =>
      ∃ st rest, Stat.allUnlined b = (Stat.allUnlined done).reverse ++ st :: rest ∧ P st := by
  refine reads_turn h ht hreturn hstat fun ss s ms ⟨st, hss, hP⟩ => ?_
  refine (Level.takes_statsFrom turns depth n _).reads hbad fun b s' _ hgives => ?_
  obtain ⟨more, rfl⟩ := Level.prefix_of_statsFrom hgives
  refine ⟨st, Stat.allUnlined more, ?_, hP⟩
  simp [hss]

theorem Level.takes_otherwise (turns depth n : Nat) :
    Takes Mention.IsInner 0 ((Level.at turns depth).otherwise n) := by
  have hlevel : Level.Mirrored default 0 (Level.at turns depth) (Level.at turns depth) :=
    mirrored_at (Nat.zero_le turns) (Nat.zero_le turns) depth depth
  induction n with
  | zero => exact .pure _
  | succ n ih =>
    rw [Level.otherwise]
    refine Takes.then (.of_still fun _ => rfl) fun t => ?_
    split
    · exact (hlevel.branch.takes.weaken (Nat.zero_le 1)).then fun _ => ih.then fun _ => .pure _
    · exact (Takes.advance.weaken (Nat.zero_le 1)).then fun _ => hlevel.block.takes
    · exact .pure _

/-- A choice is read to its end, whatever its other branches are. -/
theorem reads_ifRest (hbad : ∀ e, bad e) {condition : Expr} {line : Nat} {P : Block → Prop}
    (hP : ∀ other, P [.if condition b other]) :
    Reads bad (do
      let other ← (Level.at turns depth).otherwise n
      Parse.close (.word .end) (.word .if) line
      return [.if condition b other]) r fun ss _ _ => P ss :=
  .bind ((Level.takes_otherwise turns depth n).reads hbad fun _ _ _ _ => trivial) fun other _ _ _ =>
    .closeAny hbad fun _ => .pure (hP other)

end

/-! ### Reading -/

/-- The values of a `return`: their tokens and their expressions, without lines. -/
inductive Returned : List Token → List Expr → Prop
  /-- Nothing. -/
  | nothing : Returned [] []
  /-- A constant. -/
  | constant {us : List Token} {c : Constant} (h : Constant.ofTokens? us = some c) : Returned us [c.expr]

/-- A constant starts with a token that no block ends at. -/
theorem Constant.tokens_inside {c : Constant} {us : List Token} (hu : Constant.ofTokens? us = some c)
    (ts : List Token) :
    ∃ t ts', us ++ ts = t :: ts' ∧ Parse.valid t ∧ t.endsBlock = false ∧ t ≠ .mark .semicolon := by
  rcases Constant.ofTokens?_cases hu with ⟨u, rfl, hu⟩ | ⟨n, spelled, rfl, rfl⟩
  · refine ⟨u, ts, rfl, ?_⟩
    cases u with
    | word w =>
      cases w with
      | nil | true | false => exact ⟨rfl, rfl, Token.noConfusion⟩
      | _ => cases hu
    | number n spelled => exact ⟨rfl, rfl, Token.noConfusion⟩
    | string s spelled => exact ⟨rfl, rfl, Token.noConfusion⟩
    | _ => cases hu
  · exact ⟨_, _, rfl, rfl, rfl, by decide⟩

section

variable {bad : Refusal → Prop} {turns depth : Nat} {r : Reader} {us ts : List Token} {vs : List Expr}

/-- The values of a `return` in front of the end of a block. -/
theorem reads_returned (hbad : ∀ e, bad e) (hus : Returned us vs)
    (h : r.tokens = us ++ .word .end :: ts) :
    Reads bad (Level.at turns depth).returnStat r fun ss _ _ => Stat.allUnlined ss = [.return vs] := by
  cases hus with
  | nothing =>
    refine (reads_bareReturn h rfl).mono (fun _ => id) ?_
    rintro _ _ _ ⟨-, rfl, -⟩
    rfl
  | @constant us c hu =>
    obtain ⟨t, ts', hts, -, hends, hsemicolon⟩ := Constant.tokens_inside hu (.word .end :: ts)
    have hexpr : Reads bad (Level.at turns depth).anyExpr r fun e s ms =>
        s.tokens = .word .end :: ts ∧ e.unlined = c.expr ∧ ms = [] := by
      cases depth with
      | zero => exact .refuse fun _ => hbad _
      | succ depth =>
        change Reads bad ((Level.at turns depth).readExpr 0) r _
        refine reads_constantExpr hu h rfl rfl fun hs => ?_
        cases depth with
        | zero => exact .refuse fun _ => hbad _
        | succ depth => exact reads_constantToken (c := .number _) rfl hs rfl rfl
    refine (reads_returnStat (h.trans hts) hends hsemicolon (by decide) (by decide) hexpr).mono
      (fun _ => id) ?_
    rintro _ _ _ ⟨-, e, line, rfl, he, -⟩
    simp [Stat.allUnlined, Stat.unlined, Expr.allUnlined, he]

/-- A `return` in a block of its own. -/
theorem reads_returnBlock (hbad : ∀ e, bad e) (hus : Returned us vs) (hturns : 0 < turns)
    (h : r.tokens = .word .do :: .word .return :: (us ++ .word .end :: ts)) :
    Reads bad (Level.at turns depth).readStat r fun ss _ _ =>
      Stat.allUnlined ss = [.block [.return vs]] := by
  have hbody {s : Reader} (hs : s.tokens = .word .return :: (us ++ .word .end :: ts)) :
      Reads bad (Level.at turns depth).stats s fun b _ _ => Stat.allUnlined b = [.return vs] := by
    obtain ⟨turns, rfl⟩ : ∃ n, turns = n + 1 := ⟨turns - 1, by omega⟩
    rw [Level.stats, Level.at_turns]
    refine reads_lastTurn hs ?_
    cases depth with
    | zero => exact .refuse fun _ => hbad _
    | succ depth =>
      obtain ⟨t, ts', hts, ht⟩ : ∃ t ts', us ++ .word .end :: ts = t :: ts' ∧ Parse.valid t := by
        cases hus with
        | nothing => exact ⟨_, _, rfl, rfl⟩
        | constant hu => exact Constant.tokens_head hu _
      rw [hts] at hs
      refine .nextLine fun line => .peek hs (.advance hs ht fun s hs => ?_)
      refine (reads_returned hbad hus (hs.trans hts.symm)).mono (fun _ => id) fun ss _ _ hss => ?_
      simp [hss]
  refine .nextLine fun line => .peek h (.advance h rfl fun s hs => ?_)
  refine .bind (reads_block (B := fun b _ _ => Stat.allUnlined b = [.return vs])
    fun s' hs' => hbody (hs'.trans hs)) ?_
  rintro b s _ ⟨-, -, hb⟩
  refine .closeAny hbad fun s => .pure ?_
  rw [Stat.allUnlined, Stat.unlined, hb, Stat.allUnlined]

end

/-! ### Running -/

variable {m m' : Machine} {env : Env} {s : Stat} {b : Block} {Q : Machine → Prop}

/-- A function is left by a `return`, in a machine of which something is known. -/
def Returns (Q : Machine → Prop) (exit : Exit) (m : Machine) : Prop := ∃ vs, exit = .return vs ∧ Q m

/-- Nothing after a statement that returns is run. -/
theorem Walks.returns (hs : ∀ x, s ≠ .label x)
    (h : Ends (fun level => level.runStat env s) m (Returns Q)) : Walks env (s :: b) m (Returns Q) :=
  .cons hs (h.mono fun _ _ ⟨vs, hexit, hQ⟩ => .inr ⟨vs, hexit, vs, hexit, hQ⟩)

/-- A block with variables of its own is left. -/
theorem Walks.innerReturns (h : Walks env b m (Returns Q)) :
    Ends (fun level => level.inner env b) m (Returns Q) := by
  refine .bind h.block ?_
  rintro _ m' ⟨vs, rfl, hQ⟩
  exact .pure ⟨vs, rfl, hQ⟩

/-- Constants are no calls, so they are given as they are. -/
theorem ends_returned {us : List Token} {vs : List Expr} (hus : Returned us vs)
    (hs : s.unlined = .return vs) :
    Ends (fun level => level.runStat env s) m (Returns fun m' => m.Leads m.tree m') := by
  cases s with
  | «return» values =>
    rw [Stat.unlined, Stat.return.injEq, Expr.allUnlined_eq] at hs
    cases hus with
    | nothing =>
      rw [List.map_eq_nil_iff.1 hs]
      exact .pure ⟨[], rfl, .refl m⟩
    | @constant us c hu =>
      obtain ⟨e, rfl, he⟩ := List.map_eq_singleton_iff.1 hs
      have hvalues (level : Evaluator) :
          level.runReturn env [e] = do return .return (← level.exprs env [e]) := by
        cases e with
        | call callee args line => cases c with
          | bool b => cases b <;> cases he
          | _ => cases he
        | method object name args nameLine line => cases c with
          | bool b => cases b <;> cases he
          | _ => cases he
        | _ => rfl
      change Ends (fun level => level.runReturn env [e]) m _
      simp only [hvalues]
      refine .bind (c.ends_exprs he env m) ?_
      rintro vs m' ⟨-, hm⟩
      exact .pure ⟨vs, rfl, hm⟩
  | _ => cases hs

/-- A `return` in a block of its own. -/
theorem ends_returnBlock {us : List Token} {vs : List Expr} (hus : Returned us vs)
    (hs : s.unlined = .block [.return vs]) :
    Ends (fun level => level.runStat env s) m (Returns fun m' => m.Leads m.tree m') := by
  cases s with
  | block body =>
    rw [Stat.unlined, Stat.block.injEq, Stat.allUnlined_eq] at hs
    obtain ⟨s, rfl, hreturn⟩ := List.map_eq_singleton_iff.1 hs
    refine (Walks.returns (fun x hx => ?_) (ends_returned hus hreturn)).innerReturns
    rw [hx] at hreturn
    cases hreturn
  | _ => cases hs

/-- A choice whose condition holds and whose first branch returns. -/
theorem ends_ifReturns {condition : Expr} {other : Block}
    (h : Ends (fun level => level.expr env condition) m fun v m' =>
      v.isTrue ∧ Walks env b m' (Returns Q)) :
    Ends (fun level => level.runStat env (.if (.paren condition) b other)) m (Returns Q) := by
  refine .bind (.below h fun _ _ => rfl) fun v m' ⟨hv, hwalks⟩ => ?_
  simp only [hv, if_true]
  exact hwalks.innerReturns

/-! ### Closing -/

/-- Closing a value, if there is anything to close, leads to a machine of which something is known. -/
def Closes (v : Value) (Q : Machine → Prop) (m : Machine) : Prop :=
  if v.isTrue then Ends (fun level => level.close v .nil) m fun _ m' => Q m' else Q m

/-- A part of a function that returns, with a value that is closed after it. -/
theorem ends_closing {v : Value} {part : Evaluator → Run Exit} (h : Ends part m (Returns (Closes v Q))) :
    Ends (fun level => level.closing v (part level)) m (Returns Q) := by
  simp only [closing]
  split
  next hv =>
    have hfinish : Ends (fun level => part level >>= level.finishCall) m (Returns (Closes v Q)) := by
      refine .bind h ?_
      rintro _ m' ⟨vs, rfl, hclose⟩
      exact .pure ⟨vs, rfl, hclose⟩
    refine .bind hfinish.catching ?_
    rintro _ m' ⟨_, rfl, vs, rfl, hclose⟩
    rw [Closes, if_pos hv] at hclose
    exact .bind hclose fun _ _ hQ => .pure ⟨vs, rfl, hQ⟩
  next hv =>
    refine h.mono ?_
    rintro _ m' ⟨vs, rfl, hclose⟩
    rw [Closes, if_neg hv] at hclose
    exact ⟨vs, rfl, hclose⟩

/-! ### First turns -/

/-- What an iterator with a state gives for a turn of a loop: the variables of the loop and the value that
the iterator is given next, or nothing if there is no such turn. -/
def nextValues (level : Evaluator) (names : List Bytes) (line : Nat) (f state control : Value) :
    Run (Option (Variables × Value)) := do
  Run.atLine line
  let results ←
    Run.nested (level.runCall f [state, control] (some ⟨"for iterator", bytesOf "for iterator"⟩))
  match results.headD .nil with
  | .nil => return none
  | next => return some (← Run.newCells names results, next)

/-- A loop has a first turn, and something is known of the value that is closed after the loop, of what
surrounds the body then, and of the machine. -/
def Header.Enters (env : Env) (line : Nat) (m : Machine) (P : Value → Env → Machine → Prop) :
    Header → Prop
  | .numeric x start stop step =>
    Ends (fun level => numericRange level env start stop step line) m fun range m' =>
      ∃ n, range.first? = some n ∧ P .nil (env.declare [(x, m'.cells.size)]) (m'.push (.number n))
  | .generic names values valuesLine =>
    Ends (fun level => level.exprs env values) m fun vs m₁ =>
      Ends (fun _ => checkClosable (bytesOf "(for state)") (vs.getD 3 .nil) line) m₁ fun _ m₂ =>
        Ends (fun level =>
            nextValues level names valuesLine (vs.getD 0 .nil) (vs.getD 1 .nil) (vs.getD 2 .nil)) m₂
          fun found m' => ∃ vars next, found = some (vars, next) ∧ P (vs.getD 3 .nil) (env.declare vars) m'

theorem Header.Enters.mono {P P' : Value → Env → Machine → Prop} {header : Header} {line : Nat}
    (h : header.Enters env line m P) (hP : ∀ v env' m', P v env' m' → P' v env' m') :
    header.Enters env line m P' := by
  cases header with
  | numeric x start stop step =>
    rw [Enters] at h ⊢
    exact h.mono fun range m' ⟨n, hfirst, hn⟩ => ⟨n, hfirst, hP _ _ _ hn⟩
  | generic names values line' =>
    rw [Enters] at h ⊢
    refine h.mono fun vs m₁ hclosable => hclosable.mono fun _ m₂ hnext => hnext.mono ?_
    exact fun found m' ⟨vars, next, hfound, hm'⟩ => ⟨vars, next, hfound, hP _ _ _ hm'⟩

/-- One turn of a loop over the values of an iterator. -/
def iteratorTurn (env : Env) (names : List Bytes) (body : Block) (line : Nat) (f state : Value)
    (level : Evaluator) (control : Value) : Run (Run.Turn Value Exit) := do
  match ← nextValues level names line f state control with
  | some (vars, next) => return afterBody env (← level.block (env.declare vars) body) next
  | none => return .done (.next env)

theorem runIterator_eq (level : Evaluator) (env : Env) (names : List Bytes) (f state control : Value)
    (body : Block) (line : Nat) :
    level.runIterator env names f state control body line =
      Run.iterate (iteratorTurn env names body line f state level) level.turns control := by
  refine congrArg (fun turn => Run.iterate turn level.turns control) ?_
  funext control
  rw [iteratorTurn, nextValues]
  simp only [bind_assoc]
  refine bind_congr fun _ => bind_congr fun results => ?_
  cases results.headD .nil with
  | nil => rfl
  | _ => simp only [bind_assoc, pure_bind]

/-- **Loops.**  A loop whose body returns in the first turn. -/
theorem ends_loopReturns {header : Header} {line : Nat}
    (h : header.Enters env line m fun v env' m' => Walks env' b m' (Returns (Closes v Q))) :
    Ends (fun level => level.runStat env (header.loop b line)) m (Returns Q) := by
  cases header with
  | numeric x start stop step =>
    change Ends (fun level => level.numericFor env x start stop step b line) m _
    simp only [numericFor_eq]
    refine .bind h ?_
    rintro range m' ⟨n, hfirst, hwalks⟩
    have hturn : Loops (rangeTurn env x b) range m' (Returns Q) := by
      refine .turn ?_
      simp only [rangeTurn, hfirst]
      refine .step (Run.gives_newCell _) (.bind hwalks.block ?_)
      rintro _ m' ⟨vs, rfl, hQ⟩
      exact .pure ⟨vs, rfl, hQ⟩
    exact hturn.ends
  | generic names values valuesLine =>
    change Ends (fun level => level.genericFor env names values b valuesLine line) m _
    refine .bind h ?_
    rintro vs m₁ hclosable
    refine .bind hclosable fun _ m₂ hnext => ends_closing ?_
    simp only [runIterator_eq]
    have hturn : Loops (iteratorTurn env names b valuesLine (vs.getD 0 .nil) (vs.getD 1 .nil))
        (vs.getD 2 .nil) m₂ (Returns (Closes (vs.getD 3 .nil) Q)) := by
      refine .turn (.bind hnext ?_)
      rintro _ m' ⟨vars, next, rfl, hwalks⟩
      refine .bind hwalks.block ?_
      rintro _ m' ⟨vs, rfl, hQ⟩
      exact .pure ⟨vs, rfl, hQ⟩
    exact hturn.ends

end Stencil.Script
