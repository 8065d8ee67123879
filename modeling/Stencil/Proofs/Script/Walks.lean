import Stencil.Proofs.Script.Names

/-!
# Running statements

What a block comes to is put together from its statements (`Walks`).  There is one lemma for each
statement that a structured template needs: a call of a function with a name, a choice, and a loop over
integers, which is followed by induction on how many of them are left (`ends_range`).
-/

namespace Stencil.Script

-- powers as the core library has them, whatever else is imported
attribute [local instance (high)] instPowNat

open Evaluator
open Stencil.Text (Bytes bytesOf)
open Stencil.Block (Tree)

variable {m m' : Machine} {env : Env} {Q : Exit → Machine → Prop} {s : Stat} {b : Block}

/-! ### Blocks -/

/-- With enough budget the statements of a block are run, whatever labels have been passed. -/
def Walks (env : Env) (b : Block) (m : Machine) (Q : Exit → Machine → Prop) : Prop :=
  ∀ passed, Loops (fun level => level.blockTurn level.runStat) ⟨env, b, passed⟩ m Q

namespace Walks

theorem mono {Q' : Exit → Machine → Prop} (h : Walks env b m Q) (hQ : ∀ exit m', Q exit m' → Q' exit m') :
    Walks env b m Q' := fun passed => (h passed).mono hQ

theorem nil (h : Q (.next env) m) : Walks env [] m Q := fun _ => .turn (.pure h)

theorem blockTurn_cons (hs : ∀ x, s ≠ .label x) (level : Evaluator) (stat : Env → Stat → Run Exit)
    (passed : List Passed) :
    level.blockTurn stat ⟨env, s :: b, passed⟩ = (do
      match ← stat env s with
      | .next env => return .again ⟨env, b, passed⟩
      | .closing env' v =>
        return Progress.leave ⟨env, b, passed⟩ (← level.closing v (level.block env' b))
      | exit => return Progress.leave ⟨env, b, passed⟩ exit) := by
  cases s with
  | label x => exact absurd rfl (hs x)
  | _ => rfl

/-- A statement that is no label is run, and then those after it. -/
theorem cons (hs : ∀ x, s ≠ .label x)
    (h : Ends (fun level => level.runStat env s) m fun exit m' =>
      (∃ env', exit = .next env' ∧ Walks env' b m' Q) ∨ ∃ vs, exit = .return vs ∧ Q exit m') :
    Walks env (s :: b) m Q := by
  intro passed
  refine .turn ?_
  simp only [blockTurn_cons hs]
  refine .bind h ?_
  rintro _ m' (⟨env', rfl, hrest⟩ | ⟨vs, rfl, hQ⟩)
  · exact .pure (hrest passed)
  · exact .pure hQ

/-- A statement after which the next one runs in the same surroundings. -/
theorem next (hs : ∀ x, s ≠ .label x)
    (h : Ends (fun level => level.runStat env s) m fun exit m' => exit = .next env ∧ Walks env b m' Q) :
    Walks env (s :: b) m Q :=
  cons hs (h.mono fun _ _ ⟨hexit, hrest⟩ => .inl ⟨env, hexit, hrest⟩)

theorem block (h : Walks env b m Q) : Ends (fun level => level.block env b) m Q :=
  .below (p := fun level => level.runBlock level.runStat env b) (h []).ends fun _ _ => rfl

/-- A block whose variables end with it. -/
theorem inner (h : Walks env b m fun exit m' => (∃ env', exit = .next env') ∧ Q (.next env) m') :
    Ends (fun level => level.inner env b) m Q := by
  refine .bind h.block ?_
  rintro _ m' ⟨⟨env', rfl⟩, hQ⟩
  exact .pure hQ

end Walks

/-! ### Calls -/

/-- A call of a function with a name. -/
theorem ends_call {f : Bytes} {v : Value} {args : List Expr} {ws : List Value}
    {Q : List Value → Machine → Prop} (hf : m.Finds env f v) (hdepth : m.calls.depth < Run.maxDepth)
    (hnested : m.calls.nested < Run.maxNested)
    (hargs : ∀ m', m.Leads m.tree m' → Ends (fun level => level.exprs env args) m' fun vs m'' =>
      vs = ws ∧ m'.Leads m'.tree m'')
    (hcall : ∀ m' site, m.Leads m.tree m' → Ends (fun level => level.runCall v ws site) m' Q)
    (line line' : Nat) :
    Ends (fun level => level.runResults env (.call (.name f line) args line')) m Q := by
  refine .bind (ends_name hf hdepth hnested line) ?_
  rintro _ m₁ ⟨rfl, h₁⟩
  refine .bind (hargs m₁ h₁) ?_
  rintro _ m₂ ⟨rfl, h₂⟩
  obtain ⟨m₃, hline, h₃⟩ := Run.gives_atLine (m := m₂) line'
  rw [h₂.tree] at h₃
  rw [h₁.tree] at h₂ h₃
  exact .step hline (hcall m₃ _ ((h₁.trans h₂).trans h₃))

theorem ends_callStat {e : Expr} {Q : Machine → Prop}
    (h : Ends (fun level => level.runResults env e) m fun _ m' => Q m') :
    Ends (fun level => level.runStat env (.call e)) m fun exit m' => exit = .next env ∧ Q m' :=
  .bind h fun _ _ hQ => .pure ⟨rfl, hQ⟩

/-- A call of a function of the script without parameters. -/
theorem ends_callFunction {id : Nat} {vararg : Bool} {outer : Variables} {args : List Value}
    {site : Option Site} {Q : List Value → Machine → Prop}
    (hid : m.functions[id]? = some ⟨.mk [] vararg b, outer⟩) (hdepth : m.calls.depth < Run.maxDepth)
    (h : ∀ calls : Calls, calls.depth = m.calls.depth + 1 → calls.nested = m.calls.nested →
      Walks ⟨[], outer, if vararg then args else []⟩ b { m with calls := calls } fun exit m' =>
        (∃ env', exit = .next env' ∧ Q [] { m' with calls := m.calls }) ∨
          ∃ vs, exit = .return vs ∧ Q vs { m' with calls := m.calls }) :
    Ends (fun level => level.runCall (.function id) args site) m Q := by
  have henter : Ends (fun level => level.enter id args) m fun exit m' =>
      (∃ env', exit = .next env' ∧ Q [] m') ∨ ∃ vs, exit = .return vs ∧ Q vs m' :=
    .step (Run.gives_closure hid) (.step (Run.gives_pure [])
      (.within hdepth (h { m.calls with
        frames := .script 0 :: m.calls.frames, depth := m.calls.depth + 1 } rfl rfl).block))
  refine Loops.ends (.turn (.bind henter ?_))
  rintro _ m' (⟨env', rfl, hQ⟩ | ⟨vs, rfl, hQ⟩)
  · exact .pure hQ
  · exact .pure hQ

/-! ### Choices -/

/-- A choice on a name in parentheses. -/
theorem ends_choice {x : Bytes} {v : Value} {line : Nat} {other : Block} (hx : m.Finds env x v)
    (hdepth : m.calls.depth < Run.maxDepth) (hnested : m.calls.nested < Run.maxNested)
    (h : ∀ m', m.Leads m.tree m' → Walks env (if v.isTrue then b else other) m' fun exit m'' =>
      (∃ env', exit = .next env') ∧ Q (.next env) m'') :
    Ends (fun level => level.runStat env (.if (.paren (.name x line)) b other)) m Q := by
  refine .bind (.below (ends_name hx hdepth hnested line) fun _ _ => rfl) ?_
  rintro _ m' ⟨rfl, hm⟩
  have hinner := (h m' hm).inner
  split
  · rwa [if_pos ‹_›] at hinner
  · rwa [if_neg ‹_›] at hinner

/-! ### Loops over integers -/

theorem Range.ofInts_of_lt {first last : Int} (h : last < first) : Range.ofInts first last 1 = .empty := by
  rw [Range.ofInts, if_pos (by decide), if_pos h]

theorem Range.ofInts_of_le {first last : Int} (h : first ≤ last) :
    (Range.ofInts first last 1).first? = some (.int (Int64.ofInt first)) ∧
      (Range.ofInts first last 1).rest = Range.ofInts (first + 1) last 1 := by
  have hfirst : Range.ofInts first last 1 = .ints first 1 (last - first).toNat := by
    rw [Range.ofInts, if_pos (by decide), if_neg (by omega), Int.ediv_one]
  rw [hfirst]
  refine ⟨rfl, ?_⟩
  by_cases hlast : last = first
  · rw [Range.ofInts_of_lt (by omega), hlast, Int.sub_self]
    rfl
  · obtain ⟨n, hn⟩ : ∃ n : Nat, last - first = n + 1 := ⟨(last - first - 1).toNat, by omega⟩
    have hnext : last - (first + 1) = n := by omega
    rw [Range.ofInts, if_pos (by decide), if_neg (by omega), Int.ediv_one, hn, hnext]
    rfl

/-- The machine with a new variable. -/
def Machine.push (m : Machine) (v : Value) : Machine := { m with cells := m.cells.push v }

theorem Machine.leads_push (m : Machine) (v : Value) : m.Leads m.tree (m.push v) := by
  have h := Machine.Leads.push m #[v] #[] #[]
  rwa [Array.append_empty, Array.append_empty, Array.append_singleton] at h

/-- One turn of a loop over a range of numbers. -/
def rangeTurn (env : Env) (x : Bytes) (b : Block) (level : Evaluator) (range : Range) :
    Run (Run.Turn Range Exit) := do
  match Range.first? range with
  | some n =>
    let id ← Run.newCell (.number n)
    return afterBody env (← level.block (env.declare [(x, id)]) b) range.rest
  | none => return .done (.next env)

section

variable {x : Bytes} {first last : Int} {P : Int → Machine → Prop}
  (hbody : ∀ k m', first ≤ k → k ≤ last → P k m' →
    Walks (env.declare [(x, m'.cells.size)]) b (m'.push (.number (.int (Int64.ofInt k))))
      fun exit m'' => (∃ env', exit = .next env') ∧ P (k + 1) m'')
include hbody

/-- The turns of a loop over integers that are left. -/
theorem loops_range (n : Nat) {k : Int} (hk : first ≤ k) (hn : k + n = max first (last + 1))
    (h : P k m) :
    Loops (rangeTurn env x b) (Range.ofInts k last 1) m fun exit m' =>
      exit = .next env ∧ P (max first (last + 1)) m' := by
  induction n generalizing k m with
  | zero =>
    rw [Range.ofInts_of_lt (by omega)]
    have hk : k = max first (last + 1) := by omega
    exact .turn (.pure ⟨rfl, hk ▸ h⟩)
  | succ n ih =>
    obtain ⟨hfirst, hrest⟩ := Range.ofInts_of_le (show k ≤ last by omega)
    refine .turn ?_
    simp only [rangeTurn, hfirst, hrest]
    refine .step (Run.gives_newCell _) (.bind (hbody k m hk (by omega) h).block ?_)
    rintro _ m' ⟨⟨env', rfl⟩, hP⟩
    exact .pure (ih (by omega) (by omega) hP)

/-- **Loops.**  What every turn of a loop over integers keeps holds after the loop. -/
theorem ends_range (h : P first m) :
    Ends (fun level => level.runRange env x (Range.ofInts first last 1) b) m fun exit m' =>
      exit = .next env ∧ P (max first (last + 1)) m' :=
  (loops_range hbody (max first (last + 1) - first).toNat (Int.le_refl first) (by omega) h).ends

end

/-- An expression whose value is always the same integer. -/
def IsInteger (e : Expr) (n : Int) : Prop :=
  ∀ env m, Ends (fun level => level.expr env e) m fun v m' =>
    v = .number (.int (Int64.ofInt n)) ∧ m.Leads m.tree m'

theorem isInteger_number (n : Int) : IsInteger (.number (.int (Int64.ofInt n))) n := fun _ m =>
  .below (p := fun _ => pure (.number (.int (Int64.ofInt n)))) (.pure ⟨rfl, .refl m⟩) fun _ _ => rfl

theorem isInteger_negate (n : Int) (line : Nat) :
    IsInteger (.unary .negate (.number (.int (Int64.ofInt n))) line) (-n) := by
  intro env m
  have hunary : Ends (fun level =>
      level.runExpr env (.unary .negate (.number (.int (Int64.ofInt n))) line)) m fun v m' =>
        v = .number (.int (Int64.ofInt (-n))) ∧ m.Leads m.tree m' := by
    refine .bind (isInteger_number n env m) ?_
    rintro _ m' ⟨rfl, hm⟩
    obtain ⟨m'', hline, hm'⟩ := Run.gives_atLine (m := m') line
    rw [hm.tree] at hm'
    exact .step hline (.pure ⟨by rw [Number.negate, Int64.ofInt_neg], hm.trans hm'⟩)
  exact .below hunary fun _ _ => rfl

theorem toInt_ofInt {n : Int} (h : n.natAbs < 2 ^ (63 : Nat)) : (Int64.ofInt n).toInt = n :=
  Int64.toInt_ofInt_of_le (by omega) (by omega)

/-- The range of a loop over numbers. -/
def numericRange (level : Evaluator) (env : Env) (start stop : Expr) (step : Option Expr) (line : Nat) :
    Run Range := do
  let a ← level.expr env start
  let b ← level.expr env stop
  let c ←
    match step with
    | some e => level.expr env e
    | none => pure (Value.int 1)
  Run.atLine line
  match Range.ofValues a b c with
  | .ok range => return range
  | .error fault => Run.failHere (bytesOf fault.message)

theorem numericFor_eq (level : Evaluator) (env : Env) (x : Bytes) (start stop : Expr)
    (step : Option Expr) (body : Block) (line : Nat) :
    level.numericFor env x start stop step body line =
      numericRange level env start stop step line >>= fun range => level.runRange env x range body := by
  rw [numericFor, numericRange]
  have hrange (a b c : Value) :
      (match Range.ofValues a b c with
        | .ok range => level.runRange env x range body
        | .error fault => Run.failHere (bytesOf fault.message)) =
      (match Range.ofValues a b c with
        | .ok range => return range
        | .error fault => Run.failHere (bytesOf fault.message)) >>= fun range =>
          level.runRange env x range body := by
    cases Range.ofValues a b c with
    | ok range => rw [pure_bind]
    | error fault =>
      simp only [Run.failHere, bind_assoc]
      rfl
  cases step with
  | none =>
    simp only [bind_assoc, pure_bind]
    exact bind_congr fun a => bind_congr fun b => bind_congr fun _ => hrange a b _
  | some e =>
    simp only [bind_assoc]
    exact bind_congr fun a => bind_congr fun b => bind_congr fun c => bind_congr fun _ => hrange a b c

/-- The range of a loop over integers. -/
theorem ends_integerRange {first last : Int} {start stop : Expr} (hstart : IsInteger start first)
    (hstop : IsInteger stop last) (hfirst : first.natAbs < 2 ^ (63 : Nat))
    (hlast : last.natAbs < 2 ^ (63 : Nat)) (env : Env) (line : Nat) (m : Machine) :
    Ends (fun level => numericRange level env start stop none line) m fun range m' =>
      range = Range.ofInts first last 1 ∧ m.Leads m.tree m' := by
  have hrange : Range.ofValues (.number (.int (Int64.ofInt first)))
      (.number (.int (Int64.ofInt last))) (Value.int 1) = .ok (Range.ofInts first last 1) := by
    rw [← toInt_ofInt hfirst, ← toInt_ofInt hlast, Int64.ofInt_toInt, Int64.ofInt_toInt]
    rfl
  refine .bind (hstart env m) ?_
  rintro _ m₁ ⟨rfl, h₁⟩
  refine .bind (hstop env m₁) ?_
  rintro _ m₂ ⟨rfl, h₂⟩
  refine .step (Run.gives_pure _) ?_
  obtain ⟨m₃, hline, h₃⟩ := Run.gives_atLine (m := m₂) line
  rw [h₂.tree] at h₃
  rw [h₁.tree] at h₂ h₃
  refine .step hline ?_
  simp only [hrange]
  exact .pure ⟨rfl, (h₁.trans h₂).trans h₃⟩

/-- A loop over integers. -/
theorem ends_numericFor {x : Bytes} {first last : Int} {start stop : Expr} {line : Nat}
    {Q : Exit → Machine → Prop} (hstart : IsInteger start first) (hstop : IsInteger stop last)
    (hfirst : first.natAbs < 2 ^ (63 : Nat)) (hlast : last.natAbs < 2 ^ (63 : Nat))
    (h : ∀ m', m.Leads m.tree m' →
      Ends (fun level => level.runRange env x (Range.ofInts first last 1) b) m' Q) :
    Ends (fun level => level.runStat env (.numericFor x start stop none b line)) m Q := by
  change Ends (fun level => level.numericFor env x start stop none b line) m Q
  simp only [numericFor_eq]
  refine .bind (ends_integerRange hstart hstop hfirst hlast env line m) ?_
  rintro _ m' ⟨rfl, hm⟩
  exact h m' hm

end Stencil.Script
