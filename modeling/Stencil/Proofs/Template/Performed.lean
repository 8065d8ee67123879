import Stencil.Proofs.Script.Started
import Stencil.Proofs.Template.Listed
import Stencil.Proofs.Text.Decoded

/-!
# Running structured programs

The statements of a program do to the block tree what the program does (`walks_program`).  While they
run, the functions that write to the tree stay where they are (`Ready`), and a name has the value that the
program gives it: the one of the innermost loop around it, or the one of the data.
-/

namespace Stencil.Template

-- powers as the core library has them, whatever else is imported
attribute [local instance (high)] instPowNat

open Script
open Stencil.Block (Tree)
open Stencil.Text (Bytes bytesOf)

/-! ### Trees with lines -/

section

variable {b : Script.Block} {s s' : Stat} {ss : List Stat} {x : Bytes}

theorem eq_cons_of_unlined (h : Stat.allUnlined b = s :: ss) :
    ∃ s' b', b = s' :: b' ∧ s'.unlined = s ∧ Stat.allUnlined b' = ss := by
  rw [Stat.allUnlined_eq, List.map_eq_cons_iff] at h
  obtain ⟨s', b', rfl, hs, hb⟩ := h
  exact ⟨s', b', rfl, hs, (Stat.allUnlined_eq b').trans hb⟩

theorem ne_label_of_unlined (h : s.unlined = s') (hs' : ∀ x, s' ≠ .label x) (x : Bytes) : s ≠ .label x := by
  rintro rfl
  exact hs' x h.symm

theorem eq_nil_of_unlined (h : Stat.allUnlined b = []) : b = [] := by
  rwa [Stat.allUnlined_eq, List.map_eq_nil_iff] at h

theorem eq_call_of_unlined {f : String} {args : List Expr} (h : s.unlined = callStat f args) :
    ∃ args' line line', s = .call (.call (.name (bytesOf f) line) args' line') ∧
      Expr.allUnlined args' = args := by
  cases s with
  | call e =>
    rw [Stat.unlined, callStat, Stat.call.injEq] at h
    cases e with
    | call callee args' line' =>
      rw [Expr.unlined, Expr.call.injEq] at h
      obtain ⟨hcallee, hargs, -⟩ := h
      obtain ⟨line, rfl⟩ := Expr.eq_name_of_unlined hcallee
      exact ⟨args', line, line', rfl, hargs⟩
    | _ => cases h
  | _ => cases h

theorem eq_paren_of_unlined {e e₀ : Expr} (h : e.unlined = .paren e₀) :
    ∃ e', e = .paren e' ∧ e'.unlined = e₀ := by
  cases e with
  | paren e => exact ⟨e, rfl, Expr.paren.inj h⟩
  | _ => cases h

theorem eq_if_of_unlined {e₀ : Expr} {body other : Script.Block}
    (h : s.unlined = .if (.paren e₀) body other) :
    ∃ e body' other', s = .if (.paren e) body' other' ∧ e.unlined = e₀ ∧
      Stat.allUnlined body' = body ∧ Stat.allUnlined other' = other := by
  cases s with
  | «if» c body' other' =>
    rw [Stat.unlined, Stat.if.injEq] at h
    obtain ⟨hc, hbody, hother⟩ := h
    obtain ⟨e, rfl, he⟩ := eq_paren_of_unlined hc
    exact ⟨e, body', other', rfl, he, hbody, hother⟩
  | _ => cases h

theorem eq_loop_of_unlined {header : Header} {body : Script.Block}
    (h : s.unlined = header.loop body 0) :
    ∃ (header' : Header) (body' : Script.Block) (line : Nat), s = header'.loop body' line ∧
      header'.unlined = header ∧
      Stat.allUnlined body' = body := by
  cases header with
  | numeric x start stop step =>
    cases s with
    | numericFor y start' stop' step' body' line =>
      rw [Stat.unlined, Header.loop, Stat.numericFor.injEq] at h
      obtain ⟨rfl, rfl, rfl, rfl, hbody, -⟩ := h
      exact ⟨.numeric y start' stop' step', body', line, rfl, rfl, hbody⟩
    | _ => cases h
  | generic names values line =>
    cases s with
    | genericFor names' values' body' valuesLine' line' =>
      rw [Stat.unlined, Header.loop, Stat.genericFor.injEq] at h
      obtain ⟨rfl, rfl, hbody, rfl, -⟩ := h
      exact ⟨.generic names' values' valuesLine', body', line', rfl, rfl, hbody⟩
    | _ => cases h

theorem eq_localFunction_of_unlined {body : Script.Block}
    (h : s.unlined = .localFunction x (.mk [] false body)) :
    ∃ body', s = .localFunction x (.mk [] false body') ∧ Stat.allUnlined body' = body := by
  cases s with
  | localFunction y f =>
    obtain ⟨params, vararg, body'⟩ := f
    rw [Stat.unlined, Stat.localFunction.injEq, Function.unlined, Function.mk.injEq] at h
    obtain ⟨rfl, rfl, rfl, hbody⟩ := h
    exact ⟨body', rfl, hbody⟩
  | _ => cases h

theorem isInteger_of_unlined {e : Expr} {n : Int} (h : e.unlined = integerExpr n) : IsInteger e n := by
  rw [integerExpr] at h
  split at h
  next hneg =>
    cases e with
    | unary op e line =>
      rw [Expr.unlined, Expr.unary.injEq] at h
      obtain ⟨rfl, he, -⟩ := h
      cases e with
      | number k =>
        rw [Expr.unlined] at he
        rw [he, show n = -(n.natAbs : Int) by omega, Int.natAbs_neg, Int.natAbs_natCast]
        exact isInteger_negate _ _
      | _ => cases he
    | _ => cases h
  next hpos =>
    cases e with
    | number k =>
      rw [Expr.unlined] at h
      rw [h, show (n.natAbs : Int) = n by omega]
      exact isInteger_number n
    | _ => cases h

theorem eq_numericFor_of_unlined {first last : Int} {body : Script.Block}
    (h : s.unlined = .numericFor x (integerExpr first) (integerExpr last) none body 0) :
    ∃ start stop body' line, s = .numericFor x start stop none body' line ∧ IsInteger start first ∧
      IsInteger stop last ∧ Stat.allUnlined body' = body := by
  cases s with
  | numericFor y start stop step body' line =>
    rw [Stat.unlined, Stat.numericFor.injEq] at h
    obtain ⟨rfl, hstart, hstop, hstep, hbody, -⟩ := h
    cases step with
    | none =>
      exact ⟨start, stop, body', line, rfl, isInteger_of_unlined hstart, isInteger_of_unlined hstop, hbody⟩
    | some e => cases hstep
  | _ => cases h

end

/-! ### Values -/

theorem signed_eq (n : Int) : String.ofList (Decimal.signed n) = toString n := by
  rw [Decimal.signed]
  split
  next h =>
    rw [toString_neg h, Nat.toString_eq_repr, Decimal.numeral, ← Nat.toList_repr, String.ofList_cons,
      String.ofList_toList]
    rfl
  next h =>
    rw [toString_nonneg (by omega), Nat.toString_eq_repr, Decimal.numeral, ← Nat.toList_repr,
      String.ofList_toList]

namespace Scalar

/-- The value in a script. -/
def value : Scalar → Value
  | .text s => .string (bytesOf s)
  | .int n => .number (.int n)
  | .bool b => .bool b

theorem isTrue_value (v : Scalar) : v.value.isTrue = v.holds := by
  cases v with
  | bool b => cases b <;> rfl
  | _ => rfl

theorem value_ne_nil (v : Scalar) : v.value ≠ .nil := by
  cases v <;> exact Value.noConfusion

theorem plainText_value (v : Scalar) : v.value.plainText = bytesOf v.shown := by
  cases v with
  | text s => rfl
  | int n =>
    rw [value, Value.plainText, shown, Number.text, signed_eq]
  | bool b => cases b <;> rfl

end Scalar

/-! ### Operations on the blocks -/

/-- The function that an operation calls. -/
def Act.function : Act → Native
  | .raw _ => .append
  | .trim => .trim
  | .openBlock _ => .openBlock
  | .closeBlock => .closeBlock

variable {m m' : Machine} {env : Env} {t : Tree}

/-- Writing a value whose text is known. -/
theorem ends_appendText {v : Value} {bytes : Bytes} (hdepth : m.calls.depth < Run.maxDepth)
    (htext : ∀ calls : Calls, Ends (fun level => level.runText v) { m with calls := calls } fun s m' =>
      s = bytes ∧ m' = { m with calls := calls }) :
    Ends (fun level => Native.append.run level.toCallbacks [v]) m fun _ m' =>
      m.Leads (m.tree.append (Text.stringLossy bytes)) m' := by
  have hwritten : Ends (fun level => Run.within (.native .tostring none) (level.text v)) m
      fun s m' => s = bytes ∧ m' = m := by
    refine .within hdepth (.below (p := fun level => level.runText v) ((htext _).mono ?_) fun _ _ => rfl)
    rintro s m' ⟨hs, rfl⟩
    exact ⟨hs, rfl⟩
  refine .bind (Ends.catching hwritten) ?_
  rintro _ m' ⟨_, rfl, rfl, rfl⟩
  exact .step (Run.gives_modify _) (.pure (.plant m' _))

/-- Writing a simple value. -/
theorem ends_append (v : Scalar) (hdepth : m.calls.depth < Run.maxDepth) :
    Ends (fun level => Native.append.run level.toCallbacks [v.value]) m fun _ m' =>
      m.Leads (m.tree.append v.shown) m' := by
  have htext (calls : Calls) : Ends (fun level => level.runText v.value) { m with calls := calls }
      fun s m' => s = bytesOf v.shown ∧ m' = { m with calls := calls } := by
    rw [← v.plainText_value]
    cases v <;> exact .pure ⟨rfl, rfl⟩
  have happend := ends_appendText hdepth htext
  rwa [Text.stringLossy_bytesOf] at happend

/-- The host takes a text as it is. -/
theorem hostText_text (s : String) : Native.hostText (.string (bytesOf s)) = .ok s := by
  rw [Native.hostText, Text.firstFault_bytesOf]
  exact congrArg _ (Text.stringLossy_bytesOf s)

/-- Opening a block. -/
theorem ends_openBlock (name : String) :
    Ends (fun level => Native.openBlock.run level.toCallbacks [.string (bytesOf name)]) m fun _ m' =>
      m.Leads (m.tree.openBlock name).2 m' := by
  have hopen (level : Evaluator) : Native.openBlock.run level.toCallbacks [.string (bytesOf name)] = do
      modify fun m => { m with tree := (m.tree.openBlock name).2 }
      return [] := by
    have harg : Native.arg [.string (bytesOf name)] 1 = .string (bytesOf name) := rfl
    change Native.runOpen [.string (bytesOf name)] = _
    simp only [Native.runOpen, harg, hostText_text]
  simp only [hopen]
  exact .step (Run.gives_modify _) (.pure (.plant m _))

/-- Closing the open block. -/
theorem ends_closeBlock :
    Ends (fun level => Native.closeBlock.run level.toCallbacks []) m fun _ m' =>
      m.Leads m.tree.close m' :=
  .step (Run.gives_modify _) (.pure (.plant m _))

/-- Trimming the open block. -/
theorem ends_trim :
    Ends (fun level => Native.trim.run level.toCallbacks []) m fun _ m' => m.Leads m.tree.trim m' :=
  .step (Run.gives_modify _) (.pure (.plant m _))

/-! ### The functions of a chunk -/

/-- The functions that write to the blocks, by the names that a chunk gives them. -/
def tools : List (String × Native) :=
  [("__append", .append), ("__open", .openBlock), ("__close", .closeBlock), ("__trim", .trim)]

/-- The functions that write to the blocks are found under their names, and there is room for calls. -/
structure Ready (m : Machine) (env : Env) : Prop where
  /-- The functions are there. -/
  tools : ∀ f ∈ tools, m.Holds env (bytesOf f.1) (.native f.2)
  /-- A function can be called that calls another one. -/
  depth : m.calls.depth + 1 < Run.maxDepth
  /-- A function can be called for a field. -/
  nested : m.calls.nested < Run.maxNested

theorem Ready.keeps (h : Ready m env) (hm : m.Keeps t m') : Ready m' env where
  tools f hf := (h.tools f hf).keeps hm
  depth := hm.depth ▸ h.depth
  nested := hm.nested ▸ h.nested

theorem Ready.leads (h : Ready m env) (hm : m.Leads t m') : Ready m' env := h.keeps hm.keeps

/-- The functions keep their names from templates. -/
theorem tools_reserved : ∀ f ∈ tools, f.1 ∈ reserved := by decide

theorem bytesOf_ne {x y : String} (hx : x ∉ reserved) (hy : y ∈ reserved) : bytesOf y ≠ bytesOf x :=
  fun h => hx (Text.bytesOf_injective h ▸ hy)

theorem Ready.declare {x : Bytes} {id : Nat} (h : Ready m env) (hx : ∀ f ∈ Template.tools, bytesOf f.1 ≠ x) :
    Ready m (env.declare [(x, id)]) where
  tools f hf := (h.tools f hf).declare (hx f hf)
  depth := h.depth
  nested := h.nested

/-- A call of one of the functions as a statement. -/
theorem ends_tool {f : String × Native} (hf : f ∈ tools) (h : Ready m env) {s : Stat}
    {args : List Expr} (hs : s.unlined = callStat f.1 args) {ws : List Value}
    (hargs : ∀ args', Expr.allUnlined args' = args → ∀ m', m.Leads m.tree m' →
      Ends (fun level => level.exprs env args') m' fun vs m'' => vs = ws ∧ m'.Leads m'.tree m'')
    (hrun : ∀ (m' : Machine) (calls : Calls), m.Leads m.tree m' → calls.depth < Run.maxDepth →
      Ends (fun level => f.2.run level.toCallbacks ws) { m' with calls := calls } fun _ m'' =>
        { m' with calls := calls }.Leads t m'') :
    Ends (fun level => level.runStat env s) m fun exit m' => exit = .next env ∧ m.Leads t m' := by
  obtain ⟨args', line, line', rfl, hargs'⟩ := eq_call_of_unlined hs
  have hdepth := h.depth
  refine ends_callStat (ends_call (h.tools f hf).finds (by omega) h.nested (hargs args' hargs')
    (fun m' site hm => ends_callNative (by rw [hm.depth]; omega) fun calls hcalls _ => ?_) line line')
  refine (hrun m' calls hm (by rw [hcalls, hm.depth]; exact hdepth)).mono ?_
  exact fun _ m'' hm' => hm.trans hm'.restore

theorem ends_noExprs {args : List Expr} (h : Expr.allUnlined args = []) (m : Machine) :
    Ends (fun level => level.exprs env args) m fun vs m' => vs = [] ∧ m.Leads m.tree m' := by
  rw [Expr.allUnlined_eq, List.map_eq_nil_iff] at h
  subst h
  exact .pure ⟨rfl, .refl m⟩

theorem ends_stringExpr {args : List Expr} {bytes : Bytes}
    (h : Expr.allUnlined args = [.string bytes]) (m : Machine) :
    Ends (fun level => level.exprs env args) m fun vs m' => vs = [.string bytes] ∧ m.Leads m.tree m' := by
  rw [Expr.allUnlined_eq, List.map_eq_singleton_iff] at h
  obtain ⟨e, rfl, he⟩ := h
  cases e with
  | string s =>
    rw [Expr.unlined, Expr.string.injEq] at he
    subst he
    have hexpr : Ends (fun level => level.expr env (.string s)) m fun v m' =>
        v = .string s ∧ m.Leads m.tree m' :=
      .below (p := fun _ => pure (.string s)) (.pure ⟨rfl, .refl m⟩) fun _ _ => rfl
    refine .below (p := fun level => level.runResults env (.string s)) (.bind hexpr ?_) fun _ _ => rfl
    rintro _ m' ⟨rfl, hm⟩
    exact .pure ⟨rfl, hm⟩
  | _ => cases he

theorem ends_nameExpr {args : List Expr} {x : Bytes} {v : Value}
    (h : Expr.allUnlined args = [.name x 0])
    (hx : ∀ line, Ends (fun level => level.expr env (.name x line)) m fun w m' =>
      w = v ∧ m.Leads m.tree m') :
    Ends (fun level => level.exprs env args) m fun vs m' => vs = [v] ∧ m.Leads m.tree m' := by
  rw [Expr.allUnlined_eq, List.map_eq_singleton_iff] at h
  obtain ⟨e, rfl, he⟩ := h
  obtain ⟨line, rfl⟩ := Expr.eq_name_of_unlined he
  refine .below (p := fun level => level.runResults env (.name x line)) (.bind (hx line) ?_)
    fun _ _ => rfl
  rintro _ m' ⟨rfl, hm⟩
  exact .pure ⟨rfl, hm⟩

variable {s : Stat} {b : Script.Block}

/-- The statement of an operation. -/
theorem ends_act (a : Act) (h : Ready m env) (hs : s.unlined = a.stat) :
    Ends (fun level => level.runStat env s) m fun exit m' =>
      exit = .next env ∧ m.Leads (a.run m.tree) m' := by
  cases a with
  | raw text =>
    refine ends_tool (f := ("__append", .append)) (by decide) h hs
      (fun args hargs m' _ => ends_stringExpr hargs m') fun m' calls hm hdepth => ?_
    exact hm.tree ▸ ends_append (.text text) hdepth
  | trim =>
    refine ends_tool (f := ("__trim", .trim)) (by decide) h hs
      (fun args hargs m' _ => ends_noExprs hargs m') fun m' calls hm _ => ?_
    exact hm.tree ▸ ends_trim
  | openBlock name =>
    refine ends_tool (f := ("__open", .openBlock)) (by decide) h hs
      (fun args hargs m' _ => ends_stringExpr hargs m') fun m' calls hm _ => ?_
    exact hm.tree ▸ ends_openBlock name
  | closeBlock =>
    refine ends_tool (f := ("__close", .closeBlock)) (by decide) h hs
      (fun args hargs m' _ => ends_noExprs hargs m') fun m' calls hm _ => ?_
    exact hm.tree ▸ ends_closeBlock

/-- The statement that writes the value of a name. -/
theorem ends_emit {x : Bytes} {v : Scalar} (h : Ready m env) (hx : m.Finds env x v.value)
    (hs : s.unlined = callStat "__append" [.name x 0]) :
    Ends (fun level => level.runStat env s) m fun exit m' =>
      exit = .next env ∧ m.Leads (m.tree.append v.shown) m' := by
  have hdepth := h.depth
  have hargs {args : List Expr} (hargs : Expr.allUnlined args = [.name x 0]) {m' : Machine}
      (hm : m.Leads m.tree m') : Ends (fun level => level.exprs env args) m' fun vs m'' =>
        vs = [v.value] ∧ m'.Leads m'.tree m'' :=
    ends_nameExpr hargs fun line =>
      ends_name (hx.leads hm) (by rw [hm.depth]; omega) (hm.nested ▸ h.nested) line
  refine ends_tool (f := ("__append", .append)) (by decide) h hs (fun args h m' hm => hargs h hm)
    fun m' calls hm hdepth => ?_
  rw [← hm.tree]
  exact ends_append (m := { m' with calls := calls }) v hdepth

/-! ### Programs -/

/-- What the statements of a program come to. -/
def Performs (p : Program) (env : Env) (names : String → Scalar) (b : Script.Block) (m : Machine) :
    Prop :=
  Walks env b m fun exit m' => exit = .next env ∧ m.Leads (p.run names m.tree) m'

/-- The names that a program needs are found. -/
def Named (p : Program) (env : Env) (names : String → Scalar) (m : Machine) : Prop :=
  ∀ x ∈ p.free, m.Finds env (bytesOf x) (names x).value

theorem Named.leads {p : Program} {names : String → Scalar} (h : Named p env names m)
    (hm : m.Leads t m') : Named p env names m' := fun x hx => (h x hx).leads hm

/-- What comes after the statements of a program is run where the program leaves the blocks. -/
def GoesOn (p : Program) (env : Env) (names : String → Scalar) (after : Script.Block) (m : Machine)
    (Q : Exit → Machine → Prop) : Prop :=
  ∀ b m', Stat.allUnlined b = after → m.Leads (p.run names m.tree) m' → Walks env b m' Q

section

variable {p rest : Program} {names : String → Scalar} {after : Script.Block} {Q : Exit → Machine → Prop}

/-- The rest of a program goes on where its first statement leaves the blocks. -/
theorem GoesOn.step (h : GoesOn p env names after m Q) (hrun : p.run names m.tree = rest.run names t)
    (hm : m.Leads t m') : GoesOn rest env names after m' Q := by
  intro b m'' hb hm'
  refine h b m'' hb ?_
  rw [hm.tree] at hm'
  rw [hrun]
  exact hm.trans hm'

/-- Nothing comes after the statements of a program by themselves. -/
theorem Performs.of_before (h : ∀ {Q : Exit → Machine → Prop}, GoesOn p env names [] m Q → Walks env b m Q) :
    Performs p env names b m := by
  refine h fun b m' hb hm => ?_
  rw [eq_nil_of_unlined hb]
  exact .nil ⟨rfl, hm⟩

/-- A statement and what comes after it. -/
theorem walks_cons {s' : Stat} (hunlined : s.unlined = s') (hlabel : ∀ x, s' ≠ .label x)
    (hs : Ends (fun level => level.runStat env s) m fun exit m' => exit = .next env ∧ m.Leads t m')
    (hrest : ∀ m', m.Leads t m' → Walks env b m' Q) : Walks env (s :: b) m Q :=
  .next (ne_label_of_unlined hunlined hlabel) (hs.mono fun _ m' ⟨hexit, hm⟩ => ⟨hexit, hrest m' hm⟩)

end

/-- The statement of a choice. -/
theorem ends_branch {x : String} {names : String → Scalar} (body other : Program) (h : Ready m env)
    (hx : m.Finds env (bytesOf x) (names x).value)
    (hs : s.unlined = .if (.paren (.name (bytesOf x) 0)) body.tree other.tree)
    (hbody : ∀ b m', m.Leads m.tree m' → Stat.allUnlined b = body.tree → Performs body env names b m')
    (hother : ∀ b m', m.Leads m.tree m' → Stat.allUnlined b = other.tree → Performs other env names b m') :
    Ends (fun level => level.runStat env s) m fun exit m' => exit = .next env ∧
      m.Leads (if (names x).holds then body.run names m.tree else other.run names m.tree) m' := by
  obtain ⟨e, b, c, rfl, he, hb, hc⟩ := eq_if_of_unlined hs
  obtain ⟨line, rfl⟩ := Expr.eq_name_of_unlined he
  have hdepth := h.depth
  refine ends_choice hx (by omega) h.nested fun m' hm => ?_
  rw [Scalar.isTrue_value]
  have hinner {p : Program} {b : Script.Block} (hp : Performs p env names b m') :
      Walks env b m' fun exit m'' => (∃ env', exit = .next env') ∧
        Exit.next env = .next env ∧ m.Leads (p.run names m.tree) m'' :=
    hp.mono fun exit m'' ⟨hexit, hm'⟩ => ⟨⟨env, hexit⟩, rfl, hm.trans (hm.tree ▸ hm')⟩
  cases (names x).holds with
  | true => exact hinner (hbody b m' hm hb)
  | false => exact hinner (hother c m' hm hc)

/-- The statement of a loop. -/
theorem ends_loop {x : String} {first last : Int} {names : String → Scalar} {body : Program}
    (hs : s.unlined =
      .numericFor (bytesOf x) (integerExpr first) (integerExpr last) none body.tree 0)
    (hfirst : first.natAbs < 2 ^ (63 : Nat)) (hlast : last.natAbs < 2 ^ (63 : Nat))
    (hbody : ∀ k b m', m.Leads m'.tree m' → Stat.allUnlined b = body.tree →
      Performs body (env.declare [(bytesOf x, m'.cells.size)])
        (Function.update names x (.int (Int64.ofInt k))) b (m'.push (.number (.int (Int64.ofInt k))))) :
    Ends (fun level => level.runStat env s) m fun exit m' => exit = .next env ∧
      m.Leads ((Program.loop x first last body .done).run names m.tree) m' := by
  obtain ⟨start, stop, b, line, rfl, hstart, hstop, hb⟩ := eq_numericFor_of_unlined hs
  refine ends_numericFor hstart hstop hfirst hlast fun m₁ h₁ => ?_
  let turn (t : Tree) (k : Int) : Tree :=
    body.run (Function.update names x (.int (Int64.ofInt k))) t
  -- before the turn for `k` the blocks are those after the turns for the integers below `k`
  refine (ends_range (P := fun k m' => m.Leads ((integers first (k - 1)).foldl turn m.tree) m')
    (fun k m' hk _ hm => ?_) ?_).mono ?_
  · refine (hbody k b m' (hm.tree ▸ hm) hb).mono fun exit m'' ⟨hexit, hm'⟩ => ⟨⟨_, hexit⟩, ?_⟩
    have hpush := m'.leads_push (.number (.int (Int64.ofInt k)))
    rw [hpush.tree, hm.tree] at hm'
    rw [Int.add_sub_cancel, integers_append hk, List.foldl_append]
    exact (hm.trans (hm.tree ▸ hpush)).trans hm'
  · rw [integers_of_lt (by omega)]
    exact h₁
  · rintro _ m' ⟨rfl, hm⟩
    have hall : integers first (max first (last + 1) - 1) = integers first last := by
      by_cases hle : first ≤ last
      · rw [show max first (last + 1) - 1 = last by omega]
      · rw [integers_of_lt (by omega), integers_of_lt (by omega)]
    rw [hall] at hm
    exact ⟨rfl, hm⟩

/-- **Programs.**  The statements of a program do to the blocks what the program does, whatever comes after
them. -/
theorem walks_before {p : Program} (hp : p.IsProper) {names : String → Scalar} (h : Ready m env)
    (hnames : Named p env names m) {after : Script.Block} (hb : Stat.allUnlined b = p.tree ++ after)
    {Q : Exit → Machine → Prop} (hafter : GoesOn p env names after m Q) : Walks env b m Q := by
  induction p generalizing m env names b after Q with
  | done => exact hafter b m hb (.refl m)
  | act a rest ih =>
    obtain ⟨s, b, rfl, hs, hrest⟩ := eq_cons_of_unlined hb
    have hlabel (x : Bytes) : a.stat ≠ .label x := by
      cases a <;> exact Stat.noConfusion
    exact walks_cons hs hlabel (ends_act a h hs) fun m' hm =>
      ih hp (h.leads hm) (Named.leads (p := rest) hnames hm) hrest (hafter.step rfl hm)
  | emit x rest ih =>
    obtain ⟨s, b, rfl, hs, hrest⟩ := eq_cons_of_unlined hb
    rw [Named, Program.free, List.forall_mem_cons] at hnames
    obtain ⟨hx, hnames⟩ := hnames
    exact walks_cons hs (fun _ => Stat.noConfusion) (ends_emit h hx hs) fun m' hm =>
      ih hp.2 (h.leads hm) (Named.leads (p := rest) hnames hm) hrest (hafter.step rfl hm)
  | choice x body rest ihbody ihrest =>
    obtain ⟨s, b, rfl, hs, hrest⟩ := eq_cons_of_unlined hb
    rw [Named, Program.free, List.forall_mem_cons, List.forall_mem_append] at hnames
    obtain ⟨hx, hnamesBody, hnames⟩ := hnames
    refine walks_cons hs (fun _ => Stat.noConfusion) (ends_branch body .done h hx hs
      (fun b m' hm hb => .of_before (ihbody hp.2.1 (h.leads hm) (Named.leads (p := body) hnamesBody hm)
        (hb.trans (List.append_nil _).symm)))
      (fun b m' hm hb => ?_)) fun m' hm =>
      ihrest hp.2.2 (h.leads hm) (Named.leads (p := rest) hnames hm) hrest (hafter.step rfl hm)
    rw [eq_nil_of_unlined hb]
    exact .nil ⟨rfl, .refl m'⟩
  | branch x body other rest ihbody ihother ihrest =>
    obtain ⟨s, b, rfl, hs, hrest⟩ := eq_cons_of_unlined hb
    rw [Named, Program.free, List.forall_mem_cons, List.forall_mem_append, List.forall_mem_append] at hnames
    obtain ⟨hx, hnamesBody, hnamesOther, hnames⟩ := hnames
    exact walks_cons hs (fun _ => Stat.noConfusion) (ends_branch body other h hx hs
      (fun b m' hm hb => .of_before (ihbody hp.2.1 (h.leads hm) (Named.leads (p := body) hnamesBody hm)
        (hb.trans (List.append_nil _).symm)))
      (fun b m' hm hb => .of_before (ihother hp.2.2.1 (h.leads hm)
        (Named.leads (p := other) hnamesOther hm) (hb.trans (List.append_nil _).symm)))) fun m' hm =>
      ihrest hp.2.2.2 (h.leads hm) (Named.leads (p := rest) hnames hm) hrest (hafter.step rfl hm)
  | loop x first last body rest ihbody ihrest =>
    obtain ⟨s, b, rfl, hs, hrest⟩ := eq_cons_of_unlined hb
    rw [Named, Program.free, List.forall_mem_append] at hnames
    obtain ⟨hnamesBody, hnames⟩ := hnames
    obtain ⟨hx, hfirst, hlast, hpbody, hprest⟩ := hp
    refine walks_cons hs (fun _ => Stat.noConfusion) (ends_loop hs hfirst hlast fun k b m' hm hb => ?_)
      fun m' hm =>
        ihrest hprest (h.leads hm) (Named.leads (p := rest) hnames hm) hrest (hafter.step rfl hm)
    have hpush := (hm.tree ▸ hm).trans (m'.leads_push (.number (.int (Int64.ofInt k))))
    have hglobals := (bytesOf_ne hx.2.2 (by decide : "_ENV" ∈ reserved)).symm
    refine .of_before (ihbody hpbody ((h.leads hpush).declare
      (fun f hf => bytesOf_ne hx.2.2 (tools_reserved f hf))) (fun y hy => ?_)
      (hb.trans (List.append_nil _).symm))
    by_cases hxy : y = x
    · subst hxy
      rw [Function.update_self]
      exact .inl ⟨_, Env.find?_declare, Array.getElem?_push_size⟩
    · rw [Function.update_of_ne hxy]
      have hfree : y ∈ body.free.filter (· ≠ x) := List.mem_filter.2 ⟨hy, by simpa using hxy⟩
      exact ((hnamesBody y hfree).leads hpush).declare (fun heq => hxy (Text.bytesOf_injective heq))
        hglobals

/-- The statements of a program by themselves. -/
theorem walks_program {p : Program} (hp : p.IsProper) {names : String → Scalar} (h : Ready m env)
    (hnames : Named p env names m) (hb : Stat.allUnlined b = p.tree) : Performs p env names b m :=
  .of_before (walks_before hp h hnames (hb.trans (List.append_nil _).symm))

end Stencil.Template
