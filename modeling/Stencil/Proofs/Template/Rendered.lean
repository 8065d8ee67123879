import Stencil.Proofs.Script.Layers
import Stencil.Proofs.Template.Listed
import Stencil.Proofs.Template.Performed
import Stencil.Render

/-!
# Rendering structured programs

A chunk declares the functions that write to the blocks, opens the root block, runs the instructions in a
function of their own and gives the text of the root block.  So it is enough to know what the instructions
leave behind when their function ends, be it at its end or before (`LeavesBody`, `render_leaves`), and in
most cases what they do to the blocks (`RunsBody`, `render_body`).  In particular rendering the chunk of a
program gives the output of the program (`render_chunk`), whatever the options are and whatever else is in
the data.
-/

namespace Stencil.Template

open Script
open Stencil.Block (Tree)
open Stencil.Text (Bytes bytesOf)

variable {m m' : Machine} {env : Env} {t : Tree} {s : Stat} {b : Script.Block}

/-! ### The lines of a chunk -/

/-- The names of the locals for the arguments. -/
def argumentNames : List Bytes := bytesOf "__append" :: otherLocals

/-- The first line declares the arguments. -/
theorem ends_preamble (hs : s.unlined = preambleStat) {options : Value}
    (hextra : env.extra = Procedure.arguments options) (m : Machine) :
    Ends (fun level => level.runStat env s) m fun exit m' => ∃ vars, exit = .next (env.declare vars) ∧
      m.Declares argumentNames vars m' ∧
      ∀ p ∈ argumentNames.zip (Procedure.arguments options), m'.Holds (env.declare vars) p.1 p.2 := by
  cases s with
  | «local» names values line =>
    rw [Stat.unlined, preambleStat, Stat.local.injEq, Expr.allUnlined_eq, List.map_eq_singleton_iff] at hs
    obtain ⟨rfl, ⟨e, rfl, he⟩, -⟩ := hs
    cases e with
    | dots =>
      obtain ⟨vars, m', hcells, hdeclares, hzip⟩ := gives_newCells
        (show argumentNames.Nodup by decide) (Procedure.arguments options) m
      have hdots : Ends (fun level => level.exprs env [.dots]) m fun vs m' =>
          vs = Procedure.arguments options ∧ m' = m :=
        .below (p := fun _ => pure env.extra) (.pure ⟨hextra, rfl⟩) fun _ _ => rfl
      refine .bind hdots ?_
      rintro _ _ ⟨rfl, rfl⟩
      exact .step hcells (.pure ⟨vars, rfl, hdeclares, hzip env⟩)
    | _ => cases he
  | _ => cases hs

/-- What surrounds the instructions of a chunk: the functions that write to the blocks, the table in which
names are looked up, and nothing under the names that a template can use. -/
structure Surrounds (m : Machine) (env : Env) (scope : Nat) : Prop extends Ready m env where
  /-- The table in which names are looked up. -/
  globals : m.Holds env globalsName (.table scope)
  /-- No variable has a name that a template can use. -/
  free : ∀ x, IsIdentifier x → env.find? (bytesOf x) = none

namespace Surrounds

variable {scope : Nat}

theorem leads (h : Surrounds m env scope) (hm : m.Leads t m') : Surrounds m' env scope :=
  ⟨h.toReady.leads hm, h.globals.keeps hm.keeps, h.free⟩

/-- A variable whose name is kept from templates. -/
theorem declare {y : String} {id : Nat} (h : Surrounds m env scope) (hy : y ∈ reserved)
    (htools : ∀ f ∈ tools, f.1 ≠ y) (hglobals : y ≠ "_ENV") :
    Surrounds m (env.declare [(bytesOf y, id)]) scope where
  toReady := h.toReady.declare fun f hf heq => htools f hf (Text.bytesOf_injective heq)
  globals := h.globals.declare fun heq => hglobals (Text.bytesOf_injective heq).symm
  free x hx := (Env.find?_declare_of_ne (bytesOf_ne hx.2.2 hy).symm).trans (h.free x hx)

/-- What surrounds a function when it is called. -/
theorem called (h : Surrounds m env scope) {calls : Calls} (hdepth : calls.depth = m.calls.depth + 1)
    (hnested : calls.nested = m.calls.nested) (hroom : m.calls.depth + 2 < Run.maxDepth) :
    Surrounds { m with calls := calls } ⟨[], env.all, []⟩ scope where
  tools f hf := (h.tools f hf).all []
  depth := by change calls.depth + 1 < _; omega
  nested := by change calls.nested < _; rw [hnested]; exact h.nested
  globals := h.globals.all []
  free x hx := (env.find?_all [] (bytesOf x)).trans (h.free x hx)

end Surrounds

/-- The block tree in which the instructions of a chunk start: the root block is open. -/
def rootTree : Tree := (Tree.empty.openBlock Block.rootName).2

/-- What surrounds the instructions of a chunk that has been started with some arguments in a machine: the
arguments, what was there when it started, and how many calls are running since then. -/
structure Called (base : Machine) (scope : Nat) (options : Value) (calls : Nat) (m : Machine) (env : Env) :
    Prop extends Surrounds m env scope where
  /-- The arguments have their names. -/
  arguments : ∀ p ∈ argumentNames.zip (Procedure.arguments options), m.Holds env p.1 p.2
  /-- The tables that were there are there. -/
  tables : Extends base.tables m.tables
  /-- The fields of strings are looked up in the same table. -/
  strings : m.strings = base.strings
  /-- How many calls are running. -/
  running : m.calls.depth = base.calls.depth + calls
  /-- The script has made them itself, except for the first. -/
  inner : m.calls.nested = base.calls.nested + 1

namespace Called

variable {base : Machine} {scope running : Nat} {options : Value}

theorem leads (h : Called base scope options running m env) (hm : m.Leads t m') :
    Called base scope options running m' env where
  toSurrounds := h.toSurrounds.leads hm
  arguments p hp := (h.arguments p hp).keeps hm.keeps
  tables id u hu := hm.tables id u (h.tables id u hu)
  strings := hm.strings.trans h.strings
  running := hm.depth.trans h.running
  inner := hm.nested.trans h.inner

/-- A variable whose name is kept from templates and is not that of an argument. -/
theorem declare {y : String} {id : Nat} (h : Called base scope options running m env) (hy : y ∈ reserved)
    (htools : ∀ f ∈ tools, f.1 ≠ y) (hglobals : y ≠ "_ENV") (harguments : bytesOf y ∉ argumentNames) :
    Called base scope options running m (env.declare [(bytesOf y, id)]) where
  toSurrounds := h.toSurrounds.declare hy htools hglobals
  arguments p hp := (h.arguments p hp).declare fun heq => harguments (heq ▸ (List.of_mem_zip hp).1)
  tables := h.tables
  strings := h.strings
  running := h.running
  inner := h.inner

/-- What surrounds a function when it is called. -/
theorem called (h : Called base scope options running m env) {calls : Calls}
    (hdepth : calls.depth = m.calls.depth + 1) (hnested : calls.nested = m.calls.nested)
    (hroom : m.calls.depth + 2 < Run.maxDepth) :
    Called base scope options (running + 1) { m with calls := calls } ⟨[], env.all, []⟩ where
  toSurrounds := h.toSurrounds.called hdepth hnested hroom
  arguments p hp := (h.arguments p hp).all []
  tables := h.tables
  strings := h.strings
  running := hdepth.trans (congrArg (· + 1) h.running)
  inner := hnested.trans h.inner

/-- A table in which names are looked up serves the same data. -/
theorem scopes {table : Table} (h : Called base scope options running m env)
    (hscopes : base.Scopes scope table) : m.Scopes scope table := by
  obtain ⟨k, d, hk, hd, hdata⟩ := hscopes
  exact ⟨k, d, h.tables _ _ hk, h.tables _ _ hd, h.tables _ _ hdata⟩

/-- The function that gives the text of the root block. -/
theorem render (h : Called base scope options running m env) :
    m.Holds env (bytesOf "__render") (.native .render) :=
  h.arguments (bytesOf "__render", .native .render) (by
    simp [argumentNames, otherLocals, Procedure.arguments])

end Called

/-- Wherever a chunk calls them, some statements leave a block tree, as long as some tables are there. -/
def RunsBody (ts : Array Table) (scope : Nat) (b : Script.Block) (t : Tree) : Prop :=
  ∀ ⦃env : Env⦄ ⦃m : Machine⦄, Extends ts m.tables → m.tree = rootTree → Surrounds m env scope →
    Walks env b m fun exit m' => (∃ env', exit = .next env') ∧ m.Keeps t m'

/-- What the lines after the instructions need: the block tree and the function that gives its text. -/
structure Leaves (env : Env) (t : Tree) (m : Machine) : Prop where
  /-- The blocks. -/
  tree : m.tree = t
  /-- The function. -/
  render : m.Holds env (bytesOf "__render") (.native .render)

/-- Wherever a chunk calls them, some statements come to their end or return, and leave a block tree. -/
def LeavesBody (base : Machine) (scope : Nat) (options : Value) (b : Script.Block) (t : Tree) : Prop :=
  ∀ ⦃env : Env⦄ ⦃m : Machine⦄, Called base scope options 2 m env → m.tree = rootTree →
    Walks env b m fun exit m' =>
      ((∃ env', exit = .next env') ∨ ∃ vs, exit = .return vs) ∧ Leaves env t m'

theorem RunsBody.leaves {base : Machine} {scope : Nat} {options : Value}
    (h : RunsBody base.tables scope b t) : LeavesBody base scope options b t := by
  intro env m hcalled htree
  refine (h hcalled.tables htree hcalled.toSurrounds).mono fun exit m' ⟨hexit, hm⟩ => ?_
  exact ⟨.inl hexit, hm.tree, hcalled.render.keeps hm⟩

/-- The line that runs the instructions. -/
theorem ends_bodyCall {base : Machine} {scope : Nat} {options : Value} {outer : Env} {fid : Nat}
    (hs : s.unlined = callStat "__body" []) (hbody : m.Holds env (bytesOf "__body") (.function fid))
    (hfid : m.functions[fid]? = some ⟨.mk [] false b, outer.all⟩)
    (hb : LeavesBody base scope options b t) (h : Called base scope options 1 m outer)
    (hdepth : m.calls.depth + 2 < Run.maxDepth) (htree : m.tree = rootTree) :
    Ends (fun level => level.runStat env s) m fun exit m' => exit = .next env ∧
      Leaves outer t m' ∧ m'.calls.depth = m.calls.depth ∧ m'.calls.nested = m.calls.nested := by
  obtain ⟨args, line, line', rfl, hargs⟩ := eq_call_of_unlined hs
  refine ends_callStat (ends_call hbody.finds (by omega) h.nested (fun m' _ => ends_noExprs hargs m')
    (fun m₁ site h₁ => ends_callFunction (h₁.functions _ _ hfid) (by rw [h₁.depth]; omega)
      fun calls hcalls hnested => ?_) line line')
  let m₂ : Machine := { m₁ with calls := calls }
  have hcalled : Called base scope options 2 m₂ ⟨[], outer.all, []⟩ :=
    (h.leads h₁).called hcalls hnested (by rw [h₁.depth]; exact hdepth)
  refine (hb (m := m₂) hcalled (h₁.tree.trans htree)).mono fun exit m' ⟨hexit, htree', hrender⟩ => ?_
  have hleaves : Leaves outer t { m' with calls := m₁.calls } ∧ m₁.calls.depth = m.calls.depth ∧
      m₁.calls.nested = m.calls.nested := ⟨⟨htree', Machine.Holds.of_all hrender⟩, h₁.depth, h₁.nested⟩
  exact hexit.imp (fun ⟨env', hexit⟩ => ⟨env', hexit, hleaves⟩) fun ⟨vs, hexit⟩ => ⟨vs, hexit, hleaves⟩

/-- The last line. -/
theorem ends_render (hs : s.unlined = .return [.call (.name (bytesOf "__render") 0) [] 0])
    (h : m.Holds env (bytesOf "__render") (.native .render)) (hdepth : m.calls.depth < Run.maxDepth)
    (hnested : m.calls.nested < Run.maxNested) :
    Ends (fun level => level.runStat env s) m fun exit _ =>
      exit = .return [.string (bytesOf m.tree.renderRoot)] := by
  cases s with
  | «return» values =>
    rw [Stat.unlined, Stat.return.injEq, Expr.allUnlined_eq, List.map_eq_singleton_iff] at hs
    obtain ⟨e, rfl, he⟩ := hs
    cases e with
    | call callee args line' =>
      rw [Expr.unlined, Expr.call.injEq] at he
      obtain ⟨hcallee, hargs, -⟩ := he
      obtain ⟨line, rfl⟩ := Expr.eq_name_of_unlined hcallee
      refine .bind (ends_name h.finds hdepth hnested line) ?_
      rintro _ m₁ ⟨rfl, h₁⟩
      refine .bind (ends_noExprs hargs m₁) ?_
      rintro _ m₂ ⟨rfl, h₂⟩
      obtain ⟨m₃, hline, h₃⟩ := Run.gives_atLine (m := m₂) line'
      have hm := (h₁.trans_tree h₂).trans_tree h₃
      have hcall (site : Option Site) : Ends (fun level => level.runCall (.native .render) [] site) m₃
          fun vs _ => vs = [.string (bytesOf m.tree.renderRoot)] :=
        ends_callNative (hm.depth ▸ hdepth) fun calls _ _ =>
          .step Run.gives_get (.pure (by rw [← hm.tree]))
      exact .step hline (.bind (hcall _) fun _ _ hvs => .pure (by rw [hvs]))
    | _ => cases he
  | _ => cases hs

/-! ### Chunks -/

theorem Program.IsProper.free {p : Program} (hp : p.IsProper) : ∀ x ∈ p.free, IsIdentifier x := by
  induction p with
  | done => exact fun x hx => absurd hx List.not_mem_nil
  | act a rest ih => exact ih hp
  | emit x rest ih => exact List.forall_mem_cons.2 ⟨hp.1, ih hp.2⟩
  | choice x body rest ihbody ihrest =>
    exact List.forall_mem_cons.2 ⟨hp.1, List.forall_mem_append.2 ⟨ihbody hp.2.1, ihrest hp.2.2⟩⟩
  | branch x body other rest ihbody ihother ihrest =>
    exact List.forall_mem_cons.2 ⟨hp.1, List.forall_mem_append.2
      ⟨ihbody hp.2.1, List.forall_mem_append.2 ⟨ihother hp.2.2.1, ihrest hp.2.2.2⟩⟩⟩
  | loop x first last body rest ihbody ihrest =>
    exact List.forall_mem_append.2
      ⟨fun y hy => ihbody hp.2.2.2.1 y (List.mem_filter.1 hy).1, ihrest hp.2.2.2.2⟩

/-- The names of the arguments are kept from templates. -/
theorem argumentNames_reserved : ∀ x ∈ argumentNames, ∃ y ∈ reserved, x = bytesOf y := by
  decide

/-- The lines after the first two: the instructions are run, and then the text of the root block is
given. -/
theorem walks_body {base : Machine} {scope : Nat} {options : Value} {body : Script.Block}
    (h : Called base scope options 1 m env) (hdepth : m.calls.depth + 2 < Run.maxDepth)
    (hb : Stat.allUnlined b = .localFunction (bytesOf "__body") (.mk [] false body) :: closingStats)
    (hbody : ∀ b, Stat.allUnlined b = body → LeavesBody base scope options b t)
    (htree : m.tree = rootTree) :
    Walks env b m fun exit _ => exit = .return [.string (bytesOf t.renderRoot)] := by
  obtain ⟨s₁, b, rfl, hs₁, hb⟩ := eq_cons_of_unlined hb
  obtain ⟨s₂, b, rfl, hs₂, hb⟩ := eq_cons_of_unlined hb
  obtain ⟨s₃, b, rfl, hs₃, -⟩ := eq_cons_of_unlined hb
  obtain ⟨body', rfl, hbody'⟩ := eq_localFunction_of_unlined hs₁
  refine .cons (fun _ => Stat.noConfusion) ((ends_localFunction _ _ _ m).mono ?_)
  rintro _ m₁ ⟨id, fid, rfl, h₁, hid, hfid⟩
  have hcalled : Called base scope options 1 m₁ (env.declare [(bytesOf "__body", id)]) :=
    (h.leads h₁).declare (by decide) (by decide) (by decide) (by decide)
  refine .inl ⟨_, rfl, .next (ne_label_of_unlined hs₂ fun _ => Stat.noConfusion)
    ((ends_bodyCall hs₂ ⟨id, Env.find?_declare, hid⟩ hfid (hbody body' hbody') hcalled
      (by rw [h₁.depth]; exact hdepth) (h₁.tree.trans htree)).mono ?_)⟩
  rintro _ m₂ ⟨rfl, hleaves, hdepth₂, hnested₂⟩
  refine ⟨rfl, .cons (ne_label_of_unlined hs₃ fun _ => Stat.noConfusion) ((ends_render hs₃
    hleaves.render (by rw [hdepth₂, h₁.depth]; omega) (by rw [hnested₂]; exact hcalled.nested)).mono ?_)⟩
  rintro _ m₃ rfl
  exact .inr ⟨_, rfl, by rw [hleaves.tree]⟩

/-- **Chunks.**  The statements of a chunk give the text of the root block that its instructions leave. -/
theorem walks_chunk {base : Machine} {scope : Nat} {body : Script.Block} {options : Value}
    (hextra : env.extra = Procedure.arguments options) (htree : m.tree = .empty)
    (hdepth : m.calls.depth = base.calls.depth + 1) (hroom : base.calls.depth + 3 < Run.maxDepth)
    (hnested : m.calls.nested = base.calls.nested + 1) (hroom' : base.calls.nested + 1 < Run.maxNested)
    (hglobals : m.Holds env globalsName (.table scope))
    (hfree : ∀ x, IsIdentifier x → env.find? (bytesOf x) = none)
    (hb : Stat.allUnlined b = chunkTree body)
    (hbody : ∀ b, Stat.allUnlined b = body → LeavesBody base scope options b t)
    (htables : Extends base.tables m.tables) (hstrings : m.strings = base.strings) :
    Walks env b m fun exit _ => exit = .return [.string (bytesOf t.renderRoot)] := by
  obtain ⟨s₁, b, rfl, hs₁, hb⟩ := eq_cons_of_unlined hb
  obtain ⟨s₂, b, rfl, hs₂, hb⟩ := eq_cons_of_unlined hb
  refine .cons (ne_label_of_unlined hs₁ fun _ => Stat.noConfusion) ((ends_preamble hs₁ hextra m).mono ?_)
  rintro _ m₁ ⟨vars, rfl, h₁, hzip⟩
  have hsurrounds : Surrounds m₁ (env.declare vars) scope := by
    refine ⟨⟨fun f hf => hzip (bytesOf f.1, .native f.2) ?_, ?_, ?_⟩, h₁.holds hglobals (by decide),
      fun x hx => ?_⟩
    · revert f
      simp [tools, argumentNames, otherLocals, Procedure.arguments]
    · rw [h₁.leads.depth]
      omega
    · rwa [h₁.leads.nested, hnested]
    · refine (h₁.find? env _ fun hmem => ?_).trans (hfree x hx)
      obtain ⟨y, hy, heq⟩ := argumentNames_reserved _ hmem
      exact bytesOf_ne hx.2.2 hy heq.symm
  have hcalled : Called base scope options 1 m₁ (env.declare vars) :=
    ⟨hsurrounds, hzip, fun id u hu => h₁.leads.tables id u (htables id u hu),
      h₁.leads.strings.trans hstrings, h₁.leads.depth.trans hdepth, h₁.leads.nested.trans hnested⟩
  refine .inl ⟨_, rfl, .next (ne_label_of_unlined hs₂ fun _ => Stat.noConfusion)
    ((ends_act (.openBlock "root") hsurrounds.toReady hs₂).mono ?_)⟩
  rintro _ m₂ ⟨rfl, h₂⟩
  have hm := h₁.leads.trans h₂
  have htree₂ : m₂.tree = rootTree := by
    rw [h₂.tree, h₁.leads.tree, htree]
    rfl
  exact ⟨rfl, walks_body (hcalled.leads h₂) (by rw [hm.depth]; omega) hb hbody htree₂⟩

/-- The script of a chunk gives the text of the root block. -/
theorem gives_runScript {id : Nat} {body : Script.Block} {options : Value}
    (hb : Stat.allUnlined b = chunkTree body)
    (hbody : ∀ b, Stat.allUnlined b = body → LeavesBody m id options b t) (htree : m.tree = .empty)
    (hdepth : m.calls.depth + 3 < Run.maxDepth) (hnested : m.calls.nested + 1 < Run.maxNested) :
    ∃ n, ∀ fuel ≥ n, ∃ m', (runScript fuel b (.table id) (Procedure.arguments options)).Gives m
      [.string (bytesOf t.renderRoot)] m' := by
  let cell := m.cells.size
  let main : Closure := ⟨.mk [] true b, [(globalsName, cell)]⟩
  let m₁ := m.push (.table id)
  let m₂ : Machine := { m₁ with functions := m₁.functions.push main }
  let env : Env := ⟨[], [(globalsName, cell)], Procedure.arguments options⟩
  have h₂ : m.Leads m.tree m₂ := (m.leads_push (.table id)).trans_tree (m₁.leads_pushFunction main)
  have hcall : Ends (fun level => Run.nested (level.runCall (.function m₁.functions.size)
      (Procedure.arguments options) none)) m₂ fun vs _ => vs = [.string (bytesOf t.renderRoot)] := by
    refine .nested (by rw [h₂.nested]; omega) (ends_callFunction Array.getElem?_push_size
      (by change m.calls.depth < _; omega) fun calls hcalls hcalls' => ?_)
    let m₃ : Machine := { m₂ with calls := calls }
    have hglobals : m₃.Holds env globalsName (.table id) :=
      ⟨cell, by simp [env, Env.find?], Array.getElem?_push_size⟩
    have hfree (x : String) (hx : IsIdentifier x) : env.find? (bytesOf x) = none := by
      have hne : bytesOf x ≠ globalsName :=
        (bytesOf_ne hx.2.2 (by decide : "_ENV" ∈ reserved)).symm
      simp [env, Env.find?, List.lookup_cons, beq_false_of_ne hne]
    exact (walks_chunk rfl (show m₃.tree = .empty from htree)
      (show m₃.calls.depth = m.calls.depth + 1 from hcalls) hdepth
      (show m₃.calls.nested = m.calls.nested + 1 from hcalls') hnested
      hglobals hfree hb hbody (fun _ _ h => h) rfl).mono fun exit _ hexit => .inr ⟨_, hexit, rfl⟩
  obtain ⟨vs, m', rfl, n, hn⟩ := hcall
  exact ⟨n, fun fuel hfuel => ⟨m', (Run.gives_newCell _).bind ((Run.gives_newFunction _).bind
    (hn fuel hfuel fuel hfuel))⟩⟩

/-- The data has been loaded after the options, and there is a table in which names are looked up. -/
def Loads (name : Bytes) (data options : Data.Value) (w : Value) (scope : Nat) (m : Machine) : Prop :=
  ∃ d m₁ m₂, (load data).Gives m₁ d m₂ ∧ (load options).Gives (Machine.start name) w m₁ ∧
    (Script.scope d).Gives m₂ (.table scope) m

/-- Rendering gives the text of the root block that the instructions of a chunk leave, also if they
return. -/
theorem render_leaves {procedure : Procedure} {body : Script.Block} {data options : Data.Value}
    (hparse : Procedure.parse procedure.origin procedure.chunk = .ok b)
    (hb : Stat.allUnlined b = chunkTree body) {w : Value} {scope : Nat}
    (hload : Loads (Procedure.scriptName procedure.origin) data options w scope m)
    (hm : (Machine.start (Procedure.scriptName procedure.origin)).Leads .empty m)
    (hbody : ∀ b, Stat.allUnlined b = body → LeavesBody m scope w b t) :
    ∃ n, ∀ fuel ≥ n, procedure.render fuel data options = .ok t.renderRoot := by
  obtain ⟨d, m₁, m₂, hdata, hoptions, hscope⟩ := hload
  obtain ⟨n, hn⟩ := gives_runScript hb hbody hm.tree
    (by rw [hm.depth]; exact show 0 + 3 < Run.maxDepth by decide)
    (by rw [hm.nested]; exact show 0 + 1 < Run.maxNested by decide)
  refine ⟨n, fun fuel hfuel => ?_⟩
  obtain ⟨m', hrun⟩ := hn fuel hfuel
  have hexecute : (Procedure.execute fuel b data options).Gives
      (Machine.start (Procedure.scriptName procedure.origin)) [.string (bytesOf t.renderRoot)] m' :=
    hoptions.bind (hdata.bind (Run.Gives.bind hscope hrun))
  have hresult : Procedure.result [.string (bytesOf t.renderRoot)] = .ok t.renderRoot := by
    rw [Procedure.result, List.headD_cons, hostText_text]
  have hfinish : (Procedure.finish fuel b data options).run
      (Machine.start (Procedure.scriptName procedure.origin)) = (.ok (.ok t.renderRoot), m') :=
    hexecute.catching.bind (hresult ▸ Run.gives_pure _)
  simp only [Procedure.render, hparse, hfinish]

/-- Rendering gives the text of the root block that the instructions of a chunk leave. -/
theorem render_body {procedure : Procedure} {body : Script.Block} {data options : Data.Value}
    (hparse : Procedure.parse procedure.origin procedure.chunk = .ok b)
    (hb : Stat.allUnlined b = chunkTree body) {d w : Value} {id : Nat} {m₁ m₂ m₃ : Machine}
    (hload : (load data).Gives m₁ d m₂)
    (hoptions : (load options).Gives (Machine.start (Procedure.scriptName procedure.origin)) w m₁)
    (hscope : (scope d).Gives m₂ (.table id) m₃)
    (h₃ : (Machine.start (Procedure.scriptName procedure.origin)).Leads .empty m₃)
    (hbody : ∀ b, Stat.allUnlined b = body → RunsBody m₃.tables id b t) :
    ∃ n, ∀ fuel ≥ n, procedure.render fuel data options = .ok t.renderRoot :=
  render_leaves hparse hb ⟨d, m₁, m₂, hload, hoptions, hscope⟩ h₃ fun b hb => (hbody b hb).leaves

/-! ### Programs -/

/-- A value of the data is loaded as what it is. -/
theorem gives_loadScalar (v : Scalar) (m : Machine) : (load v.data).Gives m v.value m := by
  cases v <;> exact Run.gives_pure _

/-- Names that are not in scope have the values of the data. -/
theorem named_data {p : Program} (hp : p.IsProper) {names : String → Scalar} {scope : Nat}
    {table : Table} {es : List (String × Data.Value)} (h : Surrounds m env scope)
    (hscopes : m.Scopes scope table) (hcarries : table.Carries es)
    (hnames : ∀ x ∈ p.free, es.lookup x = some (names x).data) : Named p env names m := by
  obtain ⟨id, hid, hcell⟩ := h.globals
  intro x hx
  exact .inr ⟨h.free x (hp.free x hx), (names x).value_ne_nil, table, ⟨id, scope, hid, hcell, hscopes⟩,
    hcarries x _ _ (hnames x hx) (names x).value_ne_nil (gives_loadScalar (names x))⟩

/-- Rendering gives the output of a program, if its chunk has been read. -/
theorem render_program {p : Program} (hp : p.IsProper) {names : String → Scalar} {data : Data.Value}
    {es : List (String × Data.Value)} (hes : entries? data = some es)
    (hnames : ∀ x ∈ p.free, es.lookup x = some (names x).data)
    (procedure : Procedure) (hparse : Procedure.parse procedure.origin procedure.chunk = .ok b)
    (hb : Stat.allUnlined b = chunkTree p.tree) (options : Data.Value) :
    ∃ n, ∀ fuel ≥ n, procedure.render fuel data options = .ok (p.output names) := by
  obtain ⟨d, w, id, table, m₁, m₂, m₃, hload, hoptions, hscope, h₃, hscopes, hcarries⟩ :=
    gives_scope hes options (Machine.start (Procedure.scriptName procedure.origin))
  refine render_body (t := p.run names rootTree) hparse hb hload hoptions hscope h₃ fun b hb => ?_
  intro env m hts htree hsurrounds
  obtain ⟨k, d, hk, hd, hdata⟩ := hscopes
  have hscopes : m.Scopes id table := ⟨k, d, hts _ _ hk, hts _ _ hd, hts _ _ hdata⟩
  refine (walks_program hp hsurrounds.toReady (named_data hp hsurrounds hscopes hcarries hnames)
    hb).mono ?_
  rintro _ m' ⟨rfl, hm⟩
  exact ⟨⟨env, rfl⟩, htree ▸ hm.keeps⟩

/-- A procedure whose script is refused gives an error. -/
theorem render_of_refused {procedure : Procedure} {e : Error}
    (h : Procedure.parse procedure.origin procedure.chunk = .error e) (fuel : Nat) (data options : Data.Value) :
    procedure.render fuel data options = .error (.error e) := by
  rw [Procedure.render, h]

theorem free_nested {x y : String} {n : Nat} (hy : y ∈ (nested x n).free) : y = x := by
  induction n with
  | zero => cases hy
  | succ n ih =>
    rw [nested, Program.free, List.mem_cons, List.mem_append] at hy
    rcases hy with rfl | hy | hy
    · rfl
    · exact ih hy
    · cases hy

end Stencil.Template
