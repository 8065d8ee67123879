import Stencil.Proofs.Script.Ends
import Stencil.Script.Globals

/-!
# What scripts find under names

While a script runs, the machine keeps what it has: new cells, tables and functions come after those
that are there, and a call that has ended leaves no trace (`Machine.Leads`).  So a name keeps its value
as long as nothing is assigned to it: that of a variable in scope, or that of the data (`Machine.Finds`,
`ends_name`).
-/

namespace Stencil.Script

open Stencil.Text (Bytes bytesOf)
open Stencil.Block (Tree)

/-! ### Machines that go on -/

/-- A machine goes on to another one that has a block tree: what there is stays, and as many calls
run. -/
structure Machine.Leads (m : Machine) (t : Tree) (m' : Machine) : Prop where
  /-- The variables keep their values. -/
  cells : ∀ (id : Nat) (v : Value), m.cells[id]? = some v → m'.cells[id]? = some v
  /-- The tables stay as they are. -/
  tables : ∀ (id : Nat) (t : Table), m.tables[id]? = some t → m'.tables[id]? = some t
  /-- The functions stay as they are. -/
  functions : ∀ (id : Nat) (c : Closure), m.functions[id]? = some c → m'.functions[id]? = some c
  /-- As many calls run. -/
  depth : m'.calls.depth = m.calls.depth
  /-- As many of them are nested. -/
  nested : m'.calls.nested = m.calls.nested
  /-- The fields of strings are looked up in the same table. -/
  strings : m'.strings = m.strings
  /-- The blocks. -/
  tree : m'.tree = t

namespace Machine.Leads

variable {m m' m'' : Machine} {t t' : Tree} {calls : Calls}

theorem refl (m : Machine) : m.Leads m.tree m :=
  ⟨fun _ _ => id, fun _ _ => id, fun _ _ => id, rfl, rfl, rfl, rfl⟩

theorem trans (h : m.Leads t m') (h' : m'.Leads t' m'') : m.Leads t' m'' where
  cells id v hv := h'.cells id v (h.cells id v hv)
  tables id u hu := h'.tables id u (h.tables id u hu)
  functions id c hc := h'.functions id c (h.functions id c hc)
  depth := h'.depth.trans h.depth
  nested := h'.nested.trans h.nested
  strings := h'.strings.trans h.strings
  tree := h'.tree

/-- Only the block tree changes. -/
theorem plant (m : Machine) (t : Tree) : m.Leads t { m with tree := t } :=
  ⟨fun _ _ => id, fun _ _ => id, fun _ _ => id, rfl, rfl, rfl, rfl⟩

/-- The calls are what they were before. -/
theorem restore (h : { m with calls := calls }.Leads t m') :
    m.Leads t { m' with calls := m.calls } :=
  ⟨h.cells, h.tables, h.functions, rfl, rfl, h.strings, h.tree⟩

/-- Some tables, functions and variables are new. -/
theorem push (m : Machine) (vs : Array Value) (ts : Array Table) (cs : Array Closure) :
    m.Leads m.tree { m with
      cells := m.cells ++ vs, tables := m.tables ++ ts, functions := m.functions ++ cs } := by
  have hkeeps {γ : Type} (xs ys : Array γ) (id : Nat) (x : γ) (h : xs[id]? = some x) :
      (xs ++ ys)[id]? = some x := by
    rw [Array.getElem?_append_left (Array.getElem?_eq_some_iff.1 h).1, h]
  exact ⟨hkeeps _ _, hkeeps _ _, hkeeps _ _, rfl, rfl, rfl, rfl⟩

end Machine.Leads

/-- A machine goes on to another one that has a block tree, and it may write to its tables meanwhile: the
variables and functions stay, and as many calls run. -/
structure Machine.Keeps (m : Machine) (t : Tree) (m' : Machine) : Prop where
  /-- The variables keep their values. -/
  cells : ∀ (id : Nat) (v : Value), m.cells[id]? = some v → m'.cells[id]? = some v
  /-- The functions stay as they are. -/
  functions : ∀ (id : Nat) (c : Closure), m.functions[id]? = some c → m'.functions[id]? = some c
  /-- As many calls run. -/
  depth : m'.calls.depth = m.calls.depth
  /-- As many of them are nested. -/
  nested : m'.calls.nested = m.calls.nested
  /-- The fields of strings are looked up in the same table. -/
  strings : m'.strings = m.strings
  /-- The blocks. -/
  tree : m'.tree = t

namespace Machine.Keeps

variable {m m' m'' : Machine} {t t' : Tree}

theorem trans (h : m.Keeps t m') (h' : m'.Keeps t' m'') : m.Keeps t' m'' where
  cells id v hv := h'.cells id v (h.cells id v hv)
  functions id c hc := h'.functions id c (h.functions id c hc)
  depth := h'.depth.trans h.depth
  nested := h'.nested.trans h.nested
  strings := h'.strings.trans h.strings
  tree := h'.tree

theorem size_le (h : m.Keeps t m') : m.cells.size ≤ m'.cells.size := by
  refine Nat.le_of_not_lt fun hlt => ?_
  have hcell := h.cells m'.cells.size _ (Array.getElem?_eq_getElem hlt)
  exact Nat.lt_irrefl _ (Array.getElem?_eq_some_iff.1 hcell).1

end Machine.Keeps

theorem Machine.Leads.keeps {m m' : Machine} {t : Tree} (h : m.Leads t m') : m.Keeps t m' :=
  ⟨h.cells, h.functions, h.depth, h.nested, h.strings, h.tree⟩

namespace Run

variable {m : Machine}

theorem gives_atLine (line : Nat) : ∃ m', (atLine line).Gives m () m' ∧ m.Leads m.tree m' := by
  refine ⟨_, gives_modify _, ?_⟩
  split
  · exact ⟨fun _ _ => id, fun _ _ => id, fun _ _ => id, rfl, rfl, rfl, rfl⟩
  · exact .refl m

theorem gives_newCell (v : Value) :
    (newCell v).Gives m m.cells.size { m with cells := m.cells.push v } :=
  gives_get.bind ((gives_modify _).bind (gives_pure _))

theorem gives_newTable (t : Table) :
    (newTable t).Gives m (.table m.tables.size) { m with tables := m.tables.push t } :=
  gives_get.bind ((gives_modify _).bind (gives_pure _))

theorem gives_newFunction (c : Closure) :
    (newFunction c).Gives m (.function m.functions.size) { m with functions := m.functions.push c } :=
  gives_get.bind ((gives_modify _).bind (gives_pure _))

theorem gives_cell {id : Nat} {v : Value} (h : m.cells[id]? = some v) : (cell id).Gives m v m := by
  have hv : m.cells.getD id .nil = v := by rw [Array.getD_eq_getD_getElem?, h, Option.getD_some]
  rw [← hv]
  exact gives_get.bind (gives_pure _)

theorem gives_table {id : Nat} {t : Table} (h : m.tables[id]? = some t) : (table id).Gives m t m := by
  have ht : m.tables.getD id default = t := by rw [Array.getD_eq_getD_getElem?, h, Option.getD_some]
  rw [← ht]
  exact gives_get.bind (gives_pure _)

theorem gives_closure {id : Nat} {c : Closure} (h : m.functions[id]? = some c) :
    (closure id).Gives m c m := by
  have hc : m.functions.getD id default = c := by
    rw [Array.getD_eq_getD_getElem?, h, Option.getD_some]
  rw [← hc]
  exact gives_get.bind (gives_pure _)

/-- A table without a value for a name says how it behaves. -/
theorem gives_behaviour {id b : Nat} {t u : Table} {name : String}
    (ht : m.tables[id]? = some t) (hb : t.behaviour = some b) (hu : m.tables[b]? = some u) :
    (behaviour id name).Gives m (u.get (.text name)) m := by
  refine (gives_table ht).bind ?_
  rw [hb]
  exact (gives_table hu).bind (gives_pure _)

end Run

/-! ### Variables in scope -/

namespace Env

variable {env : Env} {x y : Bytes} {id : Nat}

theorem find?_declare : (env.declare [(x, id)]).find? x = some id := by
  simp [find?, declare]

theorem find?_declare_of_ne (h : y ≠ x) : (env.declare [(x, id)]).find? y = env.find? y := by
  simp [find?, declare, List.lookup_cons, beq_false_of_ne h]

end Env

/-! ### Names -/

/-- A table without values of its own, in whose stead a table of data is looked at. -/
def Machine.Scopes (m : Machine) (scope : Nat) (data : Table) : Prop :=
  ∃ b d, m.tables[scope]? = some { behaviour := some b } ∧
    m.tables[b]? = some (named [("__index", .native (.lookUp d globalsTable))]) ∧
    m.tables[d]? = some data

/-- The names that are not in scope are looked up in a table of data. -/
def Machine.Serves (m : Machine) (env : Env) (data : Table) : Prop :=
  ∃ id scope, env.find? globalsName = some id ∧ m.cells[id]? = some (.table scope) ∧
    m.Scopes scope data

/-- A variable in scope has a value. -/
def Machine.Holds (m : Machine) (env : Env) (x : Bytes) (v : Value) : Prop :=
  ∃ id, env.find? x = some id ∧ m.cells[id]? = some v

/-- A value is found under a name: it is that of a variable, or there is no variable and it is that of
the data. -/
def Machine.Finds (m : Machine) (env : Env) (x : Bytes) (v : Value) : Prop :=
  (∃ id, env.find? x = some id ∧ m.cells[id]? = some v) ∨
    env.find? x = none ∧ v ≠ .nil ∧ ∃ data, m.Serves env data ∧ data.get (.string x) = v

variable {m m' : Machine} {t : Tree} {env : Env} {x y : Bytes} {v w : Value} {data : Table} {id : Nat}

theorem Machine.Holds.keeps (h : m.Holds env x v) (hm : m.Keeps t m') : m'.Holds env x v := by
  obtain ⟨id, hid, hv⟩ := h
  exact ⟨id, hid, hm.cells _ _ hv⟩

theorem Machine.Holds.declare (h : m.Holds env y v) (hy : y ≠ x) : m.Holds (env.declare [(x, id)]) y v := by
  obtain ⟨id, hid, hv⟩ := h
  exact ⟨id, (Env.find?_declare_of_ne hy).trans hid, hv⟩

theorem Machine.Holds.finds (h : m.Holds env x v) : m.Finds env x v := .inl h

theorem Machine.Scopes.leads {scope : Nat} (h : m.Scopes scope data) (hm : m.Leads t m') :
    m'.Scopes scope data := by
  obtain ⟨b, d, hb, hd, hdata⟩ := h
  exact ⟨b, d, hm.tables _ _ hb, hm.tables _ _ hd, hm.tables _ _ hdata⟩

theorem Machine.Serves.leads (h : m.Serves env data) (hm : m.Leads t m') : m'.Serves env data := by
  obtain ⟨id, scope, hid, hscope, hdata⟩ := h
  exact ⟨id, scope, hid, hm.cells _ _ hscope, hdata.leads hm⟩

theorem Machine.Serves.declare (h : m.Serves env data) (hx : x ≠ globalsName) :
    m.Serves (env.declare [(x, id)]) data := by
  obtain ⟨id, scope, hid, hrest⟩ := h
  exact ⟨id, scope, (Env.find?_declare_of_ne hx.symm).trans hid, hrest⟩

theorem Machine.Finds.leads (h : m.Finds env x v) (hm : m.Leads t m') : m'.Finds env x v := by
  rcases h with ⟨id, hid, hv⟩ | ⟨hx, hv, data, hserves, hdata⟩
  · exact .inl ⟨id, hid, hm.cells _ _ hv⟩
  · exact .inr ⟨hx, hv, data, hserves.leads hm, hdata⟩

/-- A new variable hides no other one. -/
theorem Machine.Finds.declare (h : m.Finds env y v) (hy : y ≠ x) (hx : x ≠ globalsName) :
    m.Finds (env.declare [(x, id)]) y v := by
  rcases h with ⟨id', hid, hv⟩ | ⟨hnone, hv, data, hserves, hdata⟩
  · exact .inl ⟨id', (Env.find?_declare_of_ne hy).trans hid, hv⟩
  · exact .inr ⟨(Env.find?_declare_of_ne hy).trans hnone, hv, data, hserves.declare hx, hdata⟩

/-! ### Fields -/

open Evaluator

/-- The value that a table has for a key. -/
theorem gives_lookUp {site : Option Site} {key : Value} (h : m.tables[id]? = some data)
    (hv : data.get key = v) (hnil : v ≠ .nil) :
    (lookUp site (.table id) key).Gives m (.found v) m := by
  refine (Run.gives_table h).bind ?_
  rw [hv]
  cases v with
  | nil => exact absurd rfl hnil
  | _ => exact Run.gives_pure _

/-- A table has a value for a key. -/
theorem ends_readField {site : Option Site} {key : Value} (h : m.tables[id]? = some data)
    (hv : data.get key = v) (hnil : v ≠ .nil) :
    Ends (fun level => level.readField site (.table id) key) m fun w m' => w = v ∧ m' = m :=
  .step (gives_lookUp h hv hnil) (.pure ⟨rfl, rfl⟩)

/-! ### Calls of ready functions -/

/-- A call of a function that is found ready. -/
theorem ends_callNative {f : Native} {args : List Value} {site : Option Site}
    {Q : List Value → Machine → Prop} (hdepth : m.calls.depth < Run.maxDepth)
    (h : ∀ calls : Calls, calls.depth = m.calls.depth + 1 → calls.nested = m.calls.nested →
      Ends (fun level => f.run level.toCallbacks args) { m with calls := calls }
        fun vs m' => Q vs { m' with calls := m.calls }) :
    Ends (fun level => level.runCall (.native f) args site) m Q :=
  Loops.ends (.turn (.bind (.within hdepth (h _ rfl rfl)) fun _ _ hQ => .pure hQ))

/-- The ready function that looks names up finds those of the data. -/
theorem ends_lookUp {d : Nat} {object : Value} (h : m.tables[d]? = some data)
    (hv : data.get (.string x) = v) (hnil : v ≠ .nil) :
    Ends (fun level => (Native.lookUp d globalsTable).run level.toCallbacks [object, .string x]) m
      fun vs m' => vs = [v] ∧ m' = m := by
  have hindex : Ends (fun level => level.index (.table d) (.string x)) m
      fun w m' => w = v ∧ m' = m := .below (ends_readField h hv hnil) fun _ _ => rfl
  refine .bind hindex ?_
  rintro w _ ⟨rfl, rfl⟩
  match w, hnil with
  | .bool _, _ | .number _, _ | .string _, _ | .table _, _ | .function _, _ | .native _, _
  | .failure _, _ => exact .pure ⟨rfl, rfl⟩

/-- A table has no value for a name, and a ready function that stands in for it gives one. -/
theorem ends_readMissing {f : Native} {site : Option Site} {scope : Nat}
    (hmissing : (lookUp site (.table scope) (.string x)).Gives m (.missing (.native f)) m)
    (hdepth : m.calls.depth < Run.maxDepth) (hnested : m.calls.nested < Run.maxNested)
    (hrun : ∀ calls : Calls, Ends (fun level => f.run level.toCallbacks [.table scope, .string x])
      { m with calls := calls } fun vs m' => vs = [v] ∧ m' = { m with calls := calls }) :
    Ends (fun level => level.readField site (.table scope) (.string x)) m
      fun w m' => w = v ∧ m.Leads m.tree m' := by
  have hcall (site : Option Site) : Ends (fun level => Run.nested
      (level.callAt (.native f) [.table scope, .string x] site)) m
      fun vs m' => vs = [v] ∧ m.Leads m.tree m' := by
    refine .nested hnested (.below (ends_callNative hdepth fun calls _ _ => ?_) fun _ _ => rfl)
    refine (hrun calls).mono ?_
    rintro vs _ ⟨hvs, rfl⟩
    exact ⟨hvs, .refl m⟩
  refine .step hmissing (.bind (hcall _) ?_)
  rintro _ m' ⟨rfl, hm⟩
  exact .pure ⟨rfl, hm⟩

/-- A name that is not in scope is looked up in the data. -/
theorem ends_readServed {site : Option Site} {scope : Nat} (hscope : m.Scopes scope data)
    (hv : data.get (.string x) = v) (hnil : v ≠ .nil)
    (hdepth : m.calls.depth < Run.maxDepth) (hnested : m.calls.nested < Run.maxNested) :
    Ends (fun level => level.readField site (.table scope) (.string x)) m
      fun w m' => w = v ∧ m.Leads m.tree m' := by
  obtain ⟨b, d, hscope, hb, hdata⟩ := hscope
  have hmissing : (lookUp site (.table scope) (.string x)).Gives m
      (.missing (.native (.lookUp d globalsTable))) m :=
    (Run.gives_table hscope).bind ((Run.gives_behaviour hscope rfl hb).bind (Run.gives_pure _))
  exact ends_readMissing hmissing hdepth hnested fun calls =>
    ends_lookUp (m := { m with calls := calls }) hdata hv hnil

/-- A name that is no variable is read from the table in which names are looked up. -/
theorem ends_globalName {scope line : Nat} (hx : env.find? x = none)
    (hglobals : m.Holds env globalsName (.table scope))
    (hread : ∀ m', m.Leads m.tree m' → Ends
      (fun level => level.readField (globalsSite env) (.table scope) (.string x)) m' fun w m'' =>
        w = v ∧ m'.Leads m'.tree m'') :
    Ends (fun level => level.expr env (.name x line)) m fun w m' => w = v ∧ m.Leads m.tree m' := by
  obtain ⟨id, hid, hscope⟩ := hglobals
  refine .below (p := fun level => level.readName env x line) ?_ fun _ _ => rfl
  simp only [Evaluator.readName, hx, Evaluator.globals, hid]
  obtain ⟨m', hline, hm⟩ := Run.gives_atLine (m := m) line
  refine .step hline (.step (Run.gives_cell (hm.cells _ _ hscope)) ((hread m' hm).mono ?_))
  rintro w m'' ⟨rfl, hm'⟩
  rw [hm.tree] at hm'
  exact ⟨rfl, hm.trans hm'⟩

/-- **Names.**  The value of a name is the one that is found under it. -/
theorem ends_name (h : m.Finds env x v) (hdepth : m.calls.depth < Run.maxDepth)
    (hnested : m.calls.nested < Run.maxNested) (line : Nat) :
    Ends (fun level => level.expr env (.name x line)) m fun w m' => w = v ∧ m.Leads m.tree m' := by
  rcases h with ⟨id, hid, hv⟩ | ⟨hx, hv, data, ⟨id, scope, hid, hscope, hdata⟩, hget⟩
  · refine .below (p := fun level => level.readName env x line) ?_ fun _ _ => rfl
    simp only [Evaluator.readName, hid]
    exact .of_gives (fun _ => Run.gives_cell hv) ⟨rfl, .refl m⟩
  · exact ends_globalName hx ⟨id, hid, hscope⟩ fun m' hm =>
      ends_readServed (hdata.leads hm) hget hv (hm.depth ▸ hdepth) (hm.nested ▸ hnested)

end Stencil.Script
