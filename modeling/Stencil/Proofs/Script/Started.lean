import Stencil.Proofs.Script.Walks
import Stencil.Proofs.Text.Decoded

/-!
# Scripts that start

What a script finds when it starts: the data as values of the script, a table through which its names are
looked up, and the variables and functions that it declares.
-/

namespace Stencil.Script

open Evaluator
open Stencil.Text (Bytes bytesOf)
open Stencil.Block (Tree)

variable {m m' : Machine} {env : Env} {data : Table}

/-! ### Data -/

theorem Machine.leads_pushTable (m : Machine) (t : Table) :
    m.Leads m.tree { m with tables := m.tables.push t } := by
  have h := Machine.Leads.push m #[] #[t] #[]
  rwa [Array.append_empty, Array.append_empty, Array.append_singleton] at h

theorem Machine.leads_pushFunction (m : Machine) (c : Closure) :
    m.Leads m.tree { m with functions := m.functions.push c } := by
  have h := Machine.Leads.push m #[] #[] #[c]
  rwa [Array.append_empty, Array.append_empty, Array.append_singleton] at h

theorem Machine.Leads.trans_tree {m m' m'' : Machine} (h : m.Leads m.tree m')
    (h' : m'.Leads m'.tree m'') : m.Leads m.tree m'' := by
  rw [h.tree] at h'
  exact h.trans h'

mutual

/-- Data can always be loaded. -/
theorem gives_load : (v : Data.Value) → (m : Machine) →
    ∃ w m', (load v).Gives m w m' ∧ m.Leads m.tree m'
  | .none, m | .bool _, m | .int _, m | .float _, m | .text _, m => ⟨_, m, Run.gives_pure _, .refl m⟩
  | .list items, m => by
    obtain ⟨ws, m', hitems, hm⟩ := gives_loadItems items m
    exact ⟨_, _, hitems.bind (Run.gives_newTable _), hm.trans_tree (m'.leads_pushTable _)⟩
  | .map entries, m => by
    obtain ⟨ws, m', hentries, hm, -⟩ := gives_loadEntries entries m
    exact ⟨_, _, hentries.bind (Run.gives_newTable _), hm.trans_tree (m'.leads_pushTable _)⟩

theorem gives_loadItems : (vs : List Data.Value) → (m : Machine) →
    ∃ ws m', (loadItems vs).Gives m ws m' ∧ m.Leads m.tree m'
  | [], m => ⟨[], m, Run.gives_pure _, .refl m⟩
  | v :: vs, m => by
    obtain ⟨w, m₁, hv, h₁⟩ := gives_load v m
    obtain ⟨ws, m₂, hvs, h₂⟩ := gives_loadItems vs m₁
    exact ⟨_, m₂, hv.bind (hvs.bind (Run.gives_pure _)), h₁.trans_tree h₂⟩

/-- A key that has a value in the data has it in the script. -/
theorem gives_loadEntries : (es : List (String × Data.Value)) → (m : Machine) →
    ∃ ws m', (loadEntries es).Gives m ws m' ∧ m.Leads m.tree m' ∧
      ∀ x v w, es.lookup x = some v → w ≠ .nil → (∀ m, (load v).Gives m w m) →
        ws.find? (fun e => e.1 == Value.text x) = some (Value.text x, w)
  | [], m => ⟨[], m, Run.gives_pure _, .refl m, fun _ _ _ h => by cases h⟩
  | (k, v) :: es, m => by
    obtain ⟨w, m₁, hv, h₁⟩ := gives_load v m
    obtain ⟨ws, m₂, hes, h₂, hfind⟩ := gives_loadEntries es m₁
    refine ⟨_, m₂, hv.bind (hes.bind (Run.gives_pure _)), h₁.trans_tree h₂, ?_⟩
    intro x u w' hlookup hnil hu
    rw [List.lookup_cons] at hlookup
    by_cases hx : x = k
    · subst hx
      rw [beq_self_eq_true, Option.some.injEq] at hlookup
      subst hlookup
      have hw : w' = w := by
        have heq := (hu m).symm.trans hv
        rw [Prod.mk.injEq, Except.ok.injEq] at heq
        exact heq.1
      subst hw
      simp [hnil]
    · rw [beq_false_of_ne hx] at hlookup
      have hkey : (Value.text k == Value.text x) = false :=
        beq_false_of_ne fun h => hx (Text.bytesOf_injective (Value.string.inj h)).symm
      have hrest := hfind x u w' hlookup hnil hu
      split
      · exact hrest
      · rw [List.find?_cons, hkey]
        exact hrest

end

/-- A table has the values of some entries. -/
def Table.Carries (t : Table) (es : List (String × Data.Value)) : Prop :=
  ∀ x v w, es.lookup x = some v → w ≠ .nil → (∀ m, (load v).Gives m w m) → t.get (Value.text x) = w

/-- The entries of a map can be loaded. -/
theorem gives_loadMap (es : List (String × Data.Value)) (m : Machine) :
    ∃ id m' t, (load (.map es)).Gives m (.table id) m' ∧ m.Leads m.tree m' ∧
      m'.tables[id]? = some t ∧ t.Carries es := by
  obtain ⟨ws, m', hentries, hm, hfind⟩ := gives_loadEntries es m
  refine ⟨_, _, { entries := ws.toArray }, hentries.bind (Run.gives_newTable _),
    hm.trans_tree (m'.leads_pushTable _), Array.getElem?_push_size, fun x v w hx hnil hv => ?_⟩
  have hkey : (Value.text x).asKey = Value.text x := rfl
  have hposition : ({ entries := ws.toArray } : Table).position? (Value.text x) = none := rfl
  simp only [Table.get, hkey, hposition, List.find?_toArray, hfind x v w hx hnil hv]

/-! ### Scopes -/

/-- The names of a script are looked up in a table. -/
theorem gives_scopeTable {id : Nat} (h : m.tables[id]? = some data) :
    ∃ scope m', (scopeTable id).Gives m (.table scope) m' ∧ m.Leads m.tree m' ∧
      m'.Scopes scope data := by
  have h₁ := m.leads_pushTable (named [("__index", .native (.lookUp id globalsTable))])
  refine ⟨_, _, (Run.gives_newTable _).bind (Run.gives_newTable _),
    h₁.trans_tree (Machine.leads_pushTable _ _), m.tables.size, id, Array.getElem?_push_size, ?_, ?_⟩
  · exact (Machine.leads_pushTable _ _).tables _ _ Array.getElem?_push_size
  · exact (h₁.trans_tree (Machine.leads_pushTable _ _)).tables _ _ h

/-- The entries of the data of a template: it is a map, or it is absent. -/
def entries? : Data.Value → Option (List (String × Data.Value))
  | .map es => some es
  | .none => some []
  | _ => none

/-- The options and the data are loaded, and the names of the script are looked up in the data. -/
theorem gives_scope {v : Data.Value} {es : List (String × Data.Value)} (hv : entries? v = some es)
    (options : Data.Value) (m : Machine) :
    ∃ d w id data m₁ m₂ m₃, (load v).Gives m₁ d m₂ ∧ (load options).Gives m w m₁ ∧
      (scope d).Gives m₂ (.table id) m₃ ∧ m.Leads m.tree m₃ ∧ m₃.Scopes id data ∧ data.Carries es := by
  obtain ⟨w, m₁, hoptions, h₁⟩ := gives_load options m
  cases v with
  | map es' =>
    obtain rfl : es' = es := Option.some.inj hv
    obtain ⟨d, m₂, data, hload, h₂, hd, hdata⟩ := gives_loadMap es' m₁
    obtain ⟨id, m₃, hscope, h₃, hscopes⟩ := gives_scopeTable hd
    exact ⟨.table d, w, id, data, m₁, m₂, m₃, hload, hoptions, hscope,
      (h₁.trans_tree h₂).trans_tree h₃, hscopes, hdata⟩
  | none =>
    obtain rfl : [] = es := Option.some.inj hv
    obtain ⟨id, m₂, hscope, h₂, hscopes⟩ :=
      gives_scopeTable (m := { m₁ with tables := m₁.tables.push {} }) Array.getElem?_push_size
    exact ⟨.nil, w, id, {}, m₁, m₁, m₂, Run.gives_pure _, hoptions, (Run.gives_newTable _).bind hscope,
      (h₁.trans_tree (m₁.leads_pushTable {})).trans_tree h₂, hscopes, fun _ _ _ h => by cases h⟩
  | _ => cases hv

/-! ### Variables -/

theorem Env.declare_cons (env : Env) (p : Bytes × Nat) (vars : Variables) :
    env.declare (p :: vars) = (env.declare [p]).declare vars := by
  simp [declare]

/-- New variables hide nothing but their own names. -/
structure Machine.Declares (m : Machine) (names : List Bytes) (vars : Variables) (m' : Machine) : Prop where
  /-- The machine goes on. -/
  leads : m.Leads m.tree m'
  /-- Other names stand for what they stood for. -/
  find? : ∀ (env : Env) y, y ∉ names → (env.declare vars).find? y = env.find? y

namespace Machine.Declares

variable {names : List Bytes} {vars : Variables} {y : Bytes} {v : Value}

theorem holds (h : m.Declares names vars m') (hy : m.Holds env y v) (hne : y ∉ names) :
    m'.Holds (env.declare vars) y v := by
  obtain ⟨id, hid, hv⟩ := hy
  exact ⟨id, (h.find? env y hne).trans hid, h.leads.cells _ _ hv⟩

end Machine.Declares

/-- Variables with different names have the values that they are given. -/
theorem gives_newCells {names : List Bytes} (hnodup : names.Nodup) (vs : List Value) (m : Machine) :
    ∃ vars m', (Run.newCells names vs).Gives m vars m' ∧ m.Declares names vars m' ∧
      ∀ env : Env, ∀ p ∈ names.zip vs, m'.Holds (env.declare vars) p.1 p.2 := by
  induction names generalizing vs m with
  | nil =>
    exact ⟨[], m, Run.gives_pure _, ⟨.refl m, fun env y _ => rfl⟩,
      fun env p hp => absurd hp List.not_mem_nil⟩
  | cons x names ih =>
    rw [List.nodup_cons] at hnodup
    obtain ⟨hx, hnodup⟩ := hnodup
    let v := vs.headD .nil
    obtain ⟨vars, m', hcells, hdeclares, hzip⟩ := ih hnodup vs.tail (m.push v)
    have hself (env : Env) : (m.push v).Holds (env.declare [(x, m.cells.size)]) x v :=
      ⟨_, Env.find?_declare, Array.getElem?_push_size⟩
    refine ⟨(x, m.cells.size) :: vars, m',
      (Run.gives_newCell v).bind (Run.Gives.bind hcells (Run.gives_pure _)),
      ⟨(m.leads_push v).trans_tree hdeclares.leads, fun env y hy => ?_⟩, ?_⟩
    · rw [List.mem_cons, not_or] at hy
      rw [Env.declare_cons, hdeclares.find? _ y hy.2, Env.find?_declare_of_ne hy.1]
    · intro env p hp
      rw [Env.declare_cons]
      cases vs with
      | nil => exact absurd hp List.not_mem_nil
      | cons u us =>
        rw [List.zip_cons_cons, List.mem_cons] at hp
        rcases hp with rfl | hp
        · exact hdeclares.holds (hself env) hx
        · exact hzip _ p hp

/-! ### Functions -/

/-- A function that is declared with its name. -/
theorem ends_localFunction (env : Env) (x : Bytes) (f : Function) (m : Machine) :
    Ends (fun level => level.runStat env (.localFunction x f)) m fun exit m' =>
      ∃ id fid, exit = .next (env.declare [(x, id)]) ∧ m.Leads m.tree m' ∧
        m'.cells[id]? = some (.function fid) ∧
        m'.functions[fid]? = some ⟨f, (env.declare [(x, id)]).all⟩ := by
  let id := m.cells.size
  let v := Value.function m.functions.size
  let c : Closure := ⟨f, (env.declare [(x, id)]).all⟩
  have hcells : (m.cells.push .nil).setIfInBounds id v = m.cells.push v := by
    ext i h₁ h₂
    · simp
    · grind
  have hm := (m.leads_push v).trans_tree ((m.push v).leads_pushFunction c)
  have hdeclare : (declareFunction env x f).Gives m (.next (env.declare [(x, id)]))
      { m.push v with functions := m.functions.push c } := by
    rw [Machine.push, ← hcells]
    exact (Run.gives_newCell _).bind ((Run.gives_newFunction _).bind
      ((Run.gives_modify _).bind (Run.gives_pure _)))
  exact .of_gives (fun _ => hdeclare)
    ⟨id, m.functions.size, rfl, hm, Array.getElem?_push_size, Array.getElem?_push_size⟩

/-- What surrounds a function when it is called is what surrounded it when it was made. -/
theorem Env.find?_all (env : Env) (extra : List Value) (x : Bytes) :
    Env.find? ⟨[], env.all, extra⟩ x = env.find? x := by
  rw [find?, find?, all, List.lookup_append]
  rfl

theorem Machine.Holds.all {x : Bytes} {v : Value} (h : m.Holds env x v) (extra : List Value) :
    m.Holds ⟨[], env.all, extra⟩ x v := by
  obtain ⟨id, hid, hv⟩ := h
  exact ⟨id, (env.find?_all extra x).trans hid, hv⟩

theorem Machine.Holds.of_all {x : Bytes} {v : Value} {extra : List Value}
    (h : m.Holds ⟨[], env.all, extra⟩ x v) : m.Holds env x v := by
  obtain ⟨id, hid, hv⟩ := h
  exact ⟨id, (env.find?_all extra x).symm.trans hid, hv⟩

end Stencil.Script
