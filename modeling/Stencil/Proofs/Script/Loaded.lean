import Stencil.Proofs.Script.Layers

/-!
# Loading data

What a script finds when it starts: the values of the data under their names (`Given`), the globals, and
nothing that it has assigned.  So the tables in which names are looked up hold what `Names.start` says
(`gives_layers`).
-/

namespace Stencil.Script

open Evaluator
open Stencil.Text (Bytes bytesOf)
open Stencil.Block (Tree)

variable {ts : Array Table} {id : Nat} {f : Bytes → Value}

/-! ### Values of the data -/

/-- How a value of the data appears in a script.  Lists and maps are told by their identity. -/
def Appears : Data.Value → Value → Prop
  | .none, w => w = .nil
  | .bool b, w => w = .bool b
  | .int n, w => w = .number (.int n)
  | .float x, w => w = .number (.float x)
  | .text s, w => w = .text s
  | .list _, w | .map _, w => ∃ id, w = .table id

/-- The value of the data under a name; what is absent counts as not there. -/
def present? (x : String) : List (String × Data.Value) → Option Data.Value
  | [] => none
  | (_, .none) :: es => present? x es
  | (k, v) :: es => if k = x then some v else present? x es

theorem present?_cons {v : Data.Value} (hv : v ≠ .none) (k x : String) (es : List (String × Data.Value)) :
    present? x ((k, v) :: es) = if k = x then some v else present? x es := by
  cases v with
  | none => exact absurd rfl hv
  | _ => rfl

/-- Names have the values of the data, and `nil` if there is none. -/
def Given (es : List (String × Data.Value)) (given : Bytes → Value) : Prop :=
  ∀ x, Appears ((present? x es).getD .none) (given (bytesOf x))

/-- What names stand for when a script starts. -/
def Names.start (given : Bytes → Value) : Names where
  bound _ := none
  assigned _ := .nil
  given := given
  globals x := Library.globals.get (.string x)

theorem maps_push (ts : Array Table) (t : Table) :
    Maps (ts.push t) ts.size t.behaviour fun x => t.get (.string x) :=
  ⟨t, Array.getElem?_push_size, rfl, fun _ => rfl⟩

/-- A value of the data is loaded as it appears, and it is written as it is. -/
theorem gives_loadPlain (v : Data.Value) (m : Machine) :
    ∃ w m', (load v).Gives m w m' ∧ m.Leads m.tree m' ∧ Appears v w ∧ IsPlain m'.tables w := by
  cases v with
  | list items =>
    obtain ⟨ws, m', hitems, hm⟩ := gives_loadItems items m
    refine ⟨_, _, hitems.bind (Run.gives_newTable _), hm.trans_tree (m'.leads_pushTable _), ⟨_, rfl⟩, ?_⟩
    rintro _ ⟨⟩
    exact ⟨_, _, maps_push m'.tables _, .inr rfl⟩
  | map entries =>
    obtain ⟨ws, m', hentries, hm, -⟩ := gives_loadEntries entries m
    refine ⟨_, _, hentries.bind (Run.gives_newTable _), hm.trans_tree (m'.leads_pushTable _), ⟨_, rfl⟩, ?_⟩
    rintro _ ⟨⟩
    exact ⟨_, _, maps_push m'.tables _, .inl rfl⟩
  | _ => exact ⟨_, m, Run.gives_pure _, .refl m, rfl, fun _ h => by cases h⟩

/-- A value that is there does not appear as `nil`. -/
theorem Appears.ne_nil {v : Data.Value} {w : Value} (h : Appears v w) (hv : v ≠ .none) : w ≠ .nil := by
  rintro rfl
  cases v with
  | none => exact hv rfl
  | list items => obtain ⟨id, h⟩ := h; cases h
  | map entries => obtain ⟨id, h⟩ := h; cases h
  | _ => cases h

/-- The value of a name among entries. -/
def valueOf (ws : List (Value × Value)) (x : Bytes) : Value :=
  ((ws.find? fun e => e.1 == .string x).map (·.2)).getD .nil

theorem valueOf_cons (x y : Bytes) (w : Value) (ws : List (Value × Value)) :
    valueOf ((.string x, w) :: ws) y = if x = y then w else valueOf ws y := by
  rw [valueOf, List.find?_cons]
  by_cases hx : x = y
  · simp [hx]
  · have hkey : (Value.string x == Value.string y) = false :=
      beq_false_of_ne fun h => hx (Value.string.inj h)
    rw [hkey, if_neg hx, valueOf]

/-- The entries of the data are loaded as they appear. -/
theorem gives_loadGiven (es : List (String × Data.Value)) (m : Machine) :
    ∃ ws m', (loadEntries es).Gives m ws m' ∧ m.Leads m.tree m' ∧ Given es (valueOf ws) ∧
      ∀ x, IsPlain m'.tables (valueOf ws x) := by
  induction es generalizing m with
  | nil => exact ⟨[], m, Run.gives_pure _, .refl m, fun _ => rfl, fun _ _ h => by cases h⟩
  | cons e es ih =>
    obtain ⟨k, v⟩ := e
    obtain ⟨w, m₁, hv, h₁, happears, hplain⟩ := gives_loadPlain v m
    obtain ⟨ws, m₂, hes, h₂, hgiven, hrest⟩ := ih m₁
    refine ⟨_, m₂, hv.bind (Run.Gives.bind hes (Run.gives_pure _)), h₁.trans_tree h₂, ?_⟩
    by_cases hnone : v = .none
    · subst hnone
      obtain rfl : w = .nil := happears
      exact ⟨hgiven, hrest⟩
    · rw [beq_false_of_ne (happears.ne_nil hnone), if_neg (by decide)]
      constructor
      · intro x
        rw [present?_cons hnone, Value.text, valueOf_cons]
        by_cases hx : k = x
        · rw [if_pos hx, if_pos (congrArg bytesOf hx)]
          exact happears
        · rw [if_neg hx, if_neg fun h => hx (Text.bytesOf_injective h)]
          exact hgiven x
      · intro x
        rw [Value.text, valueOf_cons]
        split
        · exact hplain.mono h₂.tables
        · exact hrest x

/-! ### The tables of a script -/

theorem lt_size_of_maps {b : Option Nat} (h : Maps ts id b f) : id < ts.size := by
  obtain ⟨t, ht, -⟩ := h
  exact (Array.getElem?_eq_some_iff.1 ht).1

/-- The value of a name is that of an entry. -/
theorem Table.mem_of_get {u : Table} {x : Bytes} {v : Value} (h : u.get (.string x) = v)
    (hv : v ≠ .nil) : ∃ e ∈ u.entries.toList, e.2 = v := by
  rw [get_string] at h
  cases hfind : u.entries.toList.find? fun e => e.1 == Value.string x with
  | none =>
    rw [hfind] at h
    exact absurd h.symm hv
  | some e =>
    rw [hfind] at h
    exact ⟨e, List.mem_of_find?_eq_some hfind, h⟩

/-- The tables that are there before a script runs, apart from the one for lists of the data. -/
theorem maps_library {k : Nat} (hk : k < 4) : ∃ f, Maps Library.tables k none f := by
  have hsize : k < Library.tables.size := Nat.lt_trans hk (by decide)
  refine ⟨_, Library.tables[k], Array.getElem?_eq_getElem hsize, ?_, fun _ => rfl⟩
  revert k
  decide

/-- The globals are written as they are. -/
theorem isPlain_globals (x : Bytes) : IsPlain Library.tables (Library.globals.get (.string x)) := by
  intro k hk
  obtain ⟨e, he, hvalue⟩ := Table.mem_of_get hk Value.noConfusion
  have hall : ∀ e ∈ Library.globals.entries.toList, ∀ k, e.2 = .table k → k < 4 := by
    simp [Library.globals, named, globalsTable, mathTable, listsTable, stringsTable]
  obtain ⟨f, hf⟩ := maps_library (hall e he k hvalue)
  exact ⟨none, f, hf, .inl rfl⟩

/-- **What a script starts with.**  Before a script runs, the tables in which names are looked up hold the
data and the globals, and the script has assigned nothing. -/
theorem gives_layers (es : List (String × Data.Value)) (options : Data.Value) (name : Bytes) :
    ∃ d w id m₁ m₂ m₃, (load (.map es)).Gives m₁ d m₂ ∧
      (load options).Gives (Machine.start name) w m₁ ∧ (scope d).Gives m₂ (.table id) m₃ ∧
      (Machine.start name).Leads .empty m₃ ∧
      ∃ behaviour data given, Given es given ∧ Layers m₃.tables id behaviour data (.start given) := by
  obtain ⟨w, m₁, hoptions, h₁⟩ := gives_load options (Machine.start name)
  obtain ⟨ws, m₀, hentries, h₀, hgiven, hplain⟩ := gives_loadGiven es m₁
  let m₂ : Machine := { m₀ with tables := m₀.tables.push { entries := ws.toArray } }
  let behaves : Table := named [("__index", .native (.lookUp m₀.tables.size globalsTable))]
  let m₃ : Machine := { m₂ with tables := m₂.tables.push behaves }
  let m₄ : Machine := { m₃ with tables := m₃.tables.push { behaviour := some m₂.tables.size } }
  have h₂ : m₁.Leads m₁.tree m₂ := h₀.trans_tree (m₀.leads_pushTable _)
  have h₃ : m₂.Leads m₂.tree m₄ := (m₂.leads_pushTable behaves).trans_tree (m₃.leads_pushTable _)
  have h₄ : (Machine.start name).Leads .empty m₄ := h₁.trans_tree (h₂.trans_tree h₃)
  have hlibrary : Extends Library.tables m₄.tables := h₄.tables
  -- the tables are numbered in the order in which they are made
  have hglobals : Maps Library.tables globalsTable none fun x => Library.globals.get (.string x) :=
    ⟨Library.globals, rfl, rfl, fun _ => rfl⟩
  have hsealed : Maps Library.tables sealedTable none fun x => Library.sealed.get (.string x) :=
    ⟨Library.sealed, rfl, rfl, fun _ => rfl⟩
  have hdata : Maps m₂.tables m₀.tables.size none (valueOf ws) :=
    ⟨{ entries := ws.toArray }, Array.getElem?_push_size, rfl, fun x => Table.get_string _ x⟩
  have hfirst : sealedTable < m₀.tables.size :=
    lt_size_of_maps (hsealed.mono (h₁.trans_tree h₀).tables)
  have hsecond : m₂.tables.size = m₀.tables.size + 1 := Array.size_push ..
  have hsize : m₃.tables.size = m₂.tables.size + 1 := Array.size_push ..
  have hfour : sealedTable = globalsTable + 1 := rfl
  refine ⟨_, w, m₃.tables.size, m₁, m₂, m₄, hentries.bind (Run.gives_newTable _), hoptions,
    (Run.gives_newTable behaves).bind (Run.gives_newTable _), h₄, m₂.tables.size, m₀.tables.size,
    valueOf ws, hgiven, ?_⟩
  exact {
    assigned := maps_push m₃.tables { behaviour := some m₂.tables.size }
    stands := ⟨_, (maps_push m₂.tables behaves).mono (m₃.leads_pushTable _).tables, rfl⟩
    given := hdata.mono h₃.tables
    globals := hglobals.mono hlibrary
    sealed := ⟨_, hsealed.mono hlibrary, rfl⟩
    scope_apart := by omega
    globals_apart := by omega
    plain := fun x => ⟨(fun _ h => by cases h),
      ((hplain x).mono (m₀.leads_pushTable _).tables).mono h₃.tables,
      (isPlain_globals x).mono hlibrary⟩ }

end Stencil.Script
