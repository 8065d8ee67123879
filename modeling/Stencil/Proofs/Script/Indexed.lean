import Stencil.Proofs.Script.Loaded

/-!
# Paths into data

A path leads into data from a map to what is under a key, and from a list to what is at a position, counted
from one.  A script that indexes the table of the data with a path finds what the path leads to, however deep
it lies; it finds `nil` where the data has nothing.

* `Data.Step`, `Data.Value.atPath` : a path and what it leads to.
* `Loaded` : the tables of a script hold a value of the data, all the way down; `gives_loaded` says that
  loading makes such tables.
* `Loaded.gives_child` : one step of a path is one access of a script.
* `gives_path` : a path from a map of the data.
-/

namespace Stencil.Data

/-- One step of a path into data. -/
inductive Step where
  /-- To what is under a key. -/
  | key (k : String)
  /-- To what is at a position, counted from one. -/
  | position (n : Int64)
  deriving DecidableEq, Repr

namespace Value

/-- What a step leads to; where there is nothing, no value. -/
def child : Value → Step → Value
  | .map es, .key k => (Script.present? k es).getD .none
  | .list vs, .position n => if 1 ≤ n.toInt then vs[n.toInt.toNat - 1]?.getD .none else .none
  | _, _ => .none

/-- A key that a map has once leads to the value of its entry. -/
theorem child_key {es : List (String × Value)} (h : (es.map Prod.fst).Nodup) (k : String) :
    (Value.map es).child (.key k) = (es.lookup k).getD .none := by
  unfold child
  dsimp only
  induction es with
  | nil => rfl
  | cons e es ih =>
    obtain ⟨x, v⟩ := e
    rw [List.map_cons, List.nodup_cons] at h
    rw [List.lookup_cons]
    by_cases hx : x = k
    · subst hx
      rw [beq_self_eq_true]
      by_cases hv : v = .none
      · -- an entry without a value is passed over, and there is no other one
        have hlookup : es.lookup x = Option.none := by
          rw [List.lookup_eq_none_iff]
          intro e he
          have hmem : e.1 ∈ es.map Prod.fst := List.mem_map_of_mem he
          have hne : x ≠ e.1 := fun hk => h.1 (by rwa [← hk] at hmem)
          simpa using hne
        rw [hv, Script.present?, ih h.2, hlookup]
        rfl
      · rw [Script.present?_cons hv, if_pos rfl]
    · rw [beq_false_of_ne (Ne.symm hx), ← ih h.2]
      by_cases hv : v = .none
      · rw [hv, Script.present?]
      · rw [Script.present?_cons hv, if_neg hx]

/-- What a path leads to. -/
def atPath (v : Value) (path : List Step) : Value := path.foldl child v

/-- A list or a map. -/
def IsCollection (v : Value) : Prop := (∃ vs, v = .list vs) ∨ ∃ es, v = .map es

end Value

end Stencil.Data

namespace Stencil.Script

open Evaluator
open Stencil.Text (Bytes bytesOf)
open Stencil.Data (Step)

/-- The key that a step of a path stands for in a script. -/
def index : Step → Value
  | .key k => .text k
  | .position n => .number (.int n)

/-- Reads the fields of a path one after the other, from the value on. -/
def readPath (level : Evaluator) (v : Value) : List Step → Run Value
  | [] => return v
  | s :: path => do readPath level (← level.readField none v (index s)) path

/-! ### Loaded data -/

mutual

/-- A value of the data as the tables of a script hold it. -/
inductive Loaded (ts : Array Table) : Data.Value → Value → Prop
  /-- What is no list and no map needs no table. -/
  | plain {v : Data.Value} {w : Value} (hv : ¬v.IsCollection) (h : Appears v w) : Loaded ts v w
  /-- A list has a table with nothing but items, which nobody can make behave otherwise. -/
  | list {vs : List Data.Value} {ws : List Value} {id : Nat} (h : LoadedItems ts vs ws)
      (ht : ts[id]? = some { items := ws.toArray, behaviour := some sealedTable }) :
      Loaded ts (.list vs) (.table id)
  /-- A map has a table with nothing but entries. -/
  | map {es : List (String × Data.Value)} {ws : List (Value × Value)} {id : Nat} (h : LoadedEntries ts es ws)
      (ht : ts[id]? = some { entries := ws.toArray }) : Loaded ts (.map es) (.table id)

/-- The items of a list, each in its place. -/
inductive LoadedItems (ts : Array Table) : List Data.Value → List Value → Prop
  | nil : LoadedItems ts [] []
  | cons {v : Data.Value} {vs : List Data.Value} {w : Value} {ws : List Value} (hv : Loaded ts v w)
      (h : LoadedItems ts vs ws) : LoadedItems ts (v :: vs) (w :: ws)

/-- The entries of a map, without those that have no value. -/
inductive LoadedEntries (ts : Array Table) : List (String × Data.Value) → List (Value × Value) → Prop
  | nil : LoadedEntries ts [] []
  | absent {k : String} {es : List (String × Data.Value)} {ws : List (Value × Value)}
      (h : LoadedEntries ts es ws) : LoadedEntries ts ((k, .none) :: es) ws
  | present {k : String} {v : Data.Value} {es : List (String × Data.Value)} {w : Value}
      {ws : List (Value × Value)} (hne : v ≠ .none) (hv : Loaded ts v w) (h : LoadedEntries ts es ws) :
      LoadedEntries ts ((k, v) :: es) ((.text k, w) :: ws)

end

variable {ts : Array Table} {v : Data.Value} {w : Value} {m : Machine}

theorem Loaded.appears (h : Loaded ts v w) : Appears v w := by
  cases h with
  | plain _ h => exact h
  | list _ _ => exact ⟨_, rfl⟩
  | map _ _ => exact ⟨_, rfl⟩

theorem Loaded.eq_nil_iff (h : Loaded ts v w) : w = .nil ↔ v = .none := by
  constructor
  · intro hnil
    by_contra hne
    exact h.appears.ne_nil hne hnil
  · rintro rfl
    exact h.appears

mutual

/-- Data is loaded all the way down, and stays as it is while tables are added. -/
theorem gives_loaded : (v : Data.Value) → (m : Machine) →
    ∃ w m', (load v).Gives m w m' ∧ m.Leads m.tree m' ∧ ∀ ts, Extends m'.tables ts → Loaded ts v w
  | .none, m | .bool _, m | .int _, m | .float _, m | .text _, m =>
    ⟨_, m, Run.gives_pure _, .refl m, fun _ _ => .plain (by simp [Data.Value.IsCollection]) rfl⟩
  | .list vs, m => by
    obtain ⟨ws, m', hitems, hm, hloaded⟩ := gives_loadedItems vs m
    refine ⟨_, _, hitems.bind (Run.gives_newTable _), hm.trans_tree (m'.leads_pushTable _), fun ts hts => ?_⟩
    exact .list (hloaded ts fun id t ht => hts id t ((m'.leads_pushTable _).tables id t ht))
      (hts _ _ Array.getElem?_push_size)
  | .map es, m => by
    obtain ⟨ws, m', hentries, hm, hloaded⟩ := gives_loadedEntries es m
    refine ⟨_, _, hentries.bind (Run.gives_newTable _), hm.trans_tree (m'.leads_pushTable _), fun ts hts => ?_⟩
    exact .map (hloaded ts fun id t ht => hts id t ((m'.leads_pushTable _).tables id t ht))
      (hts _ _ Array.getElem?_push_size)

theorem gives_loadedItems : (vs : List Data.Value) → (m : Machine) →
    ∃ ws m', (loadItems vs).Gives m ws m' ∧ m.Leads m.tree m' ∧
      ∀ ts, Extends m'.tables ts → LoadedItems ts vs ws
  | [], m => ⟨[], m, Run.gives_pure _, .refl m, fun _ _ => .nil⟩
  | v :: vs, m => by
    obtain ⟨w, m₁, hv, h₁, hfirst⟩ := gives_loaded v m
    obtain ⟨ws, m₂, hvs, h₂, hrest⟩ := gives_loadedItems vs m₁
    refine ⟨_, m₂, hv.bind (hvs.bind (Run.gives_pure _)), h₁.trans_tree h₂, fun ts hts => ?_⟩
    exact .cons (hfirst ts fun id t ht => hts id t (h₂.tables id t ht)) (hrest ts hts)

theorem gives_loadedEntries : (es : List (String × Data.Value)) → (m : Machine) →
    ∃ ws m', (loadEntries es).Gives m ws m' ∧ m.Leads m.tree m' ∧
      ∀ ts, Extends m'.tables ts → LoadedEntries ts es ws
  | [], m => ⟨[], m, Run.gives_pure _, .refl m, fun _ _ => .nil⟩
  | (k, v) :: es, m => by
    obtain ⟨w, m₁, hv, h₁, hfirst⟩ := gives_loaded v m
    obtain ⟨ws, m₂, hes, h₂, hrest⟩ := gives_loadedEntries es m₁
    refine ⟨_, m₂, hv.bind (hes.bind (Run.gives_pure _)), h₁.trans_tree h₂, fun ts hts => ?_⟩
    have hw := hfirst ts fun id t ht => hts id t (h₂.tables id t ht)
    by_cases hne : v = .none
    · subst hne
      rw [hw.eq_nil_iff.2 rfl]
      exact .absent (hrest ts hts)
    · rw [beq_false_of_ne (mt hw.eq_nil_iff.1 hne), if_neg Bool.false_ne_true]
      exact .present hne hw (hrest ts hts)

end

/-! ### One step -/

theorem LoadedItems.getElem? {vs : List Data.Value} {ws : List Value} (h : LoadedItems ts vs ws) (i : Nat) :
    Loaded ts (vs[i]?.getD .none) (ws[i]?.getD .nil) := by
  induction vs generalizing ws i with
  | nil =>
    cases h
    exact .plain (by simp [Data.Value.IsCollection]) rfl
  | cons v vs ih =>
    cases h with
    | cons hv h =>
      cases i with
      | zero => exact hv
      | succ i => exact ih h i

theorem LoadedEntries.valueOf {es : List (String × Data.Value)} {ws : List (Value × Value)}
    (h : LoadedEntries ts es ws) (x : String) :
    Loaded ts ((present? x es).getD .none) (valueOf ws (bytesOf x)) := by
  induction es generalizing ws with
  | nil =>
    cases h
    exact .plain (by simp [Data.Value.IsCollection, present?]) rfl
  | cons e es ih =>
    cases h with
    | absent h => exact ih h
    | @present k v _ w _ hne hv h =>
      rw [present?_cons hne, Value.text, valueOf_cons]
      by_cases hx : k = x
      · rw [if_pos hx, if_pos (congrArg bytesOf hx)]
        exact hv
      · rw [if_neg hx, if_neg fun h => hx (Text.bytesOf_injective h)]
        exact ih h

/-- All keys of a map are strings. -/
theorem LoadedEntries.find?_number {es : List (String × Data.Value)} {ws : List (Value × Value)}
    (h : LoadedEntries ts es ws) (n : Number) : (ws.find? fun e => e.1 == .number n) = none := by
  induction es generalizing ws with
  | nil =>
    cases h
    rfl
  | cons e es ih =>
    cases h with
    | absent h => exact ih h
    | present hne hv h =>
      rw [List.find?_cons_of_neg (by simp [Value.text])]
      exact ih h

theorem Table.get_int (t : Table) (n : Int64) :
    t.get (.number (.int n)) = if 1 ≤ n.toInt ∧ n.toInt ≤ t.items.size then t.items.getD (n.toInt.toNat - 1) .nil
      else ((t.entries.toList.find? fun e => e.1 == .number (.int n)).map (·.2)).getD .nil := by
  have hkey : (Value.number (.int n)).asKey = .number (.int n) := rfl
  simp only [Table.get, hkey, Table.position?, ← Array.find?_toList]
  by_cases hrange : 1 ≤ n.toInt ∧ n.toInt ≤ t.items.size
  · rw [if_pos hrange, if_pos hrange]
  · rw [if_neg hrange, if_neg hrange]
    cases t.entries.toList.find? fun e => e.1 == Value.number (.int n) <;> rfl

/-- The items of a list are under the keys from one on. -/
theorem Table.get_item (ws : List Value) (b : Option Nat) (n : Int64) :
    ({ items := ws.toArray, behaviour := b } : Table).get (.number (.int n)) =
      if 1 ≤ n.toInt then ws[n.toInt.toNat - 1]?.getD .nil else .nil := by
  rw [Table.get_int]
  dsimp only
  rw [List.size_toArray, Array.getD_eq_getD_getElem?, List.getElem?_toArray]
  by_cases hone : 1 ≤ n.toInt
  · rw [if_pos hone]
    by_cases hlast : n.toInt ≤ ws.length
    · rw [if_pos ⟨hone, hlast⟩]
    · rw [if_neg fun h => hlast h.2, List.getElem?_eq_none (by omega)]
      rfl
  · rw [if_neg fun h => hone h.1, if_neg hone]
    rfl

/-- A table of the data holds what a step leads to, and nothing stands in for what it does not hold. -/
theorem Loaded.get_index {id : Nat} (h : Loaded ts v (.table id)) (hv : v.IsCollection) :
    ∃ t, ts[id]? = some t ∧ (t.behaviour = none ∨ t.behaviour = some sealedTable) ∧
      ∀ s : Step, Loaded ts (v.child s) (t.get (index s)) := by
  have hnone : Loaded ts .none .nil := .plain (by simp [Data.Value.IsCollection]) rfl
  cases h with
  | plain hplain => exact absurd hv hplain
  | @list vs ws _ h ht =>
    refine ⟨_, ht, .inr rfl, fun s => ?_⟩
    cases s with
    | key k => exact hnone
    | position n =>
      rw [index, Table.get_item, Data.Value.child]
      split
      · exact h.getElem? _
      · exact hnone
  | @map es ws _ h ht =>
    refine ⟨_, ht, .inl rfl, fun s => ?_⟩
    cases s with
    | key k =>
      rw [index, Value.text, Table.get_string]
      exact h.valueOf k
    | position n =>
      rw [index, Table.get_int, if_neg (by simp; omega)]
      simp only [h.find?_number]
      exact hnone

/-- **Steps.**  Indexing the table of a list or of a map gives what the step leads to. -/
theorem Loaded.gives_child (h : Loaded m.tables v w) (hv : v.IsCollection)
    (hlibrary : Extends Library.tables m.tables) (s : Step) :
    ∃ w', Loaded m.tables (v.child s) w' ∧
      ∀ (level : Evaluator) (site : Option Site), (level.readField site w (index s)).Gives m w' m := by
  obtain ⟨id, rfl⟩ : ∃ id, w = .table id := by
    cases h with
    | plain hplain => exact absurd hv hplain
    | list _ _ => exact ⟨_, rfl⟩
    | map _ _ => exact ⟨_, rfl⟩
  obtain ⟨t, ht, hb, hchild⟩ := h.get_index hv
  have hbehaviour : (Run.behaviour id "__index").Gives m .nil m := by
    rcases hb with hb | hb
    · exact gives_noBehaviour ⟨t, ht, hb, fun _ => rfl⟩ _
    · exact Run.gives_behaviour ht hb (hlibrary sealedTable Library.sealed rfl)
  refine ⟨_, hchild s, fun level site => ?_⟩
  by_cases hnil : t.get (index s) = .nil
  · have hmissing : (lookUp site (.table id) (index s)).Gives m (.missing .nil) m := by
      refine (Run.gives_table ht).bind ?_
      rw [hnil]
      exact hbehaviour.bind (Run.gives_pure _)
    rw [hnil]
    exact hmissing.bind (Run.gives_pure _)
  · exact (gives_lookUp ht rfl hnil).bind (Run.gives_pure _)

/-! ### Paths -/

/-- **Paths.**  The induction is on the path, its first step taken off. -/
theorem Loaded.gives_readPath (h : Loaded m.tables v w) (hlibrary : Extends Library.tables m.tables)
    (path : List Step) (hpath : ∀ front, front <+: path → front ≠ path → (v.atPath front).IsCollection) :
    ∃ w', Loaded m.tables (v.atPath path) w' ∧ ∀ level, (readPath level w path).Gives m w' m := by
  induction path generalizing v w with
  | nil => exact ⟨w, h, fun _ => Run.gives_pure _⟩
  | cons s path ih =>
    obtain ⟨w₁, hchild, hread⟩ := h.gives_child (hpath [] List.nil_prefix (List.cons_ne_nil _ _).symm) hlibrary s
    obtain ⟨w', hrest, hgives⟩ := ih hchild fun front hfront hne =>
      hpath (s :: front) (List.cons_prefix_cons.2 ⟨rfl, hfront⟩) fun heq => hne (List.cons.inj heq).2
    exact ⟨w', hrest, fun level => (hread level none).bind (hgives level)⟩

/-- **Paths into data.**  A map of the data is loaded into a table.  As long as the tables of the data stay as they
are, a script that follows a path through lists and maps from there finds a value like the one that the path
leads to, and `nil` exactly where it leads to no value. -/
theorem gives_path (es : List (String × Data.Value)) {m : Machine} (hm : Extends Library.tables m.tables) :
    ∃ id m₁, (load (.map es)).Gives m (.table id) m₁ ∧ m.Leads m.tree m₁ ∧
      ∀ (m₂ : Machine), Extends m₁.tables m₂.tables → ∀ path : List Step,
        (∀ front, front <+: path → front ≠ path → ((Data.Value.map es).atPath front).IsCollection) →
        ∃ w, (∀ level, (readPath level (.table id) path).Gives m₂ w m₂) ∧
          Appears ((Data.Value.map es).atPath path) w ∧
          (w = .nil ↔ (Data.Value.map es).atPath path = .none) := by
  obtain ⟨w, m₁, hload, hleads, hloaded⟩ := gives_loaded (.map es) m
  obtain ⟨id, rfl⟩ := (hloaded _ fun _ _ ht => ht).appears
  refine ⟨id, m₁, hload, hleads, fun m₂ hm₂ path hpath => ?_⟩
  have hlibrary : Extends Library.tables m₂.tables := fun id t ht => hm₂ id t (hleads.tables id t (hm id t ht))
  obtain ⟨w, hw, hgives⟩ := (hloaded _ hm₂).gives_readPath hlibrary path hpath
  exact ⟨w, hgives, hw.appears, hw.eq_nil_iff⟩

/-- A list with a hole in front of a map. -/
def holed : List (String × Data.Value) :=
  [("a", .list [.none, .map [("b", .int Int64.minValue)], .list []]), ("c", .none)]

theorem gives_path_holed :
    ∃ id m₁, (load (.map holed)).Gives (Machine.start []) (.table id) m₁ ∧
      (∀ level, (readPath level (.table id) [.key "a", .position 1]).Gives m₁ .nil m₁) ∧
      ∀ level, (readPath level (.table id) [.key "a", .position 2, .key "b"]).Gives m₁
        (.number (.int Int64.minValue)) m₁ := by
  obtain ⟨id, m₁, hload, -, hpaths⟩ := gives_path holed (m := Machine.start []) fun _ _ ht => ht
  refine ⟨id, m₁, hload, ?_, ?_⟩
  · obtain ⟨w, hgives, -, hnil⟩ := hpaths m₁ (fun _ _ ht => ht) [.key "a", .position 1] (by
      intro front hfront hne
      simp only [List.prefix_cons_iff, List.prefix_nil] at hfront
      rcases hfront with rfl | ⟨_, rfl, rfl | ⟨_, rfl, rfl⟩⟩
      · exact .inr ⟨_, rfl⟩
      · exact .inl ⟨_, rfl⟩
      · exact absurd rfl hne)
    obtain rfl : w = .nil := hnil.2 rfl
    exact hgives
  · obtain ⟨w, hgives, happears, -⟩ := hpaths m₁ (fun _ _ ht => ht) [.key "a", .position 2, .key "b"] (by
      intro front hfront hne
      simp only [List.prefix_cons_iff, List.prefix_nil] at hfront
      rcases hfront with rfl | ⟨_, rfl, rfl | ⟨_, rfl, rfl | ⟨_, rfl, rfl⟩⟩⟩
      · exact .inr ⟨_, rfl⟩
      · exact .inl ⟨_, rfl⟩
      · exact .inr ⟨_, rfl⟩
      · exact absurd rfl hne)
    obtain rfl : w = .number (.int Int64.minValue) := happears
    exact hgives

end Stencil.Script
