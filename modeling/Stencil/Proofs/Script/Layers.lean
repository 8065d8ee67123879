import Mathlib.Logic.Function.Basic
import Stencil.Proofs.Script.Started

/-!
# Layers of names

A name that is no variable is looked up in three tables: in the one that the script assigns to, then in the
data, then in the globals; `nil` in a table means that the name is looked up in the next one.

* `Names` : what names stand for, with `Names.value` for the value that a script reads.
* `Layers` : the tables of a machine hold what names stand for.
* `Layers.assign`, `Layers.redefine` : what is written to one of the tables is what names stand for
  afterwards, and the other tables stay as they are.
* `ends_sharedName` : a name that is no variable is read through the tables as `Names` says.
-/

namespace Stencil.Script

open Evaluator
open Stencil.Text (Bytes bytesOf)

/-! ### What names stand for -/

/-- A value, or another one if it is `nil`. -/
def Value.or : Value → Value → Value
  | .nil, other => other
  | v, _ => v

theorem Value.or_of_ne_nil {v : Value} (h : v ≠ .nil) (other : Value) : v.or other = v := by
  cases v with
  | nil => exact absurd rfl h
  | _ => rfl

/-- What the names of a script stand for. -/
structure Names where
  /-- The values of the variables in scope. -/
  bound : Bytes → Option Value
  /-- What the script has assigned to other names. -/
  assigned : Bytes → Value
  /-- The values of the data. -/
  given : Bytes → Value
  /-- The values of the globals. -/
  globals : Bytes → Value

namespace Names

/-- The value of a name that is no variable. -/
def shared (names : Names) (x : Bytes) : Value :=
  (names.assigned x).or ((names.given x).or (names.globals x))

/-- The value of a name: a variable hides everything else. -/
def value (names : Names) (x : Bytes) : Value := (names.bound x).getD (names.shared x)

/-- A new variable, or a new value for one. -/
def bind (names : Names) (x : Bytes) (v : Value) : Names :=
  { names with bound := Function.update names.bound x (some v) }

/-- A new value for a name: for the variable if there is one, and else in the scope of the script. -/
def assign (names : Names) (x : Bytes) (v : Value) : Names :=
  if (names.bound x).isSome then names.bind x v
  else { names with assigned := Function.update names.assigned x v }

/-- A new value for a global. -/
def redefine (names : Names) (x : Bytes) (v : Value) : Names :=
  { names with globals := Function.update names.globals x v }

end Names

/-! ### Tables -/

namespace Table

variable {t : Table} {x y : Bytes} {v : Value}

theorem get_string (t : Table) (x : Bytes) :
    t.get (.string x) = ((t.entries.toList.find? fun e => e.1 == .string x).map (·.2)).getD .nil := by
  have hkey : (Value.string x).asKey = .string x := rfl
  have hposition : t.position? (.string x) = none := rfl
  simp only [Table.get, hkey, hposition, ← Array.find?_toList]
  cases t.entries.toList.find? fun e => e.1 == Value.string x <;> rfl

/-- The entry of a key takes the place of the one that it had before. -/
theorem find?_set {es : List (Value × Value)} {key : Value} {i : Nat}
    (h : (es.findIdx? fun e => e.1 == key) = some i) (other : Value) :
    ((es.set i (key, v)).find? fun e => e.1 == other) =
      if other = key then some (key, v) else es.find? fun e => e.1 == other := by
  induction es generalizing i with
  | nil => cases h
  | cons e es ih =>
    rw [List.findIdx?_cons] at h
    by_cases he : e.1 = key
    · rw [he, beq_self_eq_true, if_pos rfl] at h
      obtain rfl : 0 = i := Option.some.inj h
      rw [List.set_cons_zero, List.find?_cons, List.find?_cons, he]
      by_cases hother : other = key
      · simp [hother]
      · simp [hother, beq_false_of_ne (Ne.symm hother)]
    · rw [beq_false_of_ne he, if_neg (by decide), Option.map_eq_some_iff] at h
      obtain ⟨i, hi, rfl⟩ := h
      rw [List.set_cons_succ, List.find?_cons, List.find?_cons, ih hi]
      by_cases hother : other = key
      · simp [hother, beq_false_of_ne he]
      · simp [hother]

/-- A name is set in its place among the entries, or it becomes the last of them. -/
theorem set_string (t : Table) (x : Bytes) (v : Value) :
    t.set (.string x) v = match t.entries.toList.findIdx? fun e => e.1 == Value.string x with
      | some i => { t with entries := t.entries.setIfInBounds i (.string x, v) }
      | none => if v = .nil then t else { t with entries := t.entries.push (.string x, v) } := by
  have hset : t.set (.string x) v = match t.entries.findIdx? fun e => e.1 == Value.string x with
      | some i => { t with entries := t.entries.setIfInBounds i (.string x, v) }
      | none => if v == .nil then t else { t with entries := t.entries.push (.string x, v) } := rfl
  rw [hset, ← List.findIdx?_toArray, Array.toArray_toList]
  simp only [beq_iff_eq]

/-- A name has the value that was set last. -/
theorem get_set (t : Table) (x y : Bytes) (v : Value) :
    (t.set (.string x) v).get (.string y) = if y = x then v else t.get (.string y) := by
  have hkey : Value.string y = Value.string x ↔ y = x := ⟨Value.string.inj, congrArg _⟩
  rw [set_string]
  cases hplace : t.entries.toList.findIdx? fun e => e.1 == Value.string x with
  | some i =>
    simp only [get_string, Array.toList_setIfInBounds, find?_set hplace, hkey]
    split <;> rfl
  | none =>
    have hnone : (t.entries.toList.find? fun e => e.1 == Value.string x) = none :=
      List.find?_eq_none.2 fun e he => Bool.not_eq_true _ ▸ List.findIdx?_eq_none_iff.1 hplace e he
    dsimp only
    by_cases hnil : v = .nil
    · -- a name without a value is not added, and it has none then either
      rw [if_pos hnil]
      by_cases hy : y = x
      · rw [if_pos hy, hy, get_string, hnone, hnil]
        rfl
      · rw [if_neg hy]
    · rw [if_neg hnil]
      simp only [get_string, Array.toList_push, List.find?_append, List.find?_singleton, beq_iff_eq]
      by_cases hy : y = x
      · subst hy
        simp [hnone]
      · simp [hy, Ne.symm hy]

theorem behaviour_set (t : Table) (x : Bytes) (v : Value) :
    (t.set (.string x) v).behaviour = t.behaviour := by
  rw [set_string]
  split
  · rfl
  · split <;> rfl

end Table

variable {m : Machine} {ts ts' : Array Table} {id other scope behaviour data : Nat}
  {b : Option Nat} {f g : Bytes → Value} {x : Bytes} {v : Value} {names : Names}

/-- Some tables are there, and maybe others after them. -/
def Extends (ts ts' : Array Table) : Prop := ∀ (id : Nat) (t : Table), ts[id]? = some t → ts'[id]? = some t

/-- A table that behaves as another one says and has some values under names. -/
def Maps (ts : Array Table) (id : Nat) (b : Option Nat) (f : Bytes → Value) : Prop :=
  ∃ t, ts[id]? = some t ∧ t.behaviour = b ∧ ∀ x, t.get (.string x) = f x

namespace Maps

theorem mono (h : Maps ts id b f) (hts : Extends ts ts') : Maps ts' id b f := by
  obtain ⟨u, hu, hf⟩ := h
  exact ⟨u, hts _ _ hu, hf⟩

/-- A value is written to a table. -/
theorem set (h : Maps ts id b f) (x : Bytes) (v : Value) :
    Maps (ts.modify id fun t => t.set (.string x) v) id b (Function.update f x v) := by
  obtain ⟨u, hu, hb, hf⟩ := h
  refine ⟨u.set (.string x) v, ?_, (u.behaviour_set x v).trans hb, fun y => ?_⟩
  · rw [Array.getElem?_modify, if_pos rfl, hu]
    rfl
  · rw [Table.get_set, hf, Function.update_apply]

/-- A value is written to another table. -/
theorem set_of_ne (h : Maps ts id b f) (hne : id ≠ other) (x : Bytes) (v : Value) :
    Maps (ts.modify other fun t => t.set (.string x) v) id b f := by
  obtain ⟨u, hu, hf⟩ := h
  exact ⟨u, by rw [Array.getElem?_modify, if_neg hne.symm, hu], hf⟩

end Maps

/-- A value that is written as it is: no table of the script says how. -/
def IsPlain (ts : Array Table) (v : Value) : Prop :=
  ∀ id, v = .table id → ∃ b f, Maps ts id b f ∧ (b = none ∨ b = some sealedTable)

namespace IsPlain

theorem mono (h : IsPlain ts v) (hts : Extends ts ts') : IsPlain ts' v := by
  intro id hid
  obtain ⟨b, f, hf, hb⟩ := h id hid
  exact ⟨b, f, hf.mono hts, hb⟩

theorem set (h : IsPlain ts v) (other : Nat) (x : Bytes) (w : Value) :
    IsPlain (ts.modify other fun t => t.set (.string x) w) v := by
  intro id hid
  obtain ⟨b, f, hf, hb⟩ := h id hid
  by_cases hne : id = other
  · subst hne
    exact ⟨b, _, hf.set x w, hb⟩
  · exact ⟨b, f, hf.set_of_ne hne x w, hb⟩

end IsPlain

/-- The tables in which names are looked up hold what the names stand for. -/
structure Layers (ts : Array Table) (scope behaviour data : Nat) (names : Names) : Prop where
  /-- The scope of the script, which another table stands in for. -/
  assigned : Maps ts scope (some behaviour) names.assigned
  /-- A function stands in for the scope: it looks names up in the data and in the globals. -/
  stands : ∃ f, Maps ts behaviour none f ∧ f (bytesOf "__index") = .native (.lookUp data globalsTable)
  /-- The data. -/
  given : Maps ts data none names.given
  /-- The globals. -/
  globals : Maps ts globalsTable none names.globals
  /-- The table that stands behind lists of the data does not say how they are written. -/
  sealed : ∃ f, Maps ts sealedTable none f ∧ f (bytesOf "__tostring") = .nil
  /-- The scope is a table of its own. -/
  scope_apart : scope ≠ behaviour ∧ scope ≠ data ∧ scope ≠ globalsTable ∧ scope ≠ sealedTable
  /-- The globals are not among the tables of the data. -/
  globals_apart : globalsTable ≠ behaviour ∧ globalsTable ≠ data
  /-- All values are written as they are. -/
  plain : ∀ x, IsPlain ts (names.assigned x) ∧ IsPlain ts (names.given x) ∧ IsPlain ts (names.globals x)

namespace Layers

theorem mono (h : Layers ts scope behaviour data names) (hts : Extends ts ts') :
    Layers ts' scope behaviour data names where
  assigned := h.assigned.mono hts
  stands := h.stands.imp fun _ hf => ⟨hf.1.mono hts, hf.2⟩
  given := h.given.mono hts
  globals := h.globals.mono hts
  sealed := h.sealed.imp fun _ hf => ⟨hf.1.mono hts, hf.2⟩
  scope_apart := h.scope_apart
  globals_apart := h.globals_apart
  plain x := ⟨(h.plain x).1.mono hts, (h.plain x).2.1.mono hts, (h.plain x).2.2.mono hts⟩

/-- Variables are kept elsewhere. -/
theorem bind (h : Layers ts scope behaviour data names) (x : Bytes) (v : Value) :
    Layers ts scope behaviour data (names.bind x v) :=
  ⟨h.assigned, h.stands, h.given, h.globals, h.sealed, h.scope_apart, h.globals_apart, h.plain⟩

/-- What is written to the scope is what the script has assigned. -/
theorem assign (h : Layers ts scope behaviour data names) (hx : names.bound x = none)
    (hv : ∀ ts, IsPlain ts v) :
    Layers (ts.modify scope fun t => t.set (.string x) v) scope behaviour data (names.assign x v) := by
  have hassign : names.assign x v =
      { names with assigned := Function.update names.assigned x v } := by
    rw [Names.assign, hx]
    rfl
  obtain ⟨hbehaviour, hdata, hglobals, hsealed⟩ := h.scope_apart
  rw [hassign]
  refine ⟨h.assigned.set x v, h.stands.imp fun _ hf => ⟨hf.1.set_of_ne hbehaviour.symm x v, hf.2⟩,
    h.given.set_of_ne hdata.symm x v, h.globals.set_of_ne hglobals.symm x v,
    h.sealed.imp fun _ hf => ⟨hf.1.set_of_ne hsealed.symm x v, hf.2⟩, h.scope_apart,
    h.globals_apart, fun y => ⟨?_, (h.plain y).2.1.set _ x v, (h.plain y).2.2.set _ x v⟩⟩
  dsimp only
  rw [Function.update_apply]
  split
  · exact hv _
  · exact (h.plain y).1.set _ x v

/-- What is written to the table of the globals is a global. -/
theorem redefine (h : Layers ts scope behaviour data names) (x : Bytes) (hv : ∀ ts, IsPlain ts v) :
    Layers (ts.modify globalsTable fun t => t.set (.string x) v) scope behaviour data
      (names.redefine x v) := by
  obtain ⟨hbehaviour, hdata⟩ := h.globals_apart
  have hscope := h.scope_apart.2.2.1
  refine ⟨h.assigned.set_of_ne hscope x v,
    h.stands.imp fun _ hf => ⟨hf.1.set_of_ne hbehaviour.symm x v, hf.2⟩,
    h.given.set_of_ne hdata.symm x v, h.globals.set x v,
    h.sealed.imp fun _ hf => ⟨hf.1.set_of_ne (by decide) x v, hf.2⟩, h.scope_apart,
    h.globals_apart, fun y => ⟨(h.plain y).1.set _ x v, (h.plain y).2.1.set _ x v, ?_⟩⟩
  dsimp only [Names.redefine]
  rw [Function.update_apply]
  split
  · exact hv _
  · exact (h.plain y).2.2.set _ x v

theorem isPlain_shared (h : Layers ts scope behaviour data names) (x : Bytes) :
    IsPlain ts (names.shared x) := by
  have hor {v w : Value} (hv : IsPlain ts v) (hw : IsPlain ts w) : IsPlain ts (v.or w) := by
    cases v with
    | nil => exact hw
    | _ => exact hv
  exact hor (h.plain x).1 (hor (h.plain x).2.1 (h.plain x).2.2)

end Layers

/-! ### Reading through the tables -/

theorem gives_noBehaviour (h : Maps m.tables id none f) (name : String) :
    (Run.behaviour id name).Gives m .nil m := by
  obtain ⟨u, hu, hb, -⟩ := h
  refine (Run.gives_table hu).bind ?_
  rw [hb]
  exact Run.gives_pure _

theorem gives_behaviourMap (h : Maps m.tables id (some other) f) (hg : Maps m.tables other b g)
    (name : String) : (Run.behaviour id name).Gives m (g (bytesOf name)) m := by
  obtain ⟨u, hu, hb, -⟩ := h
  obtain ⟨w, hw, -, hget⟩ := hg
  rw [← hget]
  exact Run.gives_behaviour hu hb hw

/-- A table has a value under a name. -/
theorem gives_lookUpFound (h : Maps m.tables id b f) (hx : f x ≠ .nil) (site : Option Site) :
    (lookUp site (.table id) (.string x)).Gives m (.found (f x)) m := by
  obtain ⟨u, hu, -, hget⟩ := h
  exact gives_lookUp hu (hget x) hx

/-- A table has no value under a name. -/
theorem gives_lookUpMissing (h : Maps m.tables id b f) (hx : f x = .nil)
    (hbehaviour : (Run.behaviour id "__index").Gives m v m) (site : Option Site) :
    (lookUp site (.table id) (.string x)).Gives m (.missing v) m := by
  obtain ⟨u, hu, -, hget⟩ := h
  refine (Run.gives_table hu).bind ?_
  rw [hget, hx]
  exact hbehaviour.bind (Run.gives_pure _)

/-- A name is read from a table that nothing stands in for. -/
theorem ends_readMap (h : Maps m.tables id none f) (x : Bytes) (site : Option Site) :
    Ends (fun level => level.readField site (.table id) (.string x)) m fun w m' =>
      w = f x ∧ m' = m := by
  by_cases hx : f x = .nil
  · exact .step (gives_lookUpMissing h hx (gives_noBehaviour h _) site) (.pure ⟨hx.symm, rfl⟩)
  · exact .step (gives_lookUpFound h hx site) (.pure ⟨rfl, rfl⟩)

/-- The function that stands in for the scope looks a name up in the data and then in the globals. -/
theorem ends_lookUpLayers (h : Layers m.tables scope behaviour data names) (x : Bytes) (object : Value) :
    Ends (fun level => (Native.lookUp data globalsTable).run level.toCallbacks [object, .string x]) m
      fun vs m' => vs = [(names.given x).or (names.globals x)] ∧ m' = m := by
  have hindex {id : Nat} {f : Bytes → Value} (h : Maps m.tables id none f) :
      Ends (fun level => level.index (.table id) (.string x)) m fun w m' => w = f x ∧ m' = m :=
    .below (ends_readMap h x none) fun _ _ => rfl
  refine .bind (hindex h.given) ?_
  rintro w _ ⟨rfl, rfl⟩
  cases hx : names.given x with
  | nil =>
    refine .bind (hindex h.globals) ?_
    rintro _ _ ⟨rfl, rfl⟩
    exact .pure ⟨rfl, rfl⟩
  | _ => exact .pure ⟨rfl, rfl⟩

/-- **Layers.**  A name that is no variable has the value that was assigned to it, or that of the data, or
that of the globals. -/
theorem ends_readLayers (h : Layers m.tables scope behaviour data names) (x : Bytes)
    (hdepth : m.calls.depth < Run.maxDepth) (hnested : m.calls.nested < Run.maxNested)
    (site : Option Site) :
    Ends (fun level => level.readField site (.table scope) (.string x)) m fun w m' =>
      w = names.shared x ∧ m.Leads m.tree m' := by
  by_cases hx : names.assigned x = .nil
  · obtain ⟨f, hf, hindex⟩ := h.stands
    have hmissing := gives_lookUpMissing h.assigned hx (gives_behaviourMap h.assigned hf "__index") site
    rw [hindex] at hmissing
    refine ends_readMissing hmissing hdepth hnested fun calls => ?_
    rw [Names.shared, hx]
    exact ends_lookUpLayers (m := { m with calls := calls }) h x _
  · refine .step (gives_lookUpFound h.assigned hx site) (.pure ⟨?_, .refl m⟩)
    rw [Names.shared, Value.or_of_ne_nil hx]

/-- The value of a name that is no variable. -/
theorem ends_sharedName {env : Env} (h : Layers m.tables scope behaviour data names)
    (hglobals : m.Holds env globalsName (.table scope)) (hx : env.find? x = none)
    (hdepth : m.calls.depth < Run.maxDepth) (hnested : m.calls.nested < Run.maxNested) (line : Nat) :
    Ends (fun level => level.expr env (.name x line)) m fun w m' =>
      w = names.shared x ∧ m.Leads m.tree m' :=
  ends_globalName hx hglobals fun _ hm =>
    ends_readLayers (h.mono hm.tables) x (hm.depth ▸ hdepth) (hm.nested ▸ hnested) _

/-- The text of a value that is written as it is. -/
theorem ends_plainText (hv : IsPlain m.tables v)
    (hsealed : ∃ f, Maps m.tables sealedTable none f ∧ f (bytesOf "__tostring") = .nil) :
    Ends (fun level => level.runText v) m fun s m' => s = v.plainText ∧ m' = m := by
  cases v with
  | table id =>
    have hbehaviour : (Run.behaviour id "__tostring").Gives m .nil m := by
      obtain ⟨b, f, hf, rfl | rfl⟩ := hv id rfl
      · exact gives_noBehaviour hf _
      · obtain ⟨g, hg, hnil⟩ := hsealed
        exact hnil ▸ gives_behaviourMap hf hg "__tostring"
    exact .step hbehaviour (.pure ⟨rfl, rfl⟩)
  | _ => exact .pure ⟨rfl, rfl⟩

end Stencil.Script
