import Stencil.Proofs.Script.Loaded
import Stencil.Proofs.Template.Deeds
import Stencil.Proofs.Template.Rendered

/-!
# What the names of a template stand for

A template reads a name through a local variable if there is one, and else through what it has assigned, the
data and the globals.  While the statements of some deeds run, the variables and the tables of the machine
hold what the names stand for after the deeds so far (`Resolves`, `Resolves.ends_deed`).  So rendering writes
for every echo the value that its name has at that place (`render_deeds`), and nothing that a template can
assign changes how values are written.
-/

namespace Stencil.Template

open Script
open Stencil.Block (Tree)
open Stencil.Text (Bytes bytesOf)

/-! ### What deeds do -/

namespace Deed

/-- What names stand for after a deed. -/
def after (names : Names) : Deed → Names
  | assign x v => names.assign (bytesOf x) v.value
  | declare x v => names.bind (bytesOf x) v.value
  | redefine v => names.redefine (bytesOf "tostring") v.value
  | act _ | echo _ => names

/-- What a deed does to the blocks: a name is written as the text of its value. -/
def apply (names : Names) (t : Tree) : Deed → Tree
  | act a => a.run t
  | echo x => t.append (Text.stringLossy (names.value (bytesOf x)).plainText)
  | assign _ _ | declare _ _ | redefine _ => t

/-- What deeds do to the blocks, one after the other. -/
def run : List Deed → Names → Tree → Tree
  | [], _, t => t
  | d :: ds, names, t => run ds (d.after names) (d.apply names t)

/-- What deeds write in the root block. -/
def output (ds : List Deed) (names : Names) : String := (run ds names rootTree).renderRoot

/-- Whether a deed needs the table of the globals. -/
def needsGlobals : Deed → Bool
  | redefine _ => true
  | _ => false

/-- The name `_G` stands for the table of the globals wherever deeds need it. -/
def ReachesGlobals : List Deed → Names → Prop
  | [], _ => True
  | d :: ds, names =>
    (d.needsGlobals → names.value (bytesOf "_G") = .table globalsTable) ∧
      ReachesGlobals ds (d.after names)

/-! ### What came before -/

/-- What names stand for after deeds. -/
def allAfter (ds : List Deed) (names : Names) : Names := ds.foldl after names

/-- The value that a deed assigns to a name. -/
def assigned? (x : String) : Deed → Option Value
  | assign y v => if y = x then some v.value else none
  | _ => none

/-- The value that deeds assigned last to a name, or `nil`. -/
def lastAssigned (ds : List Deed) (x : String) : Value := ((ds.filterMap (assigned? x)).getLast?).getD .nil

theorem run_append (ds ds' : List Deed) (names : Names) (t : Tree) :
    run (ds ++ ds') names t = run ds' (allAfter ds names) (run ds names t) := by
  induction ds generalizing names t with
  | nil => rfl
  | cons d ds ih => exact ih _ _

theorem lastAssigned_concat (ds : List Deed) (d : Deed) (x : String) :
    lastAssigned (ds ++ [d]) x = (d.assigned? x).getD (lastAssigned ds x) := by
  rw [lastAssigned, List.filterMap_append, List.getLast?_append]
  cases h : d.assigned? x <;> simp [h, lastAssigned]

/-- What one deed does to a name that is no variable. -/
theorem after_of_shared {d : Deed} {x : String} {names : Names} (hdeclare : ∀ v, d ≠ declare x v)
    (hx : x ≠ "tostring") (hnone : names.bound (bytesOf x) = none) :
    (d.after names).bound (bytesOf x) = none ∧
      (d.after names).assigned (bytesOf x) = (d.assigned? x).getD (names.assigned (bytesOf x)) ∧
      (d.after names).given = names.given ∧
      (d.after names).globals (bytesOf x) = names.globals (bytesOf x) := by
  have hbytes {y : String} (hy : y ≠ x) : bytesOf x ≠ bytesOf y := fun h => hy (Text.bytesOf_injective h).symm
  cases d with
  | act a => exact ⟨hnone, rfl, rfl, rfl⟩
  | echo y => exact ⟨hnone, rfl, rfl, rfl⟩
  | redefine v => exact ⟨hnone, rfl, rfl, Function.update_of_ne (hbytes hx.symm) ..⟩
  | declare y v =>
    have hy : y ≠ x := fun h => hdeclare v (h ▸ rfl)
    exact ⟨(Function.update_of_ne (hbytes hy) ..).trans hnone, rfl, rfl, rfl⟩
  | assign y v =>
    by_cases hy : y = x
    · subst hy
      simp [after, Names.assign, assigned?, hnone]
    · rw [after, Names.assign, assigned?, if_neg hy]
      split
      · exact ⟨(Function.update_of_ne (hbytes hy) ..).trans hnone, rfl, rfl, rfl⟩
      · exact ⟨hnone, Function.update_of_ne (hbytes hy) .., rfl, rfl⟩

/-- A name that no deed declares stands for what was assigned to it last, unless that is `nil`, and else for
what it stood for at first. -/
theorem value_allAfter {ds : List Deed} {x : String} (hdeclare : ∀ v, declare x v ∉ ds)
    (hx : x ≠ "tostring") (given : Bytes → Value) :
    (allAfter ds (.start given)).value (bytesOf x) =
      (lastAssigned ds x).or ((Names.start given).value (bytesOf x)) := by
  have hall : (allAfter ds (.start given)).bound (bytesOf x) = none ∧
      (allAfter ds (.start given)).assigned (bytesOf x) = lastAssigned ds x ∧
      (allAfter ds (.start given)).given = given ∧
      (allAfter ds (.start given)).globals (bytesOf x) = (Names.start given).globals (bytesOf x) := by
    induction ds using List.reverseRecOn with
    | nil => exact ⟨rfl, rfl, rfl, rfl⟩
    | append_singleton ds d ih =>
      obtain ⟨hbound, hassigned, hgiven, hglobals⟩ :=
        ih fun v hv => hdeclare v (List.mem_append_left _ hv)
      obtain ⟨h₁, h₂, h₃, h₄⟩ := after_of_shared (d := d)
        (fun v hd => hdeclare v (hd ▸ List.mem_append_right _ List.mem_cons_self)) hx hbound
      have hlast : allAfter (ds ++ [d]) (.start given) = d.after (allAfter ds (.start given)) := by
        rw [allAfter, List.foldl_append]
        rfl
      rw [hlast, lastAssigned_concat]
      exact ⟨h₁, by rw [h₂, hassigned], h₃.trans hgiven, h₄.trans hglobals⟩
  obtain ⟨hbound, hassigned, hgiven, hglobals⟩ := hall
  rw [Names.value, hbound, Option.getD_none, Names.shared, hassigned, hgiven, hglobals]
  rfl

/-- What an echo writes after some deeds, if they do not declare its name. -/
theorem run_echo {ds : List Deed} {x : String} (hdeclare : ∀ v, declare x v ∉ ds) (hx : x ≠ "tostring")
    (given : Bytes → Value) (t : Tree) :
    run (ds ++ [echo x]) (.start given) t = (run ds (.start given) t).append (Text.stringLossy
      ((lastAssigned ds x).or ((Names.start given).value (bytesOf x))).plainText) := by
  rw [run_append, ← value_allAfter hdeclare hx]
  rfl

/-- The name `_G` stands for the table of the globals as long as no deed assigns to it or declares it. -/
theorem reachesGlobals {ds : List Deed} {names : Names}
    (hdeeds : ∀ v, assign "_G" v ∉ ds ∧ declare "_G" v ∉ ds) (hnone : names.bound (bytesOf "_G") = none)
    (hshared : names.shared (bytesOf "_G") = .table globalsTable) : ReachesGlobals ds names := by
  induction ds generalizing names with
  | nil => trivial
  | cons d ds ih =>
    have hvalue : names.value (bytesOf "_G") = .table globalsTable := by
      rw [Names.value, hnone]
      exact hshared
    obtain ⟨hbound, hassigned, hgiven, hglobals⟩ := after_of_shared (d := d) (x := "_G")
      (fun v hd => (hdeeds v).2 (hd ▸ List.mem_cons_self)) (by decide) hnone
    refine ⟨fun _ => hvalue, ih (fun v => (hdeeds v).imp (mt (List.mem_cons_of_mem _))
      (mt (List.mem_cons_of_mem _))) hbound ?_⟩
    have hother : d.assigned? "_G" = none := by
      cases d with
      | assign y v =>
        refine if_neg ?_
        rintro rfl
        exact (hdeeds v).1 List.mem_cons_self
      | _ => rfl
    rwa [Names.shared, hassigned, hgiven, hglobals, hother]

end Deed

/-! ### The machine -/

variable {m m' outer : Machine} {env around : Env} {scope : Nat} {names : Names} {t : Tree}

/-- The variables and the tables of a machine hold what names stand for, in a function that was called by
some other machine. -/
structure Resolves (outer : Machine) (around : Env) (scope : Nat) (names : Names) (env : Env)
    (m : Machine) : Prop where
  /-- What surrounded the function when it was called. -/
  surrounds : Surrounds outer around scope
  /-- What there was then is still there. -/
  keeps : outer.Keeps m.tree m
  /-- No variable hides the names that are kept from templates. -/
  kept : ∀ y ∈ reserved, env.find? (bytesOf y) = around.find? (bytesOf y)
  /-- A variable has a cell that is new since then, and the cell holds its value. -/
  found : ∀ x id, IsIdentifier x → env.find? (bytesOf x) = some id → outer.cells.size ≤ id ∧
    ∃ c : Constant, names.bound (bytesOf x) = some c.value ∧ m.cells[id]? = some c.value
  /-- There are no other variables. -/
  missing : ∀ x, IsIdentifier x → env.find? (bytesOf x) = none → names.bound (bytesOf x) = none
  /-- No two variables share a cell. -/
  apart : ∀ x y id, IsIdentifier x → IsIdentifier y → env.find? (bytesOf x) = some id →
    env.find? (bytesOf y) = some id → x = y
  /-- The tables. -/
  layers : ∃ behaviour data, Layers m.tables scope behaviour data names

namespace Resolves

/-- At first there are no variables. -/
theorem start {given : Bytes → Value} {behaviour data : Nat} (h : Surrounds m env scope)
    (hlayers : Layers m.tables scope behaviour data (.start given)) :
    Resolves m env scope (.start given) env m where
  surrounds := h
  keeps := (Machine.Leads.refl m).keeps
  kept _ _ := rfl
  found x id hx hid := absurd ((h.free x hx).symm.trans hid) (Option.some_ne_none id).symm
  missing _ _ _ := rfl
  apart x _ id hx _ hid _ := absurd ((h.free x hx).symm.trans hid) (Option.some_ne_none id).symm
  layers := ⟨behaviour, data, hlayers⟩

/-- What is found under the names that are kept from templates. -/
theorem holds (h : Resolves outer around scope names env m) {y : String} {v : Value} (hy : y ∈ reserved)
    (hv : outer.Holds around (bytesOf y) v) : m.Holds env (bytesOf y) v := by
  obtain ⟨id, hid, hv⟩ := hv
  exact ⟨id, (h.kept y hy).trans hid, h.keeps.cells _ _ hv⟩

theorem ready (h : Resolves outer around scope names env m) : Ready m env where
  tools f hf := h.holds (tools_reserved f hf) (h.surrounds.tools f hf)
  depth := h.keeps.depth ▸ h.surrounds.depth
  nested := h.keeps.nested ▸ h.surrounds.nested

theorem globals (h : Resolves outer around scope names env m) : m.Holds env globalsName (.table scope) :=
  h.holds (y := "_ENV") (by decide) h.surrounds.globals

/-- The machine goes on without an assignment. -/
theorem leads (h : Resolves outer around scope names env m) (hm : m.Leads t m') :
    Resolves outer around scope names env m' where
  surrounds := h.surrounds
  keeps := hm.tree.symm ▸ h.keeps.trans hm.keeps
  kept := h.kept
  found x id hx hid := by
    obtain ⟨hfresh, c, hc, hcell⟩ := h.found x id hx hid
    exact ⟨hfresh, c, hc, hm.cells _ _ hcell⟩
  missing := h.missing
  apart := h.apart
  layers := by
    obtain ⟨behaviour, data, hlayers⟩ := h.layers
    exact ⟨behaviour, data, hlayers.mono hm.tables⟩

/-- A value is written to a table. -/
theorem write (h : Resolves outer around scope names env m) {id : Nat} {x : Bytes} {v : Value}
    {names' : Names} (hbound : names'.bound = names.bound)
    (hlayers : ∀ behaviour data, Layers m.tables scope behaviour data names →
      Layers (m.write id x v).tables scope behaviour data names') :
    Resolves outer around scope names' env (m.write id x v) where
  surrounds := h.surrounds
  keeps := ⟨h.keeps.cells, h.keeps.functions, h.keeps.depth, h.keeps.nested, h.keeps.strings, rfl⟩
  kept := h.kept
  found := hbound ▸ h.found
  missing := hbound ▸ h.missing
  apart := h.apart
  layers := by
    obtain ⟨behaviour, data, h⟩ := h.layers
    exact ⟨behaviour, data, hlayers behaviour data h⟩

/-- A name that is no variable gets a value. -/
theorem assignShared (h : Resolves outer around scope names env m) {x : String} (hx : IsIdentifier x)
    (hnone : env.find? (bytesOf x) = none) (c : Constant) :
    Resolves outer around scope (names.assign (bytesOf x) c.value) env
      (m.write scope (bytesOf x) c.value) := by
  have hmissing := h.missing x hx hnone
  refine h.write ?_ fun behaviour data hlayers => hlayers.assign hmissing c.isPlain
  rw [Names.assign, hmissing]
  rfl

/-- A variable gets a value. -/
theorem assignVariable (h : Resolves outer around scope names env m) {x : String} {id : Nat}
    (hx : IsIdentifier x) (hid : env.find? (bytesOf x) = some id) (c : Constant) :
    Resolves outer around scope (names.assign (bytesOf x) c.value) env (m.put id c.value) := by
  obtain ⟨hfresh, old, hold, hcell⟩ := h.found x id hx hid
  have hassign : names.assign (bytesOf x) c.value = names.bind (bytesOf x) c.value := by
    rw [Names.assign, hold]
    rfl
  rw [hassign]
  refine {
    surrounds := h.surrounds
    keeps := ⟨?older, h.keeps.functions, h.keeps.depth, h.keeps.nested, h.keeps.strings, rfl⟩
    kept := h.kept
    found := ?found
    missing := ?missing
    apart := h.apart
    layers := ?layers }
  case older =>
    -- the cells of the functions around this one are older than its own
    intro k v hv
    have hk : k < outer.cells.size := (Array.getElem?_eq_some_iff.1 hv).1
    change (m.cells.setIfInBounds id c.value)[k]? = some v
    rw [Array.getElem?_setIfInBounds_ne (by omega)]
    exact h.keeps.cells k v hv
  case found =>
    intro y k hy hk
    by_cases hyx : y = x
    · subst hyx
      obtain rfl : k = id := Option.some.inj (hk.symm.trans hid)
      refine ⟨hfresh, c, Function.update_self .., ?_⟩
      exact Array.getElem?_setIfInBounds_self_of_lt (Array.getElem?_eq_some_iff.1 hcell).1
    · have hne : id ≠ k := by
        rintro rfl
        exact hyx (h.apart y x id hy hx hk hid)
      obtain ⟨hfresh', c', hc', hcell'⟩ := h.found y k hy hk
      refine ⟨hfresh', c', ?_, ?_⟩
      · exact (Function.update_of_ne (fun heq => hyx (Text.bytesOf_injective heq)) ..).trans hc'
      · exact (Array.getElem?_setIfInBounds_ne hne).trans hcell'
  case missing =>
    intro y hy hnone
    have hyx : bytesOf y ≠ bytesOf x := by
      intro heq
      rw [heq, hid] at hnone
      cases hnone
    exact (Function.update_of_ne hyx ..).trans (h.missing y hy hnone)
  case layers =>
    obtain ⟨behaviour, data, hlayers⟩ := h.layers
    exact ⟨behaviour, data, hlayers.bind _ _⟩

/-- What is found after a declaration. -/
theorem find?_declare {x y : Bytes} {id k : Nat} (h : (env.declare [(x, id)]).find? y = some k) :
    y = x ∧ k = id ∨ y ≠ x ∧ env.find? y = some k := by
  by_cases hyx : y = x
  · subst hyx
    exact .inl ⟨rfl, Option.some.inj (h.symm.trans Env.find?_declare)⟩
  · exact .inr ⟨hyx, (Env.find?_declare_of_ne hyx).symm.trans h⟩

/-- A new variable. -/
theorem declare (h : Resolves outer around scope names env m) {x : String} (hx : IsIdentifier x)
    (c : Constant) :
    Resolves outer around scope (names.bind (bytesOf x) c.value)
      (env.declare [(bytesOf x, m.cells.size)]) (m.push c.value) := by
  have hm := m.leads_push c.value
  refine {
    surrounds := h.surrounds
    keeps := hm.tree.symm ▸ h.keeps.trans hm.keeps
    kept := ?kept
    found := ?found
    missing := ?missing
    apart := ?apart
    layers := ?layers }
  case kept =>
    intro y hy
    exact (Env.find?_declare_of_ne (bytesOf_ne hx.2.2 hy)).trans (h.kept y hy)
  case found =>
    intro y k hy hk
    rcases find?_declare hk with ⟨hyx, rfl⟩ | ⟨hyx, hk⟩
    · rw [hyx]
      exact ⟨h.keeps.size_le, c, Function.update_self .., Array.getElem?_push_size⟩
    · obtain ⟨hfresh, c', hc', hcell⟩ := h.found y k hy hk
      exact ⟨hfresh, c', (Function.update_of_ne hyx ..).trans hc', hm.cells _ _ hcell⟩
  case missing =>
    intro y hy hnone
    have hyx : bytesOf y ≠ bytesOf x := by
      intro heq
      rw [heq, Env.find?_declare] at hnone
      cases hnone
    rw [Env.find?_declare_of_ne hyx] at hnone
    exact (Function.update_of_ne hyx ..).trans (h.missing y hy hnone)
  case apart =>
    intro y z k hy hz hky hkz
    -- an older variable does not have the new cell
    have hold {u : String} (hu : IsIdentifier u) (hk : env.find? (bytesOf u) = some k) :
        k ≠ m.cells.size := by
      obtain ⟨-, c', -, hcell⟩ := h.found u k hu hk
      exact Nat.ne_of_lt (Array.getElem?_eq_some_iff.1 hcell).1
    rcases find?_declare hky with ⟨hyx, hkm⟩ | ⟨-, hky⟩
    · rcases find?_declare hkz with ⟨hzx, -⟩ | ⟨-, hkz⟩
      · exact Text.bytesOf_injective (hyx.trans hzx.symm)
      · exact absurd hkm (hold hz hkz)
    · rcases find?_declare hkz with ⟨-, hkm⟩ | ⟨-, hkz⟩
      · exact absurd hkm (hold hy hky)
      · exact h.apart y z k hy hz hky hkz
  case layers =>
    obtain ⟨behaviour, data, hlayers⟩ := h.layers
    exact ⟨behaviour, data, (hlayers.mono hm.tables).bind _ _⟩

/-- A name stands for the value of its variable, or there is no variable and the tables have its value. -/
theorem value_cases (h : Resolves outer around scope names env m) {x : String} (hx : IsIdentifier x) :
    (∃ id, ∃ c : Constant, env.find? (bytesOf x) = some id ∧ m.cells[id]? = some c.value ∧
      names.value (bytesOf x) = c.value) ∨
    env.find? (bytesOf x) = none ∧ names.value (bytesOf x) = names.shared (bytesOf x) := by
  cases hid : env.find? (bytesOf x) with
  | some id =>
    obtain ⟨-, c, hc, hcell⟩ := h.found x id hx hid
    exact .inl ⟨id, c, rfl, hcell, by rw [Names.value, hc, Option.getD_some]⟩
  | none => exact .inr ⟨rfl, by rw [Names.value, h.missing x hx hid, Option.getD_none]⟩

/-- **Reading.**  A name is read as what it stands for. -/
theorem ends_read (h : Resolves outer around scope names env m) {x : String} (hx : IsIdentifier x)
    (line : Nat) : Ends (fun level => level.expr env (.name (bytesOf x) line)) m fun w m' =>
      w = names.value (bytesOf x) ∧ m.Leads m.tree m' := by
  have hdepth := h.ready.depth
  rcases h.value_cases hx with ⟨id, c, hid, hcell, hvalue⟩ | ⟨hnone, hvalue⟩
  · rw [hvalue]
    exact ends_name (.inl ⟨id, hid, hcell⟩) (by omega) h.ready.nested line
  · rw [hvalue]
    obtain ⟨behaviour, data, hlayers⟩ := h.layers
    exact ends_sharedName hlayers h.globals hnone (by omega) h.ready.nested line

/-- What a name stands for is written as it is. -/
theorem isPlain_value (h : Resolves outer around scope names env m) {x : String} (hx : IsIdentifier x) :
    IsPlain m.tables (names.value (bytesOf x)) := by
  rcases h.value_cases hx with ⟨id, c, -, -, hvalue⟩ | ⟨-, hvalue⟩
  · rw [hvalue]
    exact c.isPlain _
  · rw [hvalue]
    obtain ⟨behaviour, data, hlayers⟩ := h.layers
    exact hlayers.isPlain_shared _

/-- A name that stands for a table is no variable. -/
theorem find?_of_table (h : Resolves outer around scope names env m) {x : String} {id : Nat}
    (hx : IsIdentifier x) (hvalue : names.value (bytesOf x) = .table id) :
    env.find? (bytesOf x) = none := by
  rcases h.value_cases hx with ⟨-, c, -, -, hc⟩ | ⟨hnone, -⟩
  · exact absurd (hc.symm.trans hvalue) (c.value_ne_table id)
  · exact hnone

end Resolves

/-! ### Statements -/

variable {s : Stat} {b : Script.Block}

theorem eq_assign_of_unlined {target value : Expr} (h : s.unlined = .assign [target] [value] 0) :
    ∃ target' value' line, s = .assign [target'] [value'] line ∧ target'.unlined = target ∧
      value'.unlined = value := by
  cases s with
  | assign targets values line =>
    rw [Stat.unlined, Stat.assign.injEq, Expr.allUnlined_eq, Expr.allUnlined_eq, List.map_eq_singleton_iff,
      List.map_eq_singleton_iff] at h
    obtain ⟨⟨target', rfl, htarget⟩, ⟨value', rfl, hvalue⟩, -⟩ := h
    exact ⟨target', value', line, rfl, htarget, hvalue⟩
  | _ => cases h

theorem eq_local_of_unlined {x : Bytes} {value : Expr} (h : s.unlined = .local [(x, .plain)] [value] 0) :
    ∃ value' line, s = .local [(x, .plain)] [value'] line ∧ value'.unlined = value := by
  cases s with
  | «local» names values line =>
    rw [Stat.unlined, Stat.local.injEq, Expr.allUnlined_eq, List.map_eq_singleton_iff] at h
    obtain ⟨rfl, ⟨value', rfl, hvalue⟩, -⟩ := h
    exact ⟨value', line, rfl, hvalue⟩
  | _ => cases h

theorem eq_index_of_unlined {e : Expr} {g f : Bytes}
    (h : e.unlined = .index (.name g 0) (.string f) 0) :
    ∃ line line', e = .index (.name g line) (.string f) line' := by
  cases e with
  | index object key line' =>
    rw [Expr.unlined, Expr.index.injEq] at h
    obtain ⟨hobject, hkey, -⟩ := h
    obtain ⟨line, rfl⟩ := Expr.eq_name_of_unlined hobject
    cases key with
    | string s =>
      obtain rfl : s = f := Expr.string.inj hkey
      exact ⟨line, line', rfl⟩
    | _ => cases hkey
  | _ => cases h

/-- The statement that writes what a name stands for.  Values are written by a function of the host, so
nothing that a name stands for has a part in it. -/
theorem Resolves.ends_echo (h : Resolves outer around scope names env m) {x : String}
    (hx : IsIdentifier x) (hs : s.unlined = callStat "__append" [.name (bytesOf x) 0]) :
    Ends (fun level => level.runStat env s) m fun exit m' => exit = .next env ∧
      m.Leads (m.tree.append (Text.stringLossy (names.value (bytesOf x)).plainText)) m' := by
  refine ends_tool (f := ("__append", .append)) (by decide) h.ready hs
    (fun args hargs m' hm => ends_nameExpr hargs ((h.leads hm).ends_read hx)) fun m' calls hm hdepth => ?_
  have h' := h.leads hm
  obtain ⟨behaviour, data, hlayers⟩ := h'.layers
  rw [← hm.tree]
  exact ends_appendText (m := { m' with calls := calls }) hdepth fun calls =>
    ends_plainText (m := { m' with calls := calls }) (h'.isPlain_value hx) hlayers.sealed

/-- **Deeds.**  After the statement of a deed the machine holds what names stand for then, and the blocks are
as the deed leaves them. -/
theorem Resolves.ends_deed (h : Resolves outer around scope names env m) {d : Deed} (hd : d.IsProper)
    (hglobals : d.needsGlobals → names.value (bytesOf "_G") = .table globalsTable)
    (hs : s.unlined = d.stat) :
    Ends (fun level => level.runStat env s) m fun exit m' => ∃ env', exit = .next env' ∧
      m'.tree = d.apply names m.tree ∧ Resolves outer around scope (d.after names) env' m' := by
  have hnext {t : Tree} (hs : Ends (fun level => level.runStat env s) m fun exit m' =>
      exit = .next env ∧ m.Leads t m') : Ends (fun level => level.runStat env s) m fun exit m' =>
        ∃ env', exit = .next env' ∧ m'.tree = t ∧ Resolves outer around scope names env' m' :=
    hs.mono fun _ _ ⟨hexit, hm⟩ => ⟨env, hexit, hm.tree, h.leads hm⟩
  cases d with
  | act a => exact hnext (ends_act a h.ready hs)
  | echo x => exact hnext (h.ends_echo hd hs)
  | assign x v =>
    obtain ⟨target, value, line, rfl, htarget, hvalue⟩ := eq_assign_of_unlined hs
    obtain ⟨line', rfl⟩ := Expr.eq_name_of_unlined htarget
    cases hid : env.find? (bytesOf x) with
    | some id =>
      refine (ends_assignVariable hid hvalue).mono ?_
      rintro _ _ ⟨rfl, m₁, hm, rfl⟩
      exact ⟨env, rfl, hm.tree, (h.leads hm).assignVariable hd hid v.constant⟩
    | none =>
      refine (ends_assignShared hid h.globals hvalue).mono ?_
      rintro _ _ ⟨rfl, m₁, hm, rfl⟩
      exact ⟨env, rfl, hm.tree, (h.leads hm).assignShared hd hid v.constant⟩
  | declare x v =>
    obtain ⟨value, line, rfl, hvalue⟩ := eq_local_of_unlined hs
    refine (ends_declareStat hvalue).mono ?_
    rintro _ _ ⟨m₁, rfl, hm, rfl⟩
    exact ⟨_, rfl, hm.tree, (h.leads hm).declare hd v.constant⟩
  | redefine v =>
    obtain ⟨target, value, line, rfl, htarget, hvalue⟩ := eq_assign_of_unlined hs
    obtain ⟨line', line'', rfl⟩ := eq_index_of_unlined htarget
    have hG : IsIdentifier "_G" := by decide
    have hread := h.ends_read hG line'
    rw [hglobals rfl] at hread
    -- no variable has the name, so the function itself has none
    have hnone := h.find?_of_table hG (hglobals rfl)
    have hown : env.own.lookup (bytesOf "_G") = none := by
      rw [Env.find?, Option.or_eq_none_iff] at hnone
      exact hnone.1
    refine (ends_assignField hown hread hvalue).mono ?_
    rintro _ _ ⟨rfl, m₁, hm, rfl⟩
    exact ⟨env, rfl, hm.tree, (h.leads hm).write rfl fun behaviour data hlayers =>
      hlayers.redefine _ v.constant.isPlain⟩

/-- **Runs.**  The statements of some deeds leave the blocks as the deeds do. -/
theorem walks_deeds {ds : List Deed} (hds : ∀ d ∈ ds, d.IsProper)
    (hglobals : Deed.ReachesGlobals ds names) (h : Resolves outer around scope names env m)
    (hb : Stat.allUnlined b = ds.map Deed.stat) :
    Walks env b m fun exit m' =>
      (∃ env', exit = .next env') ∧ outer.Keeps (Deed.run ds names m.tree) m' := by
  induction ds generalizing names env m b with
  | nil =>
    rw [eq_nil_of_unlined hb]
    exact .nil ⟨⟨env, rfl⟩, h.keeps⟩
  | cons d ds ih =>
    obtain ⟨hd, hds⟩ := List.forall_mem_cons.1 hds
    obtain ⟨s, b, rfl, hs, hrest⟩ := eq_cons_of_unlined hb
    have hlabel (x : Bytes) : d.stat ≠ .label x := by
      cases d with
      | act a => cases a <;> exact Stat.noConfusion
      | _ => exact Stat.noConfusion
    refine .cons (ne_label_of_unlined hs hlabel) ((h.ends_deed hd hglobals.1 hs).mono ?_)
    rintro _ m' ⟨env', rfl, htree, h'⟩
    have hrun := ih hds hglobals.2 h' hrest
    rw [htree] at hrun
    exact .inl ⟨env', rfl, hrun⟩

/-! ### Rendering -/

/-- Deeds that give a name of the data another value, take it back, change a global and hide the name. -/
def shadowing : List Deed :=
  [.echo "x", .assign "x" ⟨"5", .number (.int 5), by decide +kernel⟩, .echo "x",
    .assign "x" ⟨"nil", .nil, by decide +kernel⟩, .echo "x",
    .redefine ⟨"1", .number (.int 1), by decide +kernel⟩, .echo "tostring",
    .declare "x" ⟨"'a'", .text (bytesOf "a"), by decide +kernel⟩, .echo "x"]

/-- A template with such deeds. -/
def shadowingSource : String :=
  "\x7b\x7b x \x7d\x7d\x7b$ x = 5 $\x7d\x7b\x7b x \x7d\x7d\x7b$ x = nil $\x7d\x7b\x7b x \x7d\x7d" ++
    "\x7b$ _G.tostring = 1 $\x7d\x7b\x7b tostring \x7d\x7d\x7b$ local x = 'a' $\x7d\x7b\x7b x \x7d\x7d"

/-- What such deeds write if the name is `false` in the data. -/
theorem output_shadowing {given : Bytes → Value} (hx : given (bytesOf "x") = .bool false)
    (ht : given (bytesOf "tostring") = .string (bytesOf "t")) :
    Deed.output shadowing (.start given) = "false5falseta" := by
  have houtput : Deed.output shadowing (.start given) =
      (((((rootTree.append (Text.stringLossy (Value.bool false).plainText)).append
        (Text.stringLossy (Value.number (.int 5)).plainText)).append
        (Text.stringLossy (Value.bool false).plainText)).append
        (Text.stringLossy (Value.string (bytesOf "t")).plainText)).append
        (Text.stringLossy (Value.string (bytesOf "a")).plainText)).renderRoot := by
    simp [shadowing, Deed.output, Deed.run, Deed.after, Deed.apply, Names.value, Names.assign, Names.bind,
      Names.redefine, Names.shared, Names.start, hx, ht, Function.update_apply, Literal.value,
      Constant.value, Value.or]
  rw [houtput]
  decide +kernel

end Stencil.Template
