import Stencil.Proofs.Template.Opened
import Stencil.Proofs.Template.Rendered

/-!
# Rendering up to a return

A return in a statement ends the instructions of a template and nothing else: the text of the root block is
still given, as the instructions before the return leave it (`render_return`).  The return can stand in
choices and loops that are nested as deeply as one likes, as long as their conditions and headers leave the
blocks alone, and so does closing what the loops are given to close (`Enters`); whatever comes after the
return is not run.
-/

namespace Stencil.Template

-- powers as the core library has them, whatever else is imported
attribute [local instance (high)] instPowNat

open Script
open Stencil.Block (Tree)
open Stencil.Text (Bytes bytesOf)

/-! ### Programs without control flow -/

namespace Program

/-- Whether a program has no control flow. -/
def isStraight : Program → Bool
  | .done => true
  | .act _ rest | .emit _ rest => rest.isStraight
  | .choice .. | .branch .. | .loop .. => false

/-- What a program without control flow does, part by part. -/
def deeds : Program → List Deed
  | .act a rest => .act a :: rest.deeds
  | .emit x rest => .echo x :: rest.deeds
  | .done | .choice .. | .branch .. | .loop .. => []

variable {p : Program}

theorem instrs_deeds (h : p.isStraight) : p.deeds.map Deed.instr = p.flatten := by
  induction p with
  | done => rfl
  | act a rest ih => exact congrArg (a.instr :: ·) (ih h)
  | emit x rest ih => exact congrArg (.emit x :: ·) (ih h)
  | _ => cases h

theorem stats_deeds (h : p.isStraight) : p.deeds.map Deed.stat = p.tree := by
  induction p with
  | done => rfl
  | act a rest ih => exact congrArg (a.stat :: ·) (ih h)
  | emit x rest ih => exact congrArg (callStat "__append" [.name (bytesOf x) 0] :: ·) (ih h)
  | _ => cases h

theorem IsProper.deeds (hp : p.IsProper) : ∀ d ∈ p.deeds, d.IsProper := by
  induction p with
  | act a rest ih => exact List.forall_mem_cons.2 ⟨trivial, ih hp⟩
  | emit x rest ih => exact List.forall_mem_cons.2 ⟨hp.1, ih hp.2⟩
  | _ => exact fun d hd => absurd hd List.not_mem_nil

theorem deeds_declare_nothing (p : Program) : p.deeds.countP Deed.declares = 0 := by
  induction p with
  | act a rest ih => rwa [Program.deeds, List.countP_cons]
  | emit x rest ih => rwa [Program.deeds, List.countP_cons]
  | _ => rfl

end Program

/-! ### Running -/

/-- Every condition holds and every loop has a first turn, from the outermost construct to the innermost;
and once the innermost is left without writing anything, and the values that the loops are to close are
closed, from the innermost loop to the outermost, something is known of the machine. -/
def Enters : (Machine → Prop) → List Opening → Env → Machine → Prop
  | Q, [], _, m => ∀ m', m.Leads m.tree m' → Q m'
  | Q, .choice condition :: os, env, m => ∀ e : Expr, e.unlined = ownExpr condition →
      Ends (fun level => level.expr env e) m fun v m' => v.isTrue ∧ Enters Q os env m'
  | Q, .loop header :: os, env, m => ∀ (hd : Header) (line : Nat), hd.unlined = ownHeader header →
      hd.Enters env line m fun v env' m' => Enters (Closes v Q) os env' m'

theorem Encloses.ne_label {vs : List Expr} {os : List Opening} {s : Stat} (h : Encloses vs os s)
    (x : Bytes) : s ≠ .label x := by
  cases h with
  | loop header => cases ownHeader header <;> exact Stat.noConfusion
  | _ => exact Stat.noConfusion

variable {m m' : Machine} {env : Env} {b : Script.Block} {vs : List Expr} {os : List Opening}
  {Q : Machine → Prop}

/-- **Running.**  A return in constructs that are entered leaves the function around it. -/
theorem ends_enclosed {us : List Token} (hus : Returned us vs) {s s' : Stat} (h : Encloses vs os s')
    (hs : s.unlined = s') (henters : Enters Q os env m) :
    Ends (fun level => level.runStat env s) m (Returns Q) := by
  -- from the outermost construct to the innermost, each in the machine in which it is entered; inside a
  -- loop, what is known of the machine is known once the value of the loop is closed too
  induction h generalizing Q s env m with
  | here =>
    exact (ends_returnBlock hus hs).mono fun _ m' ⟨vs, hexit, hm⟩ => ⟨vs, hexit, henters m' hm⟩
  | choice condition h rest other ih =>
    obtain ⟨e, b, c, rfl, he, hb, -⟩ := eq_if_of_unlined hs
    obtain ⟨s, b, rfl, hs, -⟩ := eq_cons_of_unlined hb
    refine ends_ifReturns (Ends.mono (henters e he) fun v m' ⟨hv, hinside⟩ => ⟨hv, ?_⟩)
    exact .returns (ne_label_of_unlined hs h.ne_label) (ih hs hinside)
  | loop header h rest ih =>
    obtain ⟨hd, b, line, rfl, hhd, hb⟩ := eq_loop_of_unlined hs
    obtain ⟨s, b, rfl, hs, -⟩ := eq_cons_of_unlined hb
    refine ends_loopReturns (Header.Enters.mono (henters hd line hhd) fun v env' m' hinside => ?_)
    exact .returns (ne_label_of_unlined hs h.ne_label) (ih hs hinside)

/-! ### Rendering -/

/-- Rendering has come to a block tree in the instructions of a chunk. -/
def Reaches (origin : Option String) (data options : Data.Value) (t : Tree) (env : Env) (m : Machine) :
    Prop :=
  ∃ w scope base, Loads (Procedure.scriptName origin) data options w scope base ∧
    Called base scope w 2 m env ∧ m.tree = t

theorem parse_script {origin : Option String} {chunk : String}
    (h : Procedure.parse origin chunk = .ok b) :
    Procedure.checkName origin = .ok () ∧ Script.parse (bytesOf chunk) = .ok b := by
  rw [Procedure.parse] at h
  cases horigin : Procedure.checkName origin with
  | error e =>
    rw [horigin] at h
    cases h
  | ok _ =>
    rw [horigin] at h
    cases hparse : Script.parse (bytesOf chunk) with
    | error e =>
      simp only [hparse] at h
      cases h
    | ok b' =>
      simp only [hparse] at h
      cases h
      exact ⟨rfl, rfl⟩

/-- Wherever a chunk calls them, statements that return after those of a program leave the blocks as the
program leaves them. -/
theorem leavesBody_returns {p : Program} (hp : p.IsProper) {names : String → Scalar} {base : Machine}
    {scope : Nat} {table : Table} {options : Value} {es : List (String × Data.Value)}
    (hscopes : base.Scopes scope table) (hcarries : table.Carries es)
    (hnames : ∀ x ∈ p.free, es.lookup x = some (names x).data) {us : List Token} (hus : Returned us vs)
    {s : Stat} {rest : Script.Block} (hb : Stat.allUnlined b = p.tree ++ s :: rest)
    (h : Encloses vs os s)
    (henters : ∀ env m, Called base scope options 2 m env → m.tree = p.run names rootTree →
      Enters (Leaves env m.tree) os env m) :
    LeavesBody base scope options b (p.run names rootTree) := by
  intro env m hcalled htree
  refine walks_before hp hcalled.toReady
    (named_data hp hcalled.toSurrounds (hcalled.scopes hscopes) hcarries hnames) hb ?_
  intro b' m' hb' hm
  rw [htree] at hm
  obtain ⟨s', b', rfl, hs', -⟩ := eq_cons_of_unlined hb'
  have hentered := henters env m' (hcalled.leads hm) hm.tree
  rw [hm.tree] at hentered
  refine (Walks.returns (ne_label_of_unlined hs' h.ne_label) (ends_enclosed hus h hs' hentered)).mono ?_
  rintro exit m'' ⟨vs, hexit, hleaves⟩
  exact ⟨.inr ⟨vs, hexit⟩, hleaves⟩

/-- Data and options are loaded in one way. -/
theorem Loads.scopes {name : Bytes} {data options : Data.Value} {w : Value} {scope : Nat}
    {es : List (String × Data.Value)} (h : Loads name data options w scope m)
    (hes : entries? data = some es) : ∃ table : Table, m.Scopes scope table ∧ table.Carries es := by
  obtain ⟨d, m₁, m₂, hdata, hoptions, hscope⟩ := h
  obtain ⟨d', w', scope', table, m₁', m₂', m', hdata', hoptions', hscope', -, hscopes, hcarries⟩ :=
    gives_scope hes options (Machine.start name)
  obtain ⟨rfl, rfl⟩ : w = w' ∧ m₁ = m₁' := by simpa using hoptions.symm.trans hoptions'
  obtain ⟨rfl, rfl⟩ : d = d' ∧ m₂ = m₂' := by simpa using hdata.symm.trans hdata'
  obtain ⟨rfl, rfl⟩ : scope = scope' ∧ m = m' := by simpa using hscope.symm.trans hscope'
  exact ⟨table, hscopes, hcarries⟩

/-- A name of the data has its value there. -/
theorem Reaches.finds {origin : Option String} {es : List (String × Data.Value)} {options : Data.Value}
    {t : Tree} (h : Reaches origin (.map es) options t env m) {x : String} (hx : IsIdentifier x)
    {v : Scalar} (hv : es.lookup x = some v.data) : m.Finds env (bytesOf x) v.value := by
  obtain ⟨w, scope, base, hloads, hcalled, -⟩ := h
  obtain ⟨table, hscopes, hcarries⟩ := hloads.scopes rfl
  have hp : (Program.emit x .done).IsProper := ⟨hx, trivial⟩
  have hnamed : Named (.emit x .done) env (fun _ => v) m :=
    named_data hp hcalled.toSurrounds (hcalled.scopes hscopes) hcarries fun y hy => by
      rw [List.mem_singleton.1 hy, hv]
  exact hnamed x (List.mem_singleton_self x)

/-- A choice on a name is entered if its value holds. -/
theorem enters_name {x : String} (hx : IsIdentifier x) {v : Scalar} (h : Ready m env)
    (hfinds : m.Finds env (bytesOf x) v.value) (hholds : v.holds)
    (hinside : ∀ m', m.Leads m.tree m' → Enters Q os env m') : Enters Q (.choice x :: os) env m := by
  intro e he
  rw [ownExpr_identifier hx] at he
  obtain ⟨line, rfl⟩ := Expr.eq_name_of_unlined he
  have hdepth := h.depth
  refine (ends_name hfinds (by omega) h.nested line).mono ?_
  rintro _ m' ⟨rfl, hm⟩
  exact ⟨v.isTrue_value.trans hholds, hinside m' hm⟩

/-- A loop over integers is entered if there is one. -/
theorem enters_integers {x : String} {first last : Int} (hx : IsIdentifier x)
    (hfirst : first.natAbs < 2 ^ (63 : Nat)) (hlast : last.natAbs < 2 ^ (63 : Nat)) (hle : first ≤ last)
    (hinside : ∀ m', m.Leads m.tree m' → Enters Q os (env.declare [(bytesOf x, m'.cells.size)])
      (m'.push (.number (.int (Int64.ofInt first))))) :
    Enters Q (.loop (loopHeader x first last) :: os) env m := by
  intro hd line hhd
  obtain ⟨hd', hown, hheader⟩ := (alone_header hx hfirst hlast).2
  rw [ownHeader, hown, Option.getD_some, hheader] at hhd
  cases hd with
  | numeric y start stop step =>
    rw [Header.unlined, Header.numeric.injEq] at hhd
    obtain ⟨rfl, hstart, hstop, hstep⟩ := hhd
    cases step with
    | some e => cases hstep
    | none =>
      refine (ends_integerRange (isInteger_of_unlined hstart) (isInteger_of_unlined hstop) hfirst hlast
        env line m).mono ?_
      rintro _ m' ⟨rfl, hm⟩
      exact ⟨_, (Range.ofInts_of_le hle).1, hinside m' hm⟩
  | generic names values line => cases hhd

theorem exists_of_isOk {ε α : Type} {x : Except ε α} (h : x.isOk) : ∃ a, x = .ok a := by
  cases x with
  | ok a => exact ⟨a, rfl⟩
  | error e => cases h

end Stencil.Template
