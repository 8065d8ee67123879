import Stencil.Proofs.Script.Assignments
import Stencil.Proofs.Template.Listed

/-!
# Templates that assign to names

A template without control flow, as a list of deeds: texts and blocks, echoes of names, assignments of
literals to names, and local variables.  The chunk of such a template is always a script, up to the limit
on local variables, and the body of its function has one statement for each deed (`parse_deeds`).
-/

namespace Stencil.Template

open Script
open Stencil.Text (Bytes bytesOf bytesOf_append)

/-- What a part of a template does. -/
inductive Deed where
  /-- An operation on the block tree that reads no name. -/
  | act (a : Act)
  /-- Writes what a name stands for. -/
  | echo (x : String)
  /-- Assigns a literal to a name. -/
  | assign (x : String) (v : Literal)
  /-- Declares a local variable. -/
  | declare (x : String) (v : Literal)
  /-- Assigns a literal to the global `tostring`. -/
  | redefine (v : Literal)

namespace Deed

/-- The instruction of a deed. -/
def instr : Deed → Instr
  | act a => a.instr
  | echo x => .emit x
  | assign x v => .exec (x ++ " = " ++ v.text)
  | declare x v => .exec ("local " ++ x ++ " = " ++ v.text)
  | redefine v => .exec ("_G.tostring" ++ " = " ++ v.text)

/-- The names of a deed can be used by a template. -/
def IsProper : Deed → Prop
  | echo x | assign x _ | declare x _ => IsIdentifier x
  | act _ | redefine _ => True

instance : (d : Deed) → Decidable d.IsProper
  | echo _ | assign _ _ | declare _ _ => inferInstanceAs (Decidable (IsIdentifier _))
  | act _ | redefine _ => inferInstanceAs (Decidable True)

/-- Whether a deed declares a variable. -/
def declares : Deed → Bool
  | declare _ _ => true
  | _ => false

/-- The statement of a deed, without lines. -/
def stat : Deed → Stat
  | act a => a.stat
  | echo x => callStat "__append" [.name (bytesOf x) 0]
  | assign x v => .assign [.name (bytesOf x) 0] [v.constant.expr] 0
  | declare x v => .local [(bytesOf x, .plain)] [v.constant.expr] 0
  | redefine v =>
    .assign [.index (.name (bytesOf "_G") 0) (.string (bytesOf "tostring")) 0] [v.constant.expr] 0

/-- What a deed says about names. -/
def mentions : Deed → List Mention
  | assign x _ => [.assign (bytesOf x)]
  | declare x _ => [.declare (bytesOf x) .plain, .activate 1]
  | act _ | echo _ | redefine _ => []

/-- The tokens of a deed. -/
def tokens : Deed → List Token
  | act a => a.instr.tokens
  | echo x => callTokens "__append" [.name (bytesOf x)]
  | assign x v => .name (bytesOf x) :: .mark .assign :: lineTokens (bytesOf v.text)
  | declare x v =>
    .word .local :: .name (bytesOf x) :: .mark .assign :: lineTokens (bytesOf v.text)
  | redefine v =>
    .name (bytesOf "_G") :: .mark .dot :: .name (bytesOf "tostring") :: .mark .assign ::
      lineTokens (bytesOf v.text)

end Deed

/-! ### Tokens -/

/-- An assignment of a literal as a line of its own. -/
theorem lineTokens_assignment {target : String} {us : List Token}
    (htarget : ∀ t, Spells (bytesOf target) us (byte ' ' :: t)) (v : Literal) :
    IsLine (bytesOf (target ++ " = " ++ v.text)) ∧
      lineTokens (bytesOf (target ++ " = " ++ v.text)) =
        us ++ .mark .assign :: lineTokens (bytesOf v.text) := by
  have hbytes : bytesOf (target ++ " = " ++ v.text) ++ [byte '\n'] = bytesOf target ++
      (bytesOf " " ++ (bytesOf "=" ++ (bytesOf " " ++ (bytesOf v.text ++ [byte '\n'])))) := by
    simp only [bytesOf_append, List.append_assoc]
    rfl
  have hvalue : Spells (bytesOf v.text ++ [byte '\n']) (lineTokens (bytesOf v.text)) [] :=
    spells_line v.isLine
  refine lineTokens_eq ?_
  rw [hbytes]
  exact .append (htarget _) (.space (.append spells_assign hvalue.space))

theorem spells_identifier {x : String} (hx : IsIdentifier x) {t : Bytes} :
    Spells (bytesOf x) [.name (bytesOf x)] (byte ' ' :: t) := by
  rw [← nameToken_eq hx]
  exact .nameLike hx.1 rfl

/-- The instruction of a deed has the tokens of the deed. -/
theorem Deed.tokens_instr {d : Deed} (hd : d.IsProper) : d.instr.IsLexed ∧ d.instr.tokens = d.tokens := by
  cases d with
  | act a => cases a <;> exact ⟨trivial, rfl⟩
  | echo x =>
    have hspells : Spells (bytesOf x ++ [byte '\n']) [.name (bytesOf x)] [] := by
      rw [← nameToken_eq hd]
      exact .append (.nameLike hd.1 rfl) (.lineBreak (by decide))
    obtain ⟨hline, htokens⟩ := lineTokens_eq hspells
    exact ⟨hline, by rw [instr, Instr.tokens, htokens]; rfl⟩
  | assign x v => exact lineTokens_assignment (fun _ => spells_identifier hd) v
  | declare x v =>
    have htarget (t : Bytes) :
        Spells (bytesOf ("local " ++ x)) [.word .local, .name (bytesOf x)] (byte ' ' :: t) := by
      have hbytes : bytesOf ("local " ++ x) = bytesOf "local" ++ (bytesOf " " ++ bytesOf x) := by
        rw [bytesOf_append]
        rfl
      rw [hbytes]
      exact .append (.nameLike (by decide) rfl) (spells_identifier hd).space
    exact lineTokens_assignment htarget v
  | redefine v =>
    have htarget (t : Bytes) : Spells (bytesOf "_G.tostring")
        [.name (bytesOf "_G"), .mark .dot, .name (bytesOf "tostring")] (byte ' ' :: t) := by
      have hbytes : bytesOf "_G.tostring" = bytesOf "_G" ++ (bytesOf "." ++ bytesOf "tostring") := rfl
      have hdot : Spells (bytesOf ".") [.mark .dot] (bytesOf "tostring" ++ byte ' ' :: t) :=
        .of_token (s := []) fun _ => rfl
      rw [hbytes]
      exact .append (.nameLike (by decide) rfl) (.append hdot (.nameLike (by decide) rfl))
    exact lineTokens_assignment htarget v

/-- The instructions of deeds have the tokens of the deeds. -/
theorem tokens_deeds {ds : List Deed} (hds : ∀ d ∈ ds, d.IsProper) :
    (ds.map Deed.instr).flatMap Instr.tokens = ds.flatMap Deed.tokens := by
  rw [List.flatMap_map, List.flatMap_def, List.flatMap_def]
  exact congrArg List.flatten (List.map_congr_left fun d hd => (Deed.tokens_instr (hds d hd)).2)

theorem isLexed_deeds {ds : List Deed} (hds : ∀ d ∈ ds, d.IsProper) :
    ∀ i ∈ ds.map Deed.instr, i.IsLexed := by
  rw [List.forall_mem_map]
  exact fun d hd => (Deed.tokens_instr (hds d hd)).1

/-- A deed starts with a token that begins anew. -/
theorem Deed.tokens_head (d : Deed) : ∃ t ts, d.tokens = t :: ts ∧ t.begins := by
  cases d with
  | act a => cases a <;> exact ⟨_, _, rfl, rfl⟩
  | _ => exact ⟨_, _, rfl, rfl⟩

/-! ### Reading -/

section

variable {bad : Refusal → Prop} {turns depth : Nat} {r : Reader}

theorem Token.begins_apart {t : Token} (ht : t.begins) :
    Parse.valid t ∧ t ≠ .mark .comma ∧ binaryOp? t = none := by
  cases t with
  | name x => exact ⟨rfl, Token.noConfusion, rfl⟩
  | word w =>
    refine ⟨rfl, Token.noConfusion, ?_⟩
    cases w with
    | and => cases ht
    | or => cases ht
    | _ => rfl
  | _ => cases ht

/-- What the grammar does with the tokens of a statement: it reads the statement, notes down what the
statement says about names, and goes on with what comes after it. -/
def ReadsStat (bad : Refusal → Prop) (turns depth : Nat) (tokens : List Token) (stat : Stat)
    (ms : List Mention) : Prop :=
  ∀ ⦃n : Nat⦄ ⦃r : Reader⦄ ⦃t : Token⦄ ⦃ts : List Token⦄ ⦃done : Script.Block⦄
    ⦃Q : Script.Block → Reader → List Mention → Prop⦄,
    r.tokens = tokens ++ t :: ts → t.begins → r.tokens.length < turns → r.tokens.length < n →
    (∀ n done' s, s.tokens = t :: ts → s.tokens.length < n →
      Stat.allUnlined done' = stat :: Stat.allUnlined done →
      Reads bad ((Script.Level.at turns (depth + 3)).statsFrom n done') s
        fun b s' ms' => Q b s' (ms ++ ms')) →
    Reads bad ((Script.Level.at turns (depth + 3)).statsFrom n done) r Q

/-- A call. -/
theorem readsStat_call {f : String} {args : List Token} {G : List Expr → List Mention → Prop}
    (hargs : AreArguments bad args G) {es₀ : List Expr}
    (hG : ∀ es ms, G es ms → Expr.allUnlined es = es₀ ∧ ms = []) :
    ReadsStat bad turns depth (callTokens f args) (callStat f es₀) [] := by
  intro n r t ts done Q h ht hturns hn hrest
  have hlength := congrArg List.length h
  rw [callTokens, List.length_append, List.length_cons, List.length_cons, List.length_append] at hlength
  simp only [List.length_cons, List.length_nil] at hlength
  obtain ⟨n, rfl⟩ : ∃ m, n = m + 2 := ⟨n - 2, by omega⟩
  refine reads_callTurns (fun hlow => absurd hlow (by omega)) hargs h (Token.begins_apart ht).1 hturns ?_
  intro es line line' ms s hs hes
  obtain ⟨hunlined, rfl⟩ := hG es ms hes
  have hlength' := congrArg List.length hs
  rw [List.length_cons] at hlength'
  refine hrest n _ s hs (by omega) ?_
  rw [Stat.allUnlined, Stat.unlined, Expr.unlined, hunlined]
  rfl

/-- A statement of one line. -/
theorem readsStat_line {u : Token} {us : List Token} {stat : Stat} {ms : List Mention}
    (hends : u.endsBlock = false) (hreturn : u ≠ .word .return)
    (hstat : ∀ {r : Reader} {t : Token} {ts : List Token}, r.tokens = u :: (us ++ t :: ts) → t.begins →
      0 < turns → Reads bad (Script.Level.at turns (depth + 2)).readStat r fun ss s ms' =>
        s.tokens = t :: ts ∧ Stat.allUnlined ss = [stat] ∧ ms' = ms) :
    ReadsStat bad turns depth (u :: us) stat ms := by
  intro n r t ts done Q h ht hturns hn hrest
  have hlength := congrArg List.length h
  simp only [List.length_cons, List.length_append] at hlength
  obtain ⟨n, rfl⟩ : ∃ m, n = m + 1 := ⟨n - 1, by omega⟩
  refine reads_turn (S := fun ss s ms' => s.tokens = t :: ts ∧ Stat.allUnlined ss = [stat] ∧ ms' = ms)
    h hends hreturn (hstat h ht (by omega)) ?_
  rintro ss s _ ⟨hs, hss, rfl⟩
  have hlength' := congrArg List.length hs
  rw [List.length_cons] at hlength'
  refine hrest n _ s hs (by omega) ?_
  rw [Stat.allUnlined_append, Stat.allUnlined_reverse, hss]
  rfl

/-- A name as the only argument of a call. -/
theorem areArguments_name (x : Bytes) :
    AreArguments bad [.name x] fun es ms => Expr.allUnlined es = [.name x 0] ∧ ms = [] := by
  intro turns depth r k ts h hk _ hroom
  refine (reads_oneArgument (G := fun e ms => (∃ line, e = .name x line) ∧ ms = []) hk h
    ⟨rfl, Token.noConfusion⟩ fun s hs => reads_anyExpr hroom fun below _ =>
      reads_name (.inl rfl) hs).mono (fun _ => id) ?_
  rintro args s _ ⟨hs, e, line, hargs, ⟨line', rfl⟩, rfl⟩
  exact ⟨hs, by rw [hargs]; rfl, rfl⟩

/-- The literal at the end of a statement. -/
theorem reads_literal (v : Literal) {t : Token} {ts : List Token} (ht : t.begins)
    (h : r.tokens = lineTokens (bytesOf v.text) ++ t :: ts) :
    Reads bad (Script.Level.at turns (depth + 2)).anyExpr r fun e s ms =>
      s.tokens = t :: ts ∧ e.unlined = v.constant.expr ∧ ms = [] :=
  have ⟨hvalid, _, hop⟩ := Token.begins_apart ht
  reads_constant v.tokens h hvalid hop

/-- **Deeds.**  The grammar reads the tokens of a deed as its statement. -/
theorem readsStat_deed {d : Deed} (hd : d.IsProper) :
    ReadsStat bad turns depth d.tokens d.stat d.mentions := by
  cases d with
  | act a =>
    cases a with
    | raw text => exact readsStat_call (areArguments_quoted text) fun es ms h => ⟨by rw [h.1]; rfl, h.2⟩
    | trim => exact readsStat_call areArguments_nil fun es ms h => ⟨by rw [h.1]; rfl, h.2⟩
    | openBlock name =>
      exact readsStat_call (areArguments_quoted name) fun es ms h => ⟨by rw [h.1]; rfl, h.2⟩
    | closeBlock => exact readsStat_call areArguments_nil fun es ms h => ⟨by rw [h.1]; rfl, h.2⟩
  | echo x => exact readsStat_call (areArguments_name (bytesOf x)) fun es ms h => h
  | assign x v =>
    refine readsStat_line rfl Token.noConfusion fun {r t ts} h ht _ => .nextLine fun _ => .peek h ?_
    obtain ⟨u, us, hu, hvalid⟩ := Constant.tokens_head v.tokens (t :: ts)
    rw [List.cons_append, hu] at h
    exact reads_assignStat rfl (reads_nameTarget h) hvalid
      (fun s hs => reads_literal v ht (hs.trans hu.symm)) (Token.begins_apart ht).2.1
  | declare x v =>
    refine readsStat_line rfl (by decide) fun {r t ts} h ht _ => .nextLine fun _ => .peek h ?_
    obtain ⟨u, us, hu, hvalid⟩ := Constant.tokens_head v.tokens (t :: ts)
    rw [List.cons_append, List.cons_append, hu] at h
    refine .advance h rfl fun s hs => .skip_false hs Token.noConfusion ?_
    have hs : s.tokens = .name (bytesOf x) :: (([] : List Bytes).flatMap (fun y =>
      [Token.mark .comma, .name y]) ++ .mark .assign :: u :: us) := hs
    refine (reads_localStat (G := fun e ms => e.unlined = v.constant.expr ∧ ms = []) ?_
      (Token.begins_apart ht).2.1 hs hvalid fun s hs => reads_literal v ht (hs.trans hu.symm)).mono
        (fun _ => id) ?_
    · rw [Level.at_turns]
      assumption
    · rintro ss s ms ⟨hs, e, line, line', _, ⟨he, rfl⟩, rfl, rfl⟩
      refine ⟨hs, ?_, rfl⟩
      simp [Stat.allUnlined, Stat.unlined, Expr.allUnlined, he, Deed.stat]
  | redefine v =>
    refine readsStat_line rfl Token.noConfusion fun {r t ts} h ht hturns =>
      .nextLine fun _ => .peek h ?_
    obtain ⟨u, us, hu, hvalid⟩ := Constant.tokens_head v.tokens (t :: ts)
    rw [List.cons_append, List.cons_append, List.cons_append, hu] at h
    exact reads_assignStat rfl (reads_fieldTarget (by rwa [Level.at_turns]) h) hvalid
      (fun s hs => reads_literal v ht (hs.trans hu.symm)) (Token.begins_apart ht).2.1

variable {ds : List Deed}

/-- The tokens of deeds start with one that begins anew, if what comes after them does. -/
theorem deeds_head (ds : List Deed) {t : Token} (ht : t.begins) (ts : List Token) :
    ∃ u us, ds.flatMap Deed.tokens ++ t :: ts = u :: us ∧ u.begins := by
  cases ds with
  | nil => exact ⟨t, ts, rfl, ht⟩
  | cons d ds =>
    obtain ⟨u, us, hu, hbegins⟩ := d.tokens_head
    exact ⟨u, _, by rw [List.flatMap_cons, hu]; rfl, hbegins⟩

/-- The grammar reads deeds as their statements, and goes on with what comes after them. -/
theorem reads_deeds (hds : ∀ d ∈ ds, d.IsProper) {n : Nat} {t : Token} {ts : List Token}
    {done : Script.Block} {Q : Script.Block → Reader → List Mention → Prop}
    (hr : r.tokens = ds.flatMap Deed.tokens ++ t :: ts) (ht : t.begins) (hturns : r.tokens.length < turns)
    (hn : r.tokens.length < n)
    (hrest : ∀ n done' s, s.tokens = t :: ts → s.tokens.length < n →
      (Stat.allUnlined done').reverse = (Stat.allUnlined done).reverse ++ ds.map Deed.stat →
      Reads bad ((Script.Level.at turns (depth + 3)).statsFrom n done') s
        fun b s' ms => Q b s' (ds.flatMap Deed.mentions ++ ms)) :
    Reads bad ((Script.Level.at turns (depth + 3)).statsFrom n done) r Q := by
  induction ds generalizing r n done Q with
  | nil => exact hrest n done r hr hn (by rw [List.map_nil, List.append_nil])
  | cons d ds ih =>
    obtain ⟨hd, hds⟩ := List.forall_mem_cons.1 hds
    obtain ⟨u, us, hu, hbegins⟩ := deeds_head ds ht ts
    rw [List.flatMap_cons, List.append_assoc, hu] at hr
    refine readsStat_deed hd hr hbegins hturns hn fun n done' s hs hn hdone' => ?_
    have hlength := congrArg List.length hr
    have hlength' := congrArg List.length hs
    rw [List.length_append] at hlength
    refine ih hds (hs.trans hu.symm) (by omega) hn fun n done'' s hs hn hdone'' => ?_
    refine (hrest n done'' s hs hn ?_).mono (fun _ => id) fun b s' ms hQ => ?_
    · rw [hdone'', hdone']
      simp
    · rwa [List.flatMap_cons, List.append_assoc] at hQ

/-- The grammar reads deeds as their statements, up to the end of the function that holds them. -/
theorem readsBody_deeds (hds : ∀ d ∈ ds, d.IsProper) :
    ReadsBody bad turns (depth + 3) (ds.flatMap Deed.tokens) fun b ms =>
      Stat.allUnlined b = ds.map Deed.stat ∧ ms = ds.flatMap Deed.mentions := by
  intro r hr hturns
  rw [Script.Level.stats, Script.Level.at_turns]
  refine reads_deeds hds hr rfl hturns hturns fun n done s hs _ hdone =>
    reads_blockEnd hs rfl ⟨hs, ?_, List.append_nil _⟩
  rw [Stat.allUnlined_reverse, hdone]
  rfl

end

/-! ### Scopes -/

/-- An assignment is allowed where no variable is constant. -/
theorem step_assign {f : Scope.Frame} {fs : Scope.Frames} (hplain : ∀ g ∈ f :: fs, g.Plain) (x : Bytes) :
    Scope.step (f :: fs) (.assign x) = .ok (f :: fs) := by
  simp only [Scope.step]
  cases hfind : (f :: fs).findSome? fun g => g.find? x with
  | none => rfl
  | some v =>
    obtain ⟨g, hg, hv⟩ := List.exists_of_findSome?_eq_some hfind
    simp [(hplain g hg).find? hv]

/-- A variable comes into scope if there is room for it. -/
theorem run_declare {f : Scope.Frame} {fs : Scope.Frames} (hpending : f.pending = [])
    (hroom : f.active.length < maxLocals) (x : Bytes) (ms : List Mention) :
    Scope.run (f :: fs) (.declare x .plain :: .activate 1 :: ms) =
      Scope.run ({ f with active := ⟨x, .plain⟩ :: f.active } :: fs) ms := by
  have hdeclare : Scope.step (f :: fs) (.declare x .plain) = .ok ({ f with pending := [⟨x, .plain⟩] } :: fs) := by
    simp only [Scope.step, hpending]
    rw [if_neg (by simpa using hroom)]
    rfl
  rw [Scope.run_cons, hdeclare]
  have hactivate : Scope.step ({ f with pending := [⟨x, .plain⟩] } :: fs) (.activate 1) =
      .ok ({ f with active := ⟨x, .plain⟩ :: f.active, pending := [] } :: fs) := rfl
  change Scope.run _ _ = _
  rw [Scope.run_cons, hactivate, ← hpending]
  rfl

/-- **Variables.**  Deeds break no rule on names in a function without constants, as long as there is room
for the variables that they declare. -/
theorem run_deeds (ds : List Deed) {f : Scope.Frame} {fs : Scope.Frames} (hplain : ∀ g ∈ f :: fs, g.Plain)
    (hpending : f.pending = []) (hroom : f.active.length + ds.countP Deed.declares ≤ maxLocals) :
    ∃ f' : Scope.Frame, f'.levels = f.levels ∧
      Scope.run (f :: fs) (ds.flatMap Deed.mentions) = .ok (f' :: fs) := by
  induction ds generalizing f with
  | nil => exact ⟨f, rfl, rfl⟩
  | cons d ds ih =>
    rw [List.countP_cons] at hroom
    rw [List.flatMap_cons]
    cases d with
    | assign x v =>
      have hassign : Scope.run (f :: fs) ((Deed.assign x v).mentions ++ ds.flatMap Deed.mentions) =
          Scope.run (f :: fs) (ds.flatMap Deed.mentions) := by
        rw [Deed.mentions, List.singleton_append, Scope.run_cons, step_assign hplain]
        rfl
      rw [hassign]
      exact ih hplain hpending hroom
    | declare x v =>
      rw [Deed.declares, if_pos rfl] at hroom
      rw [Deed.mentions, List.cons_append, List.singleton_append, run_declare hpending (by omega)]
      refine ih (f := { f with active := ⟨bytesOf x, .plain⟩ :: f.active }) ?_ hpending ?_
      · rw [List.forall_mem_cons] at hplain ⊢
        refine ⟨fun v hv => ?_, hplain.2⟩
        rw [List.cons_append, List.mem_cons] at hv
        rcases hv with rfl | hv
        · rfl
        · exact hplain.1 v hv
      · rw [List.length_cons]
        omega
    | act a => exact ih hplain hpending hroom
    | echo x => exact ih hplain hpending hroom
    | redefine v => exact ih hplain hpending hroom

/-- What deeds mention breaks no rule in the body of a chunk. -/
theorem run_bodyMentions {ds : List Deed} (hroom : ds.countP Deed.declares ≤ maxLocals) (line : Nat) :
    Scope.run Scope.main (preambleMentions ++
      (functionMentions line (ds.flatMap Deed.mentions) ++ [.closeFunction])) = .ok [] := by
  -- the variables of the chunk, with `__body` as the latest of them
  let locals : List Scope.Variable :=
    ((bytesOf "__append" :: otherLocals) ++ [bytesOf "__body"]).reverse.map fun x => ⟨x, .plain⟩
  let outer : Scope.Frame := { line := 0, vararg := true, active := locals }
  let inner : Scope.Frame := { line := line, vararg := false }
  have hstart (ms : List Mention) : Scope.run Scope.main
      (preambleMentions ++ (functionMentions line ms ++ [.closeFunction])) =
        Scope.run [inner, outer] (ms ++ [.closeFunction] ++ [.closeFunction]) := rfl
  have hlocals : ∀ v ∈ locals, v.kind = .plain := List.forall_mem_map.2 fun _ _ => rfl
  have hplain : ∀ g ∈ [inner, outer], g.Plain := by
    simpa [Scope.Frame.Plain, inner, outer] using hlocals
  obtain ⟨f, hlevels, hrun⟩ := run_deeds ds hplain rfl (by simpa [inner] using hroom)
  have hclose : Scope.step [f, outer] .closeFunction = .ok [outer] := by
    simp only [Scope.step, Scope.Frame.openJump?, hlevels]
    rfl
  rw [hstart, List.append_assoc, Scope.run_append, hrun]
  change Scope.run [f, outer] (.closeFunction :: [.closeFunction]) = _
  rw [Scope.run_cons, hclose]
  rfl

/-- The chunk of deeds is a script with one statement for each of them, as long as there is room for the
variables that they declare. -/
theorem parse_deeds {ds : List Deed} (hds : ∀ d ∈ ds, d.IsProper)
    (hroom : ds.countP Deed.declares ≤ maxLocals) :
    ∃ b, Script.parse (bytesOf (chunk (ds.map Deed.instr))) = .ok b ∧
      Stat.allUnlined b = chunkTree (ds.map Deed.stat) := by
  have htokens := tokens_deeds hds
  obtain ⟨u, us, hu, hbegins⟩ := deeds_head ds (t := .word .end) rfl closingTokens
  have hbody (turns : Nat) : ReadsBody (fun _ => False) turns 198 ((ds.map Deed.instr).flatMap Instr.tokens)
      fun b ms => Stat.allUnlined b = ds.map Deed.stat ∧ ms = ds.flatMap Deed.mentions :=
    htokens ▸ readsBody_deeds hds
  rcases readScript_of_lexed (isLexed_deeds hds) ⟨u, us, htokens ▸ hu, (Token.begins_apart hbegins).1⟩ hbody with
    ⟨b, hb, body, line, _, ⟨hbody, rfl⟩, htree, hmentions⟩ | ⟨_, _, hfalse⟩
  · refine ⟨b, parse_ok_iff.2 ⟨hb, ?_⟩, by rw [htree, hbody]⟩
    have hcheck := Scope.checkFrom_eq Scope.main (readScript (lex (bytesOf (chunk (ds.map Deed.instr))))).2
    rw [hmentions, run_bodyMentions hroom] at hcheck
    exact Option.map_eq_none_iff.1 hcheck
  · exact hfalse.elim

end Stencil.Template
