import Stencil.Proofs.Script.Paired
import Stencil.Proofs.Script.Returns
import Stencil.Proofs.Template.Deeds

/-!
# Returns inside control flow

A chunk that returns in a statement of its template, by itself or as the first instruction of choices and
loops that stand inside each other.  Whatever comes after the return, nothing of it can end the function
around the instructions before its time, because every construct that starts in it ends in it
(`Balanced.paired`).  So the statements of the function are those before the return, the choices and loops
with the return in them, and others (`parse_returns`).
-/

namespace Stencil.Template

open Script
open Stencil.Text (Bytes bytesOf bytesOf_append)

/-! ### Constructs of instructions -/

/-- Whether the text of an instruction is complete by itself: one expression, one header of a loop, or one
block. -/
def Instr.isOwn : Instr → Bool
  | .exec stmt => (closedBlock? stmt).isSome
  | i => i.isComplete

theorem Instr.isLexed_of_isOwn {i : Instr} (h : i.isOwn) : i.IsLexed := by
  cases i with
  | exec stmt =>
    obtain ⟨b, hb⟩ := Option.isSome_iff_exists.1 h
    exact (closedBlock?_paired hb).1
  | _ => exact isLexed_of_isComplete h

/-- A call opens and closes nothing that its arguments do not. -/
theorem paired_call (f : String) {args : List Token} (h : Paired args) : Paired (callTokens f args) := by
  rw [callTokens]
  exact .plain rfl rfl (.plain rfl rfl (h.append rfl))

/-- An instruction opens and closes as many constructs as it starts and ends control flow. -/
def Instr.IsPaired (i : Instr) : Prop :=
  ∀ ⦃stack stack' : List Construct⦄, nest stack i = some stack' →
    openAfter stack.length i.tokens = some stack'.length

theorem Instr.isPaired_of_paired {i : Instr} (hi : i.isPlain) (h : Paired i.tokens) : i.IsPaired := by
  intro stack stack' hnest
  have hstack : nest stack i = some stack := by
    cases i with
    | start => cases hi
    | otherwise => cases hi
    | finish => cases hi
    | _ => rfl
  rw [h.openAfter, Option.some.inj (hstack.symm.trans hnest)]

theorem Instr.isPaired_of_isOwn {i : Instr} (hi : i.isOwn) : i.IsPaired := by
  have hown {text : String} (h : (ownExpr? text).isSome) : Paired (lineTokens (bytesOf text)) := by
    obtain ⟨e, he⟩ := Option.isSome_iff_exists.1 h
    exact (ownExpr?_paired he).2
  -- a condition opens nothing, and the word before it or after it opens the construct
  have hcondition {text : String} (h : (ownExpr? text).isSome) (w : Word) (n : Nat) :
      openAfter n (.mark .openParen :: (lineTokens (bytesOf text) ++ [.mark .closeParen, .word w])) =
        openAfter n [.word w] := by
    rw [openAfter_plain rfl rfl, openAfter_append, (hown h).openAfter, Option.bind_some,
      openAfter_plain rfl rfl]
  match i, hi with
  | .raw text, _ => exact isPaired_of_paired rfl (paired_call _ rfl)
  | .emit text, hi => exact isPaired_of_paired rfl (paired_call _ (hown hi))
  | .exec stmt, hi =>
    obtain ⟨b, hb⟩ := Option.isSome_iff_exists.1 hi
    exact isPaired_of_paired rfl (closedBlock?_paired hb).2
  | .openBlock name, _ => exact isPaired_of_paired rfl (paired_call _ rfl)
  | .closeBlock, _ => exact isPaired_of_paired rfl (paired_call _ rfl)
  | .trim, _ => exact isPaired_of_paired rfl (paired_call _ rfl)
  | .start .ifTag text, hi =>
    rintro stack _ ⟨⟩
    rw [Instr.tokens, conditionTokens, openAfter_starts rfl, hcondition hi]
    rfl
  | .start .whileTag text, hi =>
    rintro stack _ ⟨⟩
    rw [Instr.tokens, conditionTokens, openAfter_plain rfl rfl, hcondition hi]
    rfl
  | .start .forTag text, hi =>
    rintro stack _ ⟨⟩
    obtain ⟨hd, hhd⟩ := Option.isSome_iff_exists.1 hi
    rw [Instr.tokens, openAfter_plain rfl rfl, openAfter_append, (ownHeader?_paired hhd).2.openAfter]
    rfl
  | .otherwise, _ =>
    rintro (_ | ⟨_ | _, rest⟩) _ ⟨⟩
    rfl
  | .finish, _ =>
    rintro (_ | ⟨_, rest⟩) _ ⟨⟩
    rfl

/-- Instructions open and close as many constructs as they start and end control flow. -/
theorem openAfter_nestAll {stack stack' : List Construct} {is : List Instr} (his : ∀ i ∈ is, i.IsPaired)
    (h : nestAll stack is = some stack') :
    openAfter stack.length (is.flatMap Instr.tokens) = some stack'.length := by
  -- the constructs that are open are those on the stack of the control flow
  induction is generalizing stack with
  | nil =>
    obtain rfl := Option.some.inj h
    rfl
  | cons i is ih =>
    rw [nestAll_cons, Option.bind_eq_some_iff] at h
    obtain ⟨stack₁, hi, hrest⟩ := h
    obtain ⟨hpaired, his⟩ := List.forall_mem_cons.1 his
    rw [List.flatMap_cons, openAfter_append, hpaired hi]
    exact ih his hrest

/-- **Constructs.**  In balanced instructions whose texts are complete by themselves, every construct that
starts ends, and no other one does. -/
theorem Balanced.paired {is : List Instr} (h : Balanced is) (his : ∀ i ∈ is, i.IsPaired) :
    Paired (is.flatMap Instr.tokens) :=
  openAfter_nestAll his (balanced_iff.1 h)

/-- A constant opens and closes nothing. -/
theorem paired_constant {c : Constant} {us : List Token} (hu : Constant.ofTokens? us = some c) :
    Paired us := by
  rcases Constant.ofTokens?_cases hu with ⟨u, rfl, hu⟩ | ⟨n, spelled, rfl, -⟩
  · cases u with
    | word w => cases w <;> first | rfl | cases hu
    | number n spelled => rfl
    | string s spelled => rfl
    | _ => cases hu
  · rfl

theorem Deed.isPaired {d : Deed} (hd : d.IsProper) : d.instr.IsPaired := by
  have hplain : d.instr.isPlain := by
    cases d with
    | act a => cases a <;> rfl
    | _ => rfl
  have hvalue (v : Literal) : Paired (lineTokens (bytesOf v.text)) := paired_constant v.tokens
  refine Instr.isPaired_of_paired hplain ((tokens_instr hd).2 ▸ ?_)
  cases d with
  | act a => cases a <;> exact paired_call _ rfl
  | echo x => exact paired_call _ rfl
  | assign x v => exact .plain rfl rfl (.plain rfl rfl (hvalue v))
  | declare x v => exact .plain rfl rfl (.plain rfl rfl (.plain rfl rfl (hvalue v)))
  | redefine v =>
    exact .plain rfl rfl (.plain rfl rfl (.plain rfl rfl (.plain rfl rfl (hvalue v))))

/-! ### Returns -/

/-- A text is a `return` of a constant or of nothing, in a block of its own. -/
def IsReturn (stmt : String) (vs : List Expr) : Prop :=
  IsLine (bytesOf stmt) ∧ ∃ us, Returned us vs ∧
    lineTokens (bytesOf stmt) = .word .do :: .word .return :: (us ++ [.word .end])

theorem isReturn_nothing : IsReturn "do return end" [] :=
  ⟨by decide +kernel, [], .nothing, by decide +kernel⟩

/-- A text that stands for a constant in front of a blank is returned. -/
theorem isReturn_constant {text : String} {us : List Token} {c : Constant}
    (hu : Constant.ofTokens? us = some c) (htext : ∀ t, Spells (bytesOf text) us (byte ' ' :: t)) :
    IsReturn ("do return " ++ text ++ " end") [c.expr] := by
  have hbytes : bytesOf ("do return " ++ text ++ " end") ++ [byte '\n'] = bytesOf "do" ++
      (bytesOf " " ++ (bytesOf "return" ++ (bytesOf " " ++
        (bytesOf text ++ (bytesOf " " ++ (bytesOf "end" ++ [byte '\n'])))))) := by
    simp only [bytesOf_append, List.append_assoc]
    rfl
  have hend : Spells (bytesOf "end" ++ [byte '\n']) [.word .end] [] :=
    .append (.nameLike (by decide) rfl) (.lineBreak (by decide))
  have hspells : Spells (bytesOf ("do return " ++ text ++ " end") ++ [byte '\n'])
      ([.word .do] ++ ([.word .return] ++ (us ++ [.word .end]))) [] := by
    rw [hbytes]
    exact .append (.nameLike (by decide) rfl) (.space (.append (.nameLike (by decide) rfl)
      (.space (.append (htext _) hend.space))))
  obtain ⟨hline, htokens⟩ := lineTokens_eq hspells
  exact ⟨hline, us, .constant hu, htokens⟩

/-- Every string can be returned. -/
theorem isReturn_quote (text : String) :
    IsReturn ("do return " ++ quote text ++ " end") [.string (bytesOf text)] :=
  isReturn_constant (c := .text (bytesOf text)) rfl fun _ => spells_quote text _

theorem IsReturn.isPaired {stmt : String} {vs : List Expr} (h : IsReturn stmt vs) :
    (Instr.exec stmt).IsPaired := by
  obtain ⟨-, us, hus, htokens⟩ := h
  have hpaired : Paired us := by
    cases hus with
    | nothing => rfl
    | constant hu => exact paired_constant hu
  refine Instr.isPaired_of_paired rfl ?_
  rw [Instr.tokens, htokens, Paired, openAfter_starts rfl, openAfter_plain rfl rfl, openAfter_append,
    hpaired.openAfter]
  rfl

/-- What stands around a return: the start of a choice or of a loop over values. -/
inductive Opening where
  /-- A choice on a condition. -/
  | choice (condition : String)
  /-- A loop with a header. -/
  | loop (header : String)
  deriving DecidableEq, Repr

/-- The instruction that starts a construct. -/
def Opening.instr : Opening → Instr
  | choice condition => .start .ifTag condition
  | loop header => .start .forTag header

/-- A statement, without lines, that returns at the start of the innermost of some constructs, each of which
is the first statement in the one around it. -/
inductive Encloses (vs : List Expr) : List Opening → Stat → Prop
  /-- The return by itself. -/
  | here : Encloses vs [] (.block [.return vs])
  /-- A choice whose first branch starts with the rest. -/
  | choice {os : List Opening} {s : Stat} (condition : String) (h : Encloses vs os s)
      (rest other : Script.Block) :
      Encloses vs (.choice condition :: os) (.if (.paren (ownExpr condition)) (s :: rest) other)
  /-- A loop whose body starts with the rest. -/
  | loop {os : List Opening} {s : Stat} (header : String) (h : Encloses vs os s) (rest : Script.Block) :
      Encloses vs (.loop header :: os) ((ownHeader header).loop (s :: rest) 0)

section

variable {bad : Refusal → Prop} {turns depth : Nat} {r : Reader} {stmt : String} {vs : List Expr}
  {os : List Opening}

/-- The tokens of constructs and of a return in them. -/
def enclosedTokens (os : List Opening) (stmt : String) : List Token :=
  (os.map Opening.instr).flatMap Instr.tokens ++ lineTokens (bytesOf stmt)

theorem enclosedTokens_cons (o : Opening) (os : List Opening) (stmt : String) :
    enclosedTokens (o :: os) stmt = o.instr.tokens ++ enclosedTokens os stmt := by
  rw [enclosedTokens, List.map_cons, List.flatMap_cons, List.append_assoc, enclosedTokens]

/-- They start with a word that a statement starts with. -/
theorem enclosed_head (hstmt : IsReturn stmt vs) (os : List Opening) :
    ∃ t ts, enclosedTokens os stmt = t :: ts ∧ t.begins ∧ t.endsBlock = false ∧ t ≠ .word .return := by
  obtain ⟨-, us, -, htokens⟩ := hstmt
  match os with
  | [] => exact ⟨_, _, htokens, rfl, rfl, by decide⟩
  | .choice _ :: _ => exact ⟨_, _, rfl, rfl, rfl, by decide⟩
  | .loop _ :: _ => exact ⟨_, _, rfl, rfl, rfl, by decide⟩

/-- One statement, which returns in some constructs. -/
def ReturnsIn (vs : List Expr) (os : List Opening) (ss : List Stat) : Prop :=
  ∃ s, Stat.allUnlined ss = [s] ∧ Encloses vs os s

/-- A block that starts with a statement that returns in some constructs. -/
def StartsReturning (vs : List Expr) (os : List Opening) (b : Script.Block) : Prop :=
  ∃ s rest, Stat.allUnlined b = s :: rest ∧ Encloses vs os s

/-- The block in a construct, if it is known how its first statement is read. -/
theorem reads_enclosed (hbad : ∀ e, bad e) (hstmt : IsReturn stmt vs) {ts : List Token}
    (h : r.tokens = enclosedTokens os stmt ++ ts) (hturns : 0 < turns)
    (hstat : Reads bad (Script.Level.at turns depth).stat r fun ss _ _ => ReturnsIn vs os ss) :
    Reads bad (Script.Level.at turns depth).stats r fun b _ _ => StartsReturning vs os b := by
  obtain ⟨t, ts', hts, -, hends, hreturn⟩ := enclosed_head hstmt os
  rw [hts, List.cons_append] at h
  obtain ⟨turns, rfl⟩ : ∃ n, turns = n + 1 := ⟨turns - 1, by omega⟩
  rw [Script.Level.stats, Script.Level.at_turns]
  exact reads_nextStat hbad h hends hreturn hstat

/-- A choice whose first branch starts with a return in some constructs. -/
theorem reads_choiceOpening (hbad : ∀ e, bad e) {condition : String} {e : Expr}
    (he : ownExpr? condition = some e) {t : Token} {us : List Token}
    (h : r.tokens = .word .if :: .mark .openParen :: (lineTokens (bytesOf condition) ++
      .mark .closeParen :: .word .then :: t :: us)) (ht : Parse.valid t)
    (hturns : r.tokens.length < turns)
    (hinside : ∀ (s : Reader) (below : Nat), s.tokens = t :: us → s.tokens.length < turns →
      Reads bad (Script.Level.at turns below).stats s fun b _ _ => StartsReturning vs os b) :
    Reads bad (Script.Level.at turns depth).stat r fun ss _ _ =>
      ReturnsIn vs (.choice condition :: os) ss := by
  have hlength := congrArg List.length h
  simp only [List.length_cons, List.length_append] at hlength
  refine reads_stat (k := 0) (.of_bad fun e _ => hbad e) fun below _ =>
    .nextLine fun line => .peek h ?_
  refine .bind (reads_branch (G := fun c _ => c.unlined = .paren (ownExpr condition))
    (B := fun b _ _ => StartsReturning vs os b) h rfl (fun s hs => ?_) ht
    fun s hs => hinside s _ hs ?_) ?_
  · refine (reads_ownCondition he (.inr (.inr (.inr (.inr (.inl rfl))))) hs ?_).mono
      (fun e _ => hbad e) fun _ _ _ => id
    rw [hs]
    simp only [List.length_cons, List.length_append]
    omega
  · rw [hs]
    simp only [List.length_cons]
    omega
  · rintro ⟨c, b⟩ s _ ⟨c, line', msc, msb, rfl, hc, ⟨first, rest, hb, henclosed⟩, -⟩
    -- the other branches may be anything, as they are not run
    refine reads_ifRest hbad fun other => ⟨_, ?_, henclosed.choice condition rest (Stat.allUnlined other)⟩
    rw [Stat.allUnlined, Stat.unlined, Expr.unlined_settle, hc, hb, Stat.allUnlined]

/-- A loop whose body starts with a return in some constructs. -/
theorem reads_loopOpening (hbad : ∀ e, bad e) {header : String} {hd : Header}
    (hhd : ownHeader? header = some hd) {t : Token} {us : List Token}
    (h : r.tokens = .word .for :: (lineTokens (bytesOf header) ++ .word .do :: t :: us))
    (ht : Parse.valid t) (hturns : r.tokens.length < turns)
    (hinside : ∀ (s : Reader) (below : Nat), s.tokens = t :: us → s.tokens.length < turns →
      Reads bad (Script.Level.at turns below).stats s fun b _ _ => StartsReturning vs os b) :
    Reads bad (Script.Level.at turns depth).stat r fun ss _ _ =>
      ReturnsIn vs (.loop header :: os) ss := by
  have hwhole := ownHeader?_whole hhd
  obtain ⟨v, vs', hvs, hv⟩ := hwhole.opens
  rw [hvs, List.cons_append] at h
  have hlength := congrArg List.length h
  simp only [List.length_cons, List.length_append] at hlength
  refine reads_stat (k := 0) (.of_bad fun e _ => hbad e) fun below _ =>
    .nextLine fun line => .peek h ?_
  refine reads_forStat (G := fun hd _ => hd.unlined = ownHeader header)
    (B := fun b _ _ => StartsReturning vs os b)
    (A := fun ss _ _ => ReturnsIn vs (.loop header :: os) ss)
    h hv.1 (fun s hs => ?_) ht (fun s hs => hinside s _ hs ?_) ?_
  · refine (hwhole.reads turns below s (t :: us) (by rw [hs, hvs]; rfl)
      (List.cons_ne_nil _ _) ?_).mono (fun e _ => hbad e) ?_
    · rw [hs]
      simp only [List.length_cons, List.length_append]
      omega
    · rintro hd' s ms ⟨hs, halike⟩
      exact ⟨hs, by rw [ownHeader, hhd, Option.getD_some, show _ = _ from halike]⟩
  · rw [hs]
    simp only [List.length_cons]
    omega
  · rintro hd' b line' s msh msb hhd' ⟨first, rest, hb, henclosed⟩
    refine .closeAny hbad fun s => ?_
    refine .note fun s' _ => .pure ⟨_, ?_, henclosed.loop header rest⟩
    rw [Stat.allUnlined, Stat.allUnlined, Header.unlined_loop, hhd', hb]

/-- **Reading.**  A return in constructs that stand inside each other is read as such, whatever comes after
it, unless the script is refused. -/
theorem reads_openings (hbad : ∀ e, bad e) (hstmt : IsReturn stmt vs)
    (hos : ∀ o ∈ os, o.instr.isOwn) {ts : List Token} (h : r.tokens = enclosedTokens os stmt ++ ts)
    (hturns : r.tokens.length < turns) :
    Reads bad (Script.Level.at turns depth).stat r fun ss _ _ => ReturnsIn vs os ss := by
  induction os generalizing r depth with
  | nil =>
    obtain ⟨-, us, hus, htokens⟩ := hstmt
    have hr : r.tokens = .word .do :: .word .return :: (us ++ .word .end :: ts) := by
      rw [h, enclosedTokens, htokens]
      simp
    refine reads_stat (k := 0) (.of_bad fun e _ => hbad e) fun below _ => ?_
    refine (reads_returnBlock hbad hus (by omega) hr).mono (fun _ => id) fun ss _ _ hss => ?_
    exact ⟨_, hss, .here⟩
  | cons o os ih =>
    obtain ⟨ho, hos⟩ := List.forall_mem_cons.1 hos
    obtain ⟨t, us, hus, hbegins, -⟩ := enclosed_head hstmt os
    have ht := (Token.begins_apart hbegins).1
    have hinside (s : Reader) (below : Nat) (hs : s.tokens = t :: (us ++ ts))
        (hlen : s.tokens.length < turns) :
        Reads bad (Script.Level.at turns below).stats s fun b _ _ => StartsReturning vs os b := by
      have hs : s.tokens = enclosedTokens os stmt ++ ts := by rw [hs, hus, List.cons_append]
      exact reads_enclosed hbad hstmt hs (by omega) (ih hos hs hlen)
    rw [enclosedTokens_cons, hus] at h
    cases o with
    | choice condition =>
      obtain ⟨e, he⟩ := Option.isSome_iff_exists.1 (show (ownExpr? condition).isSome from ho)
      refine reads_choiceOpening hbad he (h.trans ?_) ht hturns hinside
      simp [Opening.instr, Instr.tokens, conditionTokens]
    | loop header =>
      obtain ⟨hd, hhd⟩ := Option.isSome_iff_exists.1 (show (ownHeader? header).isSome from ho)
      refine reads_loopOpening hbad hhd (h.trans ?_) ht hturns hinside
      simp [Opening.instr, Instr.tokens]

/-- The statements of some deeds, and then one that returns in some constructs. -/
def ReturnsAfter (ds : List Deed) (vs : List Expr) (os : List Opening) (b : Script.Block) : Prop :=
  ∃ s rest, Stat.allUnlined b = ds.map Deed.stat ++ s :: rest ∧ Encloses vs os s

variable {ds : List Deed} {ts : List Token}

/-- Deeds and a return in constructs after them. -/
theorem reads_returnsAfter (hbad : ∀ e, bad e) (hds : ∀ d ∈ ds, d.IsProper) (hstmt : IsReturn stmt vs)
    (hos : ∀ o ∈ os, o.instr.isOwn)
    (h : r.tokens = ds.flatMap Deed.tokens ++ (enclosedTokens os stmt ++ ts))
    (hturns : r.tokens.length < turns) :
    Reads bad (Script.Level.at turns (depth + 3)).stats r fun b _ _ => ReturnsAfter ds vs os b := by
  obtain ⟨t, us, hus, hbegins, hends, hreturn⟩ := enclosed_head hstmt os
  have hlength := congrArg List.length h
  rw [List.length_append] at hlength
  rw [hus, List.cons_append] at h
  rw [Script.Level.stats, Script.Level.at_turns]
  refine reads_deeds hds h hbegins hturns hturns fun n done s hs hn hdone => ?_
  obtain ⟨n, rfl⟩ : ∃ k, n = k + 1 := ⟨n - 1, by omega⟩
  have hs' : s.tokens = enclosedTokens os stmt ++ ts := by rw [hs, hus, List.cons_append]
  refine (reads_nextStat hbad hs hends hreturn
    (reads_openings hbad hstmt hos hs' (by rw [hs']; omega))).mono (fun _ => id) ?_
  rintro b _ _ ⟨first, rest, hb, henclosed⟩
  exact ⟨first, rest, by rw [hb, hdone]; rfl, henclosed⟩

/-- **Functions.**  The function that holds them ends where they end. -/
theorem readsFunction_returnsAfter (hbad : ∀ e, bad e) (hds : ∀ d ∈ ds, d.IsProper)
    (hstmt : IsReturn stmt vs) (hos : ∀ o ∈ os, o.instr.isOwn)
    (hpaired : Paired (ds.flatMap Deed.tokens ++ (enclosedTokens os stmt ++ ts))) :
    ReadsFunction bad turns (depth + 3) (ds.flatMap Deed.tokens ++ (enclosedTokens os stmt ++ ts))
      fun b _ => ReturnsAfter ds vs os b := by
  refine reads_functionOf (C := fun b ts' _ => ReturnsAfter ds vs os b ∧ ts'.getLast? = some .eof ∧
    ∃ taken, ds.flatMap Deed.tokens ++ (enclosedTokens os stmt ++ ts) ++ .word .end :: closingTokens =
      taken ++ ts' ∧ Paired taken) ?_ (fun r hr hturns => ?_) ?_
  · obtain ⟨t, us, hus, hbegins, -⟩ := enclosed_head hstmt os
    obtain ⟨u, us', hu, hbegins'⟩ := deeds_head ds hbegins (us ++ ts ++ .word .end :: closingTokens)
    refine ⟨u, us', ?_, (Token.begins_apart hbegins').1⟩
    rw [← hu, hus]
    simp
  · have hlast : r.tokens.getLast? = some .eof := by
      rw [hr, List.getLast?_append]
      rfl
    have hr' := hr
    rw [List.append_assoc, List.append_assoc] at hr'
    refine (reads_returnsAfter hbad hds hstmt hos hr' hturns).gives.mono (fun _ => id) ?_
    rintro b s ms ⟨hb, hgives⟩
    obtain ⟨hlast', taken, htaken, hpaired'⟩ :=
      (Script.Level.paired_at turns (depth + 3)).stats _ r b s hlast rfl hgives
    exact ⟨hb, hlast', taken, hr ▸ htaken, hpaired'⟩
  · rintro b ms s line ⟨hb, hlast, taken, htaken, hpaired'⟩
    cases hs : s.tokens with
    | nil =>
      rw [hs] at hlast
      cases hlast
    | cons t us =>
      rw [hs] at htaken
      by_cases ht : t = .word .end
      · -- what has been taken is paired, so this is the end of the function
        subst ht
        obtain rfl := hpaired.unique hpaired' rfl rfl rfl rfl htaken
        obtain rfl : closingTokens = us := (List.cons.inj (List.append_cancel_left htaken)).2
        exact .close hs rfl fun s hs => .note fun s' hs' => .pure ⟨hs'.trans hs, hb, rfl, rfl⟩
      · exact .close_fails hs ht hbad

end

/-! ### Chunks -/

/-- **Returns.**  If the chunk of some deeds, of a return in constructs and of anything else is a script,
then its function has the statements of the deeds and a statement that returns in these constructs. -/
theorem parse_returns {ds : List Deed} (hds : ∀ d ∈ ds, d.IsProper) {stmt : String} {vs : List Expr}
    (hstmt : IsReturn stmt vs) {os : List Opening} {tail : List Instr}
    (hbalanced : Balanced (ds.map Deed.instr ++ (os.map Opening.instr ++ .exec stmt :: tail)))
    (hown : ∀ i ∈ os.map Opening.instr ++ tail, i.isOwn) {b : Script.Block}
    (hparse : Script.parse (bytesOf (chunk (ds.map Deed.instr ++
      (os.map Opening.instr ++ .exec stmt :: tail)))) = .ok b) :
    ∃ s rest, Stat.allUnlined b = chunkTree (ds.map Deed.stat ++ s :: rest) ∧ Encloses vs os s := by
  obtain ⟨hos, htail⟩ := List.forall_mem_append.1 hown
  have hlexed : ∀ i ∈ ds.map Deed.instr ++ (os.map Opening.instr ++ .exec stmt :: tail), i.IsLexed :=
    List.forall_mem_append.2 ⟨isLexed_deeds hds, List.forall_mem_append.2
      ⟨fun i hi => Instr.isLexed_of_isOwn (hos i hi), List.forall_mem_cons.2
        ⟨hstmt.1, fun i hi => Instr.isLexed_of_isOwn (htail i hi)⟩⟩⟩
  have hpaired : ∀ i ∈ ds.map Deed.instr ++ (os.map Opening.instr ++ .exec stmt :: tail), i.IsPaired :=
    List.forall_mem_append.2 ⟨List.forall_mem_map.2 fun d hd => Deed.isPaired (hds d hd),
      List.forall_mem_append.2 ⟨fun i hi => Instr.isPaired_of_isOwn (hos i hi), List.forall_mem_cons.2
        ⟨hstmt.isPaired, fun i hi => Instr.isPaired_of_isOwn (htail i hi)⟩⟩⟩
  have htokens : (ds.map Deed.instr ++ (os.map Opening.instr ++ .exec stmt :: tail)).flatMap Instr.tokens =
      ds.flatMap Deed.tokens ++ (enclosedTokens os stmt ++ tail.flatMap Instr.tokens) := by
    rw [List.flatMap_append, tokens_deeds hds, List.flatMap_append, List.flatMap_cons, enclosedTokens,
      List.append_assoc]
    rfl
  have hbody (turns : Nat) : ReadsFunction (fun _ => True) turns 198
      ((ds.map Deed.instr ++ (os.map Opening.instr ++ .exec stmt :: tail)).flatMap Instr.tokens)
      fun b _ => ReturnsAfter ds vs os b := by
    have hbalanced := hbalanced.paired hpaired
    rw [htokens] at hbalanced ⊢
    exact readsFunction_returnsAfter (fun _ => trivial) hds hstmt (List.forall_mem_map.1 hos) hbalanced
  have hread := (parse_ok_iff.1 hparse).1
  rcases readScript_of_function hlexed hbody with
    ⟨b', hb', body, -, -, ⟨s, rest, hbody, henclosed⟩, htree, -⟩ | ⟨e, he, -⟩
  · obtain rfl := Except.ok.inj (hread.symm.trans hb')
    exact ⟨s, rest, by rw [htree, hbody], henclosed⟩
  · rw [hread] at he
    cases he

end Stencil.Template
