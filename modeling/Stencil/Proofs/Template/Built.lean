import Stencil.Proofs.Template.Accepted
import Stencil.Proofs.Template.Code

/-!
# The tree of a chunk

The grammar reads structured instructions as the statements that they stand for (`reads_code`), so the
tree of a chunk has them in the body of its function (`reads_built`): no instruction is merged with its
neighbours.
-/

namespace Stencil.Template

open Script
open Stencil.Text (Bytes bytesOf)

/-- The tokens of a tree of constructs. -/
def Code.tokens (code : Code) : List Token := code.flatten.flatMap Instr.tokens

variable {turns depth : Nat} {r : Reader} {k : Token} {rest : List Token}

/-- Complete instructions start with a token that can be read, if what comes after them does. -/
theorem tokens_head (rest : List Token) {is : List Instr} (h : ∀ i ∈ is, i.isComplete)
    (hk : Parse.valid k) :
    ∃ t ts, is.flatMap Instr.tokens ++ k :: rest = t :: ts ∧ Parse.valid t := by
  induction is with
  | nil => exact ⟨k, rest, rfl, hk⟩
  | cons i is ih =>
    rw [List.flatMap_cons, List.append_assoc]
    match i, h i (List.mem_cons_self ..) with
    | .exec stmt, hi =>
      rw [Instr.isComplete, Bool.and_eq_true, Option.isSome_iff_exists] at hi
      obtain ⟨⟨b, hb⟩, -⟩ := hi
      have hvalid := (complete_of_ownBlock? hb).valid
      cases htokens : lineTokens (bytesOf stmt) with
      | nil =>
        rw [Instr.tokens, htokens]
        exact ih fun j hj => h j (List.mem_cons_of_mem _ hj)
      | cons t ts =>
        rw [Instr.tokens, htokens]
        exact ⟨t, _, rfl, hvalid t (by rw [htokens]; rfl)⟩
    | .start .ifTag _, _ | .start .whileTag _, _ | .start .forTag _, _ | .raw _, _ | .emit _, _
    | .otherwise, _ | .finish, _ | .openBlock _, _ | .closeBlock, _ | .trim, _ =>
      exact ⟨_, _, rfl, rfl⟩

/-! ### Instructions -/

/-- What the grammar does with a tree of constructs: it reads the statements that the tree stands for,
and goes on with what comes after them. -/
def ReadsCode (turns : Nat) (code : Code) : Prop :=
  ∀ ⦃depth n : Nat⦄ ⦃r : Reader⦄ ⦃k : Token⦄ ⦃rest : List Token⦄ ⦃done : Block⦄
    ⦃Q : Block → Reader → Prop⦄,
    r.tokens = code.tokens ++ k :: rest → k.begins → rest ≠ [] →
    r.tokens.length < turns → r.tokens.length < n →
    (∀ n done' s, s.tokens = k :: rest → s.tokens.length < n →
      Stat.allUnlined done' = code.tree.reverse ++ Stat.allUnlined done →
      Reads IsTooDeep ((Level.at turns depth).statsFrom n done') s fun b s _ => Q b s) →
    Reads IsTooDeep ((Level.at turns depth).statsFrom n done) r fun b s _ => Q b s

/-- The tree as a block of its own, up to the word that ends the block. -/
theorem ReadsCode.block {code : Code} (h : ReadsCode turns code)
    (hr : r.tokens = code.tokens ++ k :: rest) (hk : k.begins) (hends : k.endsBlock)
    (hrest : rest ≠ []) (hturns : r.tokens.length < turns) :
    Reads IsTooDeep (Level.at turns depth).stats r fun b s _ =>
      s.tokens = k :: rest ∧ Stat.allUnlined b = code.tree := by
  rw [Level.stats, Level.at_turns]
  refine h hr hk hrest hturns hturns fun n done' s hs _ hdone' => reads_blockEnd hs hends ⟨hs, ?_⟩
  rw [Stat.allUnlined_reverse, hdone', Stat.allUnlined, List.append_nil, List.reverse_reverse]

/-- A call before other instructions. -/
theorem readsCode_call {i : Instr} {hi : i.isPlain} {next : Code} {f : String} {args : List Token}
    {G : List Expr → List Mention → Prop} (htokens : i.tokens = callTokens f args)
    (hargs : AreArguments IsTooDeep args G) {es₀ : List Expr}
    (hG : ∀ es ms, G es ms → Expr.allUnlined es = es₀) (hstatements : i.statements = [callStat f es₀])
    (hcomplete : ∀ i ∈ next.flatten, i.isComplete) (ih : ReadsCode turns next) :
    ReadsCode turns (.plain i hi next) := by
  intro depth n r k rest done Q hr hk hrest hturns hn hQ
  have hvalid : Parse.valid k := by cases k <;> first | rfl | cases hk
  obtain ⟨t, ts, hts, ht⟩ := tokens_head rest hcomplete hvalid
  have hr' : r.tokens = callTokens f args ++ t :: ts := by
    rw [hr, Code.tokens, Code.flatten, List.flatMap_cons, htokens, List.append_assoc, hts]
  have hlength := congrArg List.length hr'
  rw [callTokens, List.length_append, List.length_cons, List.length_cons, List.length_append] at hlength
  obtain ⟨n, rfl⟩ : ∃ m, n = m + 2 := ⟨n - 2, by omega⟩
  refine reads_callTurns (.of_bad fun _ => id) hargs hr' ht hturns fun es line line' ms s hs hes => ?_
  have hlength' := congrArg List.length hs
  rw [List.length_cons] at hlength'
  simp only [List.length_cons, List.length_nil] at hlength
  refine ih (hs.trans hts.symm) hk hrest (by omega) (by omega) fun n done' s hs hn hdone' =>
    hQ n done' s hs hn ?_
  rw [hdone', Code.tree, hstatements, ← hG es ms hes]
  simp [callStat, Stat.allUnlined, Stat.unlined, Expr.unlined]

/-- A statement that a template gives, before other instructions. -/
theorem readsCode_exec {stmt : String} {hi : (Instr.exec stmt).isPlain} {next : Code} {b : Block}
    (hb : ownBlock? stmt = some b) (hapart : next.tokens.head?.all Token.begins)
    (ih : ReadsCode turns next) : ReadsCode turns (.plain (.exec stmt) hi next) := by
  intro depth n r k rest done Q hr hk hrest hturns hn hQ
  obtain ⟨t, ts, hts, ht, hne⟩ : ∃ t ts, next.tokens ++ k :: rest = t :: ts ∧ t.begins ∧ ts ≠ [] := by
    cases hnext : next.tokens with
    | nil => exact ⟨k, rest, rfl, hk, hrest⟩
    | cons t ts =>
      rw [hnext] at hapart
      exact ⟨t, ts ++ k :: rest, rfl, hapart, by simp⟩
  have hr' : r.tokens = lineTokens (bytesOf stmt) ++ t :: ts := by
    rw [hr, ← hts, ← List.append_assoc]
    rfl
  refine (complete_of_ownBlock? hb).reads hr' ht hne hturns.le hn fun n done' s hs hn hdone => ?_
  have hlength := congrArg List.length hr'
  have hlength' := congrArg List.length hs
  rw [List.length_append] at hlength
  refine ih (hs.trans hts.symm) hk hrest (by omega) hn fun n done'' s hs hn hdone' =>
    hQ n done'' s hs hn ?_
  rw [hdone', hdone, Code.tree, Instr.statements, ownBlock, hb, Option.getD_some,
    List.reverse_append, List.append_assoc]

/-- A construct before other instructions. -/
theorem readsCode_construct {code next : Code} {stat : Stat} (htree : code.tree = stat :: next.tree)
    (hhead : ∃ t ts, code.tokens = t :: ts ∧ t.endsBlock = false ∧ t ≠ .word .return)
    (hshort : next.tokens.length < code.tokens.length)
    (hstat : ∀ {depth : Nat} {r : Reader} {k : Token} {rest : List Token},
      r.tokens = code.tokens ++ k :: rest → Parse.valid k → r.tokens.length < turns →
      Reads IsTooDeep (Level.at turns depth).stat r fun ss s _ =>
        s.tokens = next.tokens ++ k :: rest ∧ Stat.allUnlined ss = [stat])
    (ih : ReadsCode turns next) : ReadsCode turns code := by
  intro depth n r k rest done Q hr hk hrest hturns hn hQ
  have hvalid : Parse.valid k := by cases k <;> first | rfl | cases hk
  obtain ⟨t, ts, hts, hends, hreturn⟩ := hhead
  have hr' : r.tokens = t :: (ts ++ k :: rest) := by rw [hr, hts]; rfl
  obtain ⟨n, rfl⟩ : ∃ m, n = m + 1 := ⟨n - 1, by omega⟩
  refine reads_turn hr' hends hreturn (hstat hr hvalid hturns) fun ss s ms ⟨hs, hss⟩ => ?_
  have hlength := congrArg List.length hr
  have hlength' := congrArg List.length hs
  rw [List.length_append] at hlength hlength'
  refine ih hs hk hrest (by omega) (by omega) fun n done' s hs hn hdone' => hQ n done' s hs hn ?_
  rw [hdone', htree, Stat.allUnlined_append, Stat.allUnlined_reverse, hss]
  simp

/-! ### Constructs -/

section

variable {header : String} {body other next : Code}

/-- The condition of a choice or a loop. -/
theorem reads_ownCondition {e : Expr} (he : ownExpr? header = some e) {w : Token} (hw : w.Stops)
    {ts : List Token} (h : r.tokens = .mark .openParen ::
      (lineTokens (bytesOf header) ++ .mark .closeParen :: w :: ts))
    (hturns : r.tokens.length ≤ turns) :
    Reads IsTooDeep (Level.at turns depth).anyExpr r fun c s _ =>
      s.tokens = w :: ts ∧ c.unlined = .paren (ownExpr header) := by
  refine (reads_condition (ownExpr?_whole he) hw h hturns).mono (fun _ => id) ?_
  rintro _ s ms ⟨hs, e', line, rfl, halike⟩
  refine ⟨hs, ?_⟩
  rw [Expr.unlined, Expr.unlined_settle, ownExpr, he, Option.getD_some, show _ = _ from halike]

/-- The first branch of a choice. -/
theorem reads_ownBranch {e : Expr} (he : ownExpr? header = some e) (hbody : ReadsCode turns body)
    (hcomplete : ∀ i ∈ body.flatten, i.isComplete)
    (hr : r.tokens = (Instr.start .ifTag header).tokens ++ (body.tokens ++ k :: rest))
    (hk : k.begins) (hends : k.endsBlock) (hrest : rest ≠ []) (hturns : r.tokens.length < turns) :
    Reads IsTooDeep (Level.at turns depth).branch r fun cb s _ =>
      s.tokens = k :: rest ∧ cb.1.unlined = .paren (ownExpr header) ∧
        Stat.allUnlined cb.2 = body.tree := by
  have hvalid : Parse.valid k := by cases k <;> first | rfl | cases hk
  obtain ⟨t, ts, hts, ht⟩ := tokens_head rest hcomplete hvalid
  have hr' : r.tokens = .word .if :: .mark .openParen ::
      (lineTokens (bytesOf header) ++ .mark .closeParen :: .word .then :: t :: ts) := by
    rw [hr, ← hts]
    simp [Code.tokens, Instr.tokens, conditionTokens]
  have hlength := congrArg List.length hr'
  simp only [List.length_cons, List.length_append] at hlength
  refine (reads_branch (u := ts) (G := fun c _ => c.unlined = .paren (ownExpr header))
    (B := fun b ts _ => ts = k :: rest ∧ Stat.allUnlined b = body.tree) hr' rfl
    (fun s hs => ?_) ht (fun s hs => ?_)).mono (fun _ => id) ?_
  · refine reads_ownCondition he (.inr (.inr (.inr (.inr (.inl rfl))))) hs ?_
    rw [hs]
    simp only [List.length_cons, List.length_append]
    omega
  · refine hbody.block (hs.trans hts.symm) hk hends hrest ?_
    rw [hs, List.length_cons]
    omega
  · rintro ⟨c, b⟩ s _ ⟨c, line', msc, msb, rfl, hc, ⟨hs, hb⟩, rfl⟩
    exact ⟨hs, by rw [Expr.unlined_settle, hc], hb⟩

/-- A choice without another branch. -/
theorem reads_choice {e : Expr} (he : ownExpr? header = some e) (hbody : ReadsCode turns body)
    (hcomplete : ∀ i ∈ body.flatten, i.isComplete) (hnext : ∀ i ∈ next.flatten, i.isComplete)
    (hr : r.tokens = (Code.choice header body next).tokens ++ k :: rest) (hk : Parse.valid k)
    (hturns : r.tokens.length < turns) :
    Reads IsTooDeep (Level.at turns depth).stat r fun ss s _ =>
      s.tokens = next.tokens ++ k :: rest ∧
        Stat.allUnlined ss = [.if (.paren (ownExpr header)) body.tree []] := by
  obtain ⟨u, us, hus, hu⟩ := tokens_head rest hnext hk
  have hr' : r.tokens = (Instr.start .ifTag header).tokens ++
      (body.tokens ++ .word .end :: u :: us) := by
    rw [hr, ← hus]
    simp [Code.tokens, Code.flatten, Instr.tokens]
  refine reads_stat (k := 0) (.of_bad fun _ => id) fun below _ => .nextLine fun line => .peek hr' ?_
  refine .bind (reads_ownBranch he hbody hcomplete hr' rfl rfl (by simp) hturns) ?_
  rintro ⟨c, b⟩ s ms ⟨hs, hc, hb⟩
  refine reads_noOtherwise hs (by decide) (by decide) (.close hs hu fun s hs => .pure ⟨?_, ?_⟩)
  · exact hs.trans hus.symm
  · simp only [Stat.allUnlined, Stat.unlined, hc, hb]

/-- A choice with another branch. -/
theorem reads_choiceBranch {e : Expr} (he : ownExpr? header = some e) (hbody : ReadsCode turns body)
    (hother : ReadsCode turns other) (hcomplete : ∀ i ∈ body.flatten, i.isComplete)
    (hcomplete' : ∀ i ∈ other.flatten, i.isComplete) (hnext : ∀ i ∈ next.flatten, i.isComplete)
    (hr : r.tokens = (Code.branch header body other next).tokens ++ k :: rest) (hk : Parse.valid k)
    (hturns : r.tokens.length < turns) :
    Reads IsTooDeep (Level.at turns depth).stat r fun ss s _ =>
      s.tokens = next.tokens ++ k :: rest ∧
        Stat.allUnlined ss = [.if (.paren (ownExpr header)) body.tree other.tree] := by
  obtain ⟨u, us, hus, hu⟩ := tokens_head rest hnext hk
  obtain ⟨t, ts, hts, ht⟩ := tokens_head (u :: us) hcomplete'
    (show Parse.valid (.word .end) from rfl)
  have hr' : r.tokens = (Instr.start .ifTag header).tokens ++
      (body.tokens ++ .word .else :: t :: ts) := by
    rw [hr, ← hts, ← hus]
    simp [Code.tokens, Code.flatten, Instr.tokens]
  have hlength := congrArg List.length hr'
  simp only [List.length_cons, List.length_append] at hlength
  refine reads_stat (k := 0) (.of_bad fun _ => id) fun below _ => .nextLine fun line => .peek hr' ?_
  refine .bind (reads_ownBranch he hbody hcomplete hr' rfl rfl (by simp) hturns) ?_
  rintro ⟨c, b⟩ s ms ⟨hs, hc, hb⟩
  refine .bind (reads_otherwise (B := fun b ts _ => ts = .word .end :: u :: us ∧
    Stat.allUnlined b = other.tree) (by rw [Level.at_turns]; omega) hs ht fun s hs => ?_) ?_
  · refine hother.block (hs.trans hts.symm) rfl rfl (by simp) ?_
    rw [hs, List.length_cons]
    omega
  · rintro b' s _ ⟨ms', -, hs, hb'⟩
    refine .close hs hu fun s hs => .pure ⟨hs.trans hus.symm, ?_⟩
    simp only [Stat.allUnlined, Stat.unlined, hc, hb, hb']

/-- A loop with a condition. -/
theorem reads_whileCode {e : Expr} (he : ownExpr? header = some e) (hbody : ReadsCode turns body)
    (hcomplete : ∀ i ∈ body.flatten, i.isComplete) (hnext : ∀ i ∈ next.flatten, i.isComplete)
    (hr : r.tokens = (Code.while header body next).tokens ++ k :: rest) (hk : Parse.valid k)
    (hturns : r.tokens.length < turns) :
    Reads IsTooDeep (Level.at turns depth).stat r fun ss s _ =>
      s.tokens = next.tokens ++ k :: rest ∧
        Stat.allUnlined ss = [.while (.paren (ownExpr header)) body.tree] := by
  obtain ⟨u, us, hus, hu⟩ := tokens_head rest hnext hk
  obtain ⟨t, ts, hts, ht⟩ := tokens_head (u :: us) hcomplete
    (show Parse.valid (.word .end) from rfl)
  have hr' : r.tokens = .word .while :: .mark .openParen ::
      (lineTokens (bytesOf header) ++ .mark .closeParen :: .word .do :: t :: ts) := by
    rw [hr, ← hts, ← hus]
    simp [Code.tokens, Code.flatten, Instr.tokens, conditionTokens]
  have hlength := congrArg List.length hr'
  simp only [List.length_cons, List.length_append] at hlength
  refine reads_stat (k := 0) (.of_bad fun _ => id) fun below _ => .nextLine fun line => .peek hr' ?_
  refine reads_whileStat (u := ts) (G := fun c _ => c.unlined = .paren (ownExpr header))
    (B := fun b ts _ => ts = .word .end :: u :: us ∧ Stat.allUnlined b = body.tree)
    (A := fun ss ts _ => ts = next.tokens ++ k :: rest ∧
      Stat.allUnlined ss = [.while (.paren (ownExpr header)) body.tree])
    hr' rfl (fun s hs => ?_) ht (fun s hs => ?_) ?_
  · refine reads_ownCondition he (.inr (.inr (.inr (.inr (.inr (.inl rfl)))))) hs ?_
    rw [hs]
    simp only [List.length_cons, List.length_append]
    omega
  · refine hbody.block (hs.trans hts.symm) rfl rfl (by simp) ?_
    rw [hs, List.length_cons]
    omega
  · rintro c line' b s msc msb hc ⟨hs, hb⟩
    refine .close hs hu fun s hs => .note fun s' hs' => .pure ⟨hs'.trans (hs.trans hus.symm), ?_⟩
    simp only [Stat.allUnlined, Stat.unlined, Expr.unlined_settle, hc, hb]

/-- A loop over values. -/
theorem reads_forCode {hd : Header} (hhd : ownHeader? header = some hd) (hbody : ReadsCode turns body)
    (hcomplete : ∀ i ∈ body.flatten, i.isComplete) (hnext : ∀ i ∈ next.flatten, i.isComplete)
    (hr : r.tokens = (Code.for header body next).tokens ++ k :: rest) (hk : Parse.valid k)
    (hturns : r.tokens.length < turns) :
    Reads IsTooDeep (Level.at turns depth).stat r fun ss s _ =>
      s.tokens = next.tokens ++ k :: rest ∧
        Stat.allUnlined ss = [(ownHeader header).loop body.tree 0] := by
  obtain ⟨u, us, hus, hu⟩ := tokens_head rest hnext hk
  obtain ⟨t, ts, hts, ht⟩ := tokens_head (u :: us) hcomplete
    (show Parse.valid (.word .end) from rfl)
  have hw := ownHeader?_whole hhd
  obtain ⟨v, vs, hvs, hv⟩ := hw.opens
  have hr' : r.tokens = .word .for :: v :: (vs ++ .word .do :: t :: ts) := by
    rw [hr, ← hts, ← hus]
    simp [Code.tokens, Code.flatten, Instr.tokens, hvs]
  have hlength := congrArg List.length hr'
  simp only [List.length_cons, List.length_append] at hlength
  refine reads_stat (k := 0) (.of_bad fun _ => id) fun below _ => .nextLine fun line => .peek hr' ?_
  refine reads_forStat (u := ts) (G := fun hd _ => hd.unlined = ownHeader header)
    (B := fun b ts _ => ts = .word .end :: u :: us ∧ Stat.allUnlined b = body.tree)
    (A := fun ss ts _ => ts = next.tokens ++ k :: rest ∧
      Stat.allUnlined ss = [(ownHeader header).loop body.tree 0])
    hr' hv.1 (fun s hs => ?_) ht (fun s hs => ?_) ?_
  · refine (hw.reads turns below s (t :: ts) (by rw [hs, hvs]; rfl) (by simp) ?_).mono (fun _ => id) ?_
    · rw [hs]
      simp only [List.length_cons, List.length_append]
      omega
    · rintro hd' s ms ⟨hs, halike⟩
      exact ⟨hs, by rw [ownHeader, hhd, Option.getD_some, show _ = _ from halike]⟩
  · refine hbody.block (hs.trans hts.symm) rfl rfl (by simp) ?_
    rw [hs, List.length_cons]
    omega
  · rintro hd' b line' s msh msb hhd' ⟨hs, hb⟩
    refine .close hs hu fun s hs => .note fun s' hs' => .pure ⟨hs'.trans (hs.trans hus.symm), ?_⟩
    rw [Stat.allUnlined, Stat.allUnlined, Header.unlined_loop, hhd', hb]

end

/-- **Trees.**  The grammar reads structured instructions as the statements that they stand for. -/
theorem readsCode (turns : Nat) {code : Code} (hcomplete : ∀ i ∈ code.flatten, i.isComplete)
    (hapart : isApart code.flatten) : ReadsCode turns code := by
  have hexpr {header : String} (h : (Instr.start .ifTag header).isComplete) :
      ∃ e, ownExpr? header = some e := Option.isSome_iff_exists.1 h
  induction code with
  | done => exact fun _ _ _ _ _ _ _ hr _ _ _ hn hQ => hQ _ _ _ hr hn rfl
  | plain i hi next ih =>
    have hsplit : isApart ([i] ++ next.flatten) := hapart
    have hi' : i.isComplete := hcomplete i (List.mem_cons_self ..)
    have hnext : ∀ j ∈ next.flatten, j.isComplete := fun j hj =>
      hcomplete j (List.mem_cons_of_mem _ hj)
    have ih := ih hnext (isApart_append hsplit).2
    cases i with
    | raw text =>
      exact readsCode_call rfl (areArguments_quoted text) (fun es ms h => by rw [h.1]; rfl) rfl hnext ih
    | emit text =>
      obtain ⟨e, he⟩ := Option.isSome_iff_exists.1 hi'
      refine readsCode_call rfl (areArguments_whole (fun _ => id) (ownExpr?_whole he)) ?_ rfl hnext ih
      rintro _ ms ⟨e', line, rfl, halike⟩
      rw [Expr.allUnlined, Expr.unlined_settle, ← show _ = _ from halike, ownExpr, he]
      rfl
    | exec stmt =>
      rw [Instr.isComplete, Bool.and_eq_true, Option.isSome_iff_exists] at hi'
      obtain ⟨⟨b, hb⟩, -⟩ := hi'
      rw [Code.flatten, isApart, Bool.and_eq_true] at hapart
      exact readsCode_exec hb hapart.1 ih
    | openBlock name =>
      exact readsCode_call rfl (areArguments_quoted name) (fun es ms h => by rw [h.1]; rfl) rfl hnext ih
    | closeBlock =>
      exact readsCode_call rfl areArguments_nil (fun es ms h => by rw [h.1]; rfl) rfl hnext ih
    | trim => exact readsCode_call rfl areArguments_nil (fun es ms h => by rw [h.1]; rfl) rfl hnext ih
    | start => cases hi
    | otherwise => cases hi
    | finish => cases hi
  | choice header body next ihbody ihnext =>
    rw [Code.flatten, List.forall_mem_cons, List.forall_mem_append, List.forall_mem_cons] at hcomplete
    obtain ⟨hheader, hbody, -, hnext⟩ := hcomplete
    obtain ⟨hapart, hapart'⟩ := isApart_append (show isApart (_ ++ _) from hapart)
    obtain ⟨e, he⟩ := hexpr hheader
    refine readsCode_construct rfl ⟨_, _, rfl, rfl, by decide⟩ ?_ (fun hr hk hturns =>
      reads_choice he (ihbody hbody hapart) hbody hnext hr hk hturns) (ihnext hnext hapart')
    simp [Code.tokens, Code.flatten, Instr.tokens]
    omega
  | branch header body other next ihbody ihother ihnext =>
    rw [Code.flatten, List.forall_mem_cons, List.forall_mem_append, List.forall_mem_cons,
      List.forall_mem_append, List.forall_mem_cons] at hcomplete
    obtain ⟨hheader, hbody, -, hother, -, hnext⟩ := hcomplete
    obtain ⟨hapart, hapart'⟩ := isApart_append (show isApart (_ ++ _) from hapart)
    obtain ⟨hapart', hapart''⟩ := isApart_append (show isApart (_ ++ _) from hapart')
    obtain ⟨e, he⟩ := hexpr hheader
    refine readsCode_construct rfl ⟨_, _, rfl, rfl, by decide⟩ ?_ (fun hr hk hturns =>
      reads_choiceBranch he (ihbody hbody hapart) (ihother hother hapart') hbody hother hnext hr hk
        hturns) (ihnext hnext hapart'')
    simp [Code.tokens, Code.flatten, Instr.tokens]
    omega
  | «while» header body next ihbody ihnext =>
    rw [Code.flatten, List.forall_mem_cons, List.forall_mem_append, List.forall_mem_cons] at hcomplete
    obtain ⟨hheader, hbody, -, hnext⟩ := hcomplete
    obtain ⟨hapart, hapart'⟩ := isApart_append (show isApart (_ ++ _) from hapart)
    obtain ⟨e, he⟩ := hexpr hheader
    refine readsCode_construct rfl ⟨_, _, rfl, rfl, by decide⟩ ?_ (fun hr hk hturns =>
      reads_whileCode he (ihbody hbody hapart) hbody hnext hr hk hturns) (ihnext hnext hapart')
    simp [Code.tokens, Code.flatten, Instr.tokens]
    omega
  | «for» header body next ihbody ihnext =>
    rw [Code.flatten, List.forall_mem_cons, List.forall_mem_append, List.forall_mem_cons] at hcomplete
    obtain ⟨hheader, hbody, -, hnext⟩ := hcomplete
    obtain ⟨hapart, hapart'⟩ := isApart_append (show isApart (_ ++ _) from hapart)
    obtain ⟨hd, hhd⟩ := Option.isSome_iff_exists.1 hheader
    refine readsCode_construct rfl ⟨_, _, rfl, rfl, by decide⟩ ?_ (fun hr hk hturns =>
      reads_forCode hhd (ihbody hbody hapart) hbody hnext hr hk hturns) (ihnext hnext hapart')
    simp [Code.tokens, Code.flatten, Instr.tokens]
    omega

/-! ### Chunks -/

theorem Instr.isLexed_of_isComplete {i : Instr} (h : i.isComplete) : i.IsLexed := by
  match i, h with
  | .exec stmt, h =>
    rw [isComplete, Bool.and_eq_true, Option.isSome_iff_exists] at h
    obtain ⟨⟨b, hb⟩, -⟩ := h
    exact (complete_of_ownBlock? hb).isLine
  | .emit text, h | .start .ifTag text, h | .start .whileTag text, h =>
    obtain ⟨e, he⟩ := Option.isSome_iff_exists.1 h
    exact (ownExpr?_whole he).isLine
  | .start .forTag text, h =>
    obtain ⟨hd, hhd⟩ := Option.isSome_iff_exists.1 h
    exact (ownHeader?_whole hhd).isLine
  | .raw _, _ | .otherwise, _ | .finish, _ | .openBlock _, _ | .closeBlock, _ | .trim, _ =>
    trivial

/-- The statements of a chunk whose body has some statements, without lines. -/
def chunkTree (body : Block) : Block :=
  [preambleStat, callStat "__open" [.string (bytesOf "root")],
    .localFunction (bytesOf "__body") (.mk [] false body)] ++ closingStats

/-- What the function that holds the instructions mentions. -/
def functionMentions (line : Nat) (ms : List Mention) : List Mention :=
  .declare (bytesOf "__body") .plain :: .activate 1 :: .openFunction line :: .activate 0 ::
    (ms ++ [.closeFunction])

/-- The grammar reads the tokens of a body, up to the end of the function that holds it. -/
def ReadsBody (bad : Refusal → Prop) (turns depth : Nat) (body : List Token)
    (B : Block → List Mention → Prop) : Prop :=
  ∀ ⦃r : Reader⦄, r.tokens = body ++ .word .end :: closingTokens → r.tokens.length < turns →
    Reads bad (Level.at turns depth).stats r fun b s ms =>
      s.tokens = .word .end :: closingTokens ∧ B b ms

/-- The grammar reads the function that holds a body, up to the last lines of the chunk. -/
def ReadsFunction (bad : Refusal → Prop) (turns depth : Nat) (body : List Token)
    (B : Block → List Mention → Prop) : Prop :=
  ∀ ⦃r : Reader⦄, r.tokens = functionTokens ++ (body ++ .word .end :: closingTokens) →
    r.tokens.length < turns →
    Reads bad (Level.at turns (depth + 1)).stat r fun ss s ms =>
      s.tokens = closingTokens ∧ ∃ b line ms', B b ms' ∧
        ss = [.localFunction (bytesOf "__body") (.mk [] false b)] ∧ ms = functionMentions line ms'

section

variable {bad : Refusal → Prop} {body : List Token} {B : Block → List Mention → Prop}

/-- The function that holds the instructions, if it is known what its body and its end give. -/
theorem reads_functionOf {C : Block → List Token → List Mention → Prop}
    (hhead : ∃ t ts, body ++ .word .end :: closingTokens = t :: ts ∧ Parse.valid t)
    (hstats : ∀ r, r.tokens = body ++ .word .end :: closingTokens → r.tokens.length < turns →
      Reads bad (Level.at turns depth).stats r fun b s ms => C b s.tokens ms)
    (hend : ∀ b ms s line, C b s.tokens ms →
      Reads bad (do
        Parse.close (.word .end) (.word .function) line
        Parse.note .closeFunction
        return [Stat.localFunction (bytesOf "__body") (.mk [] false b)]) s fun ss s' ms' =>
          s'.tokens = closingTokens ∧ B b ms ∧
            ss = [Stat.localFunction (bytesOf "__body") (.mk [] false b)] ∧
              ms' = [.closeFunction]) :
    ReadsFunction bad turns depth body B := by
  intro r h hturns
  obtain ⟨t, ts, hts, ht⟩ := hhead
  have hr : r.tokens = functionTokens ++ t :: ts := by rw [h, ← hts]
  have hlength := congrArg List.length hr
  rw [List.length_append] at hlength
  refine .nextLine fun line => .peek hr ?_
  refine .advance hr rfl fun s hs => .skip_true hs rfl fun s hs => ?_
  refine reads_localFunction (B := C)
    (A := fun ss ts ms => ts = closingTokens ∧ ∃ b line ms', B b ms' ∧
      ss = [.localFunction (bytesOf "__body") (.mk [] false b)] ∧ ms = functionMentions line ms')
    hs ht (fun s hs => hstats s (hs.trans hts.symm) (by rw [hs]; omega)) ?_
  intro b line s msb hb
  refine (hend b msb s line hb).mono (fun _ => id) ?_
  rintro _ s' _ ⟨hs', hB, rfl, rfl⟩
  exact ⟨hs', b, line, msb, hB, rfl, rfl⟩

/-- The function that holds the instructions. -/
theorem reads_bodyFunction (hbody : ReadsBody bad turns depth body B)
    (hhead : ∃ t ts, body ++ .word .end :: closingTokens = t :: ts ∧ Parse.valid t) :
    ReadsFunction bad turns depth body B := by
  refine reads_functionOf (C := fun b ts ms => ts = .word .end :: closingTokens ∧ B b ms) hhead
    (fun r hr hturns => hbody hr hturns) ?_
  rintro b ms s line ⟨hs, hB⟩
  exact .close hs rfl fun s hs => .note fun s' hs' => .pure ⟨hs'.trans hs, hB, rfl, rfl⟩

/-- A chunk from its first token to its last. -/
theorem reads_chunkStats (hbody : ReadsFunction bad turns depth body B)
    (hroom : Room bad 2 (depth + 1))
    (h : r.tokens = openingTokens ++ (body ++ .word .end :: closingTokens))
    (hturns : r.tokens.length < turns) :
    Reads bad (Level.at turns (depth + 1)).stats r fun b s ms =>
      s.tokens = [.eof] ∧ ∃ body line ms', B body ms' ∧
        Stat.allUnlined b = chunkTree (Stat.allUnlined body) ∧
        ms = preambleMentions ++ functionMentions line ms' := by
  have hopening : openingTokens.length = 14 + (5 + 5) := rfl
  have hlength := congrArg List.length h
  rw [List.length_append, hopening] at hlength
  rw [openingTokens, List.append_assoc, List.append_assoc] at h
  have hall (n : Nat) (hn : r.tokens.length < n) :
      Reads bad ((Level.at turns (depth + 1)).statsFrom n []) r fun b s ms =>
        s.tokens = [.eof] ∧ ∃ body line ms', B body ms' ∧
          Stat.allUnlined b = chunkTree (Stat.allUnlined body) ∧
          ms = preambleMentions ++ functionMentions line ms' := by
    obtain ⟨n, rfl⟩ : ∃ m, n = m + 1 + 2 + 1 := ⟨n - 4, by omega⟩
    refine reads_turn h rfl (by decide) (reads_preamble hroom h rfl rfl (by decide) hturns) ?_
    rintro ss s _ ⟨hs, hss, rfl⟩
    have hs : s.tokens = (Instr.openBlock "root").tokens ++
      (functionTokens ++ (body ++ .word .end :: closingTokens)) := hs
    have hlen := congrArg List.length hs
    rw [List.length_append, List.length_append, show (Instr.openBlock "root").tokens.length = 5 from rfl,
      show functionTokens.length = 5 from rfl] at hlen
    refine reads_callTurns hroom (areArguments_quoted "root") hs rfl (by omega) ?_
    rintro _ line line' _ s hs ⟨rfl, rfl⟩
    have hs : s.tokens = functionTokens ++ (body ++ .word .end :: closingTokens) := hs
    have hlen := congrArg List.length hs
    rw [List.length_append, show functionTokens.length = 5 from rfl] at hlen
    refine reads_turn hs rfl (by decide) (hbody hs (by omega)) ?_
    rintro _ s' _ ⟨hs', body, line'', ms', hB, rfl, rfl⟩
    have hlen' := congrArg List.length hs'
    rw [show closingTokens.length = 8 from rfl] at hlen'
    refine (reads_closing hroom hs' (by omega) (by omega)).mono (fun _ => id) ?_
    rintro b s ms ⟨hs, hb, rfl⟩
    refine ⟨hs, body, line'', ms', hB, ?_, by rw [List.append_nil, List.nil_append]⟩
    rw [hb]
    simp [Stat.allUnlined, Stat.unlined, Function.unlined, Expr.unlined, Expr.allUnlined, hss, chunkTree,
      callStat]
  rw [Level.stats, Level.at_turns]
  exact hall turns hturns

/-- A script with the tokens of a chunk. -/
theorem reads_chunkScript (hbody : ReadsFunction bad turns depth body B)
    (hroom : Room bad 2 (depth + 1))
    (h : r.tokens = openingTokens ++ (body ++ .word .end :: closingTokens))
    (hturns : r.tokens.length < turns) :
    Reads bad (script (Level.at turns (depth + 1))) r fun b _ ms => ∃ body line ms', B body ms' ∧
      Stat.allUnlined b = chunkTree (Stat.allUnlined body) ∧
      ms = preambleMentions ++ (functionMentions line ms' ++ [.closeFunction]) := by
  refine .look h rfl (.bind (reads_chunkStats hbody hroom h hturns) ?_)
  rintro b s _ ⟨hs, body, line, ms', hB, hb, rfl⟩
  exact .peek hs (.note fun s' hs' => .pure ⟨body, line, ms', hB, hb, by rw [List.append_assoc]⟩)

/-- The script of some instructions, if it is known what the grammar makes of the function that holds
them. -/
theorem readScript_of_function {is : List Instr} (hlexed : ∀ i ∈ is, i.IsLexed)
    (hbody : ∀ turns, ReadsFunction bad turns 198 (is.flatMap Instr.tokens) B) :
    (∃ b, (readScript (lex (bytesOf (chunk is)))).1 = .ok b ∧ ∃ body line ms, B body ms ∧
      Stat.allUnlined b = chunkTree (Stat.allUnlined body) ∧
      (readScript (lex (bytesOf (chunk is)))).2.map (·.1) =
        preambleMentions ++ (functionMentions line ms ++ [.closeFunction])) ∨
    ∃ e, (readScript (lex (bytesOf (chunk is)))).1 = .error e ∧ bad e := by
  have htokens := tokensAt_chunk hlexed
  generalize bytesOf (chunk is) = text at htokens ⊢
  rw [tokensAt, ← lex_eq_lexAt, List.flatMap_append, List.append_assoc] at htokens
  exact readScript_cases (lex text) (reads_chunkScript (hbody _) (fun h => absurd h (by decide))
    htokens (by simp [Reader.tokens]))

/-- The script of some instructions, if it is known what the grammar makes of them. -/
theorem readScript_of_lexed {is : List Instr} (hlexed : ∀ i ∈ is, i.IsLexed)
    (hhead : ∃ t ts, is.flatMap Instr.tokens ++ .word .end :: closingTokens = t :: ts ∧ Parse.valid t)
    (hbody : ∀ turns, ReadsBody bad turns 198 (is.flatMap Instr.tokens) B) :
    (∃ b, (readScript (lex (bytesOf (chunk is)))).1 = .ok b ∧ ∃ body line ms, B body ms ∧
      Stat.allUnlined b = chunkTree (Stat.allUnlined body) ∧
      (readScript (lex (bytesOf (chunk is)))).2.map (·.1) =
        preambleMentions ++ (functionMentions line ms ++ [.closeFunction])) ∨
    ∃ e, (readScript (lex (bytesOf (chunk is)))).1 = .error e ∧ bad e :=
  readScript_of_function hlexed fun turns => reads_bodyFunction (hbody turns) hhead

/-- The script of some complete instructions, if it is known what the grammar makes of them. -/
theorem readScript_of_body {is : List Instr} (hcomplete : ∀ i ∈ is, i.isComplete)
    (hbody : ∀ turns, ReadsBody bad turns 198 (is.flatMap Instr.tokens) B) :
    (∃ b, (readScript (lex (bytesOf (chunk is)))).1 = .ok b ∧ ∃ body line ms, B body ms ∧
      Stat.allUnlined b = chunkTree (Stat.allUnlined body) ∧
      (readScript (lex (bytesOf (chunk is)))).2.map (·.1) =
        preambleMentions ++ (functionMentions line ms ++ [.closeFunction])) ∨
    ∃ e, (readScript (lex (bytesOf (chunk is)))).1 = .error e ∧ bad e :=
  readScript_of_lexed (fun i hi => Instr.isLexed_of_isComplete (hcomplete i hi))
    (tokens_head closingTokens hcomplete rfl) hbody

end

variable {code : Code}

/-- The tree of a chunk, unless it is nested too deeply. -/
theorem readScript_chunk (hcomplete : ∀ i ∈ code.flatten, i.isComplete) (hapart : isApart code.flatten) :
    (∃ body, (readScript (lex (bytesOf (chunk code.flatten)))).1 = .ok body ∧
      Stat.allUnlined body = chunkTree code.tree) ∨
    ∃ e, (readScript (lex (bytesOf (chunk code.flatten)))).1 = .error e ∧ IsTooDeep e := by
  have hbody (turns : Nat) :
      ReadsBody IsTooDeep turns 198 code.tokens fun b _ => Stat.allUnlined b = code.tree :=
    fun _ hr hturns =>
      (readsCode turns hcomplete hapart).block hr rfl rfl (List.cons_ne_nil _ _) hturns
  refine (readScript_of_body hcomplete hbody).imp_left ?_
  rintro ⟨b, hb, body, -, -, htree, hb', -⟩
  exact ⟨b, hb, by rw [hb', htree]⟩

/-- **Instructions stay apart.**  If the control flow of some instructions is balanced, every text is
complete by itself and what comes after a statement begins anew, then the body of their chunk has
exactly the statements of the instructions, one after the other and nested like the constructs, unless
the chunk is nested too deeply. -/
theorem chunk_apart {is : List Instr} (h : Balanced is) (hcomplete : ∀ i ∈ is, i.isComplete)
    (hapart : isApart is) :
    (∃ code : Code, code.flatten = is) ∧ ∀ code : Code, code.flatten = is →
      (∃ body, (readScript (lex (bytesOf (chunk is)))).1 = .ok body ∧
        Stat.allUnlined body = chunkTree code.tree) ∨
      ∃ e, (readScript (lex (bytesOf (chunk is)))).1 = .error e ∧ IsTooDeep e := by
  refine ⟨exists_code h, fun code hcode => ?_⟩
  subst hcode
  exact readScript_chunk hcomplete hapart

/-- A statement, a choice and another statement. -/
theorem chunk_apart_choice :
    (∃ code : Code, code.flatten =
        [.exec "local n = 2", .start .ifTag "n > 1", .emit "n", .finish, .exec "print(n)"]) ∧
      ∀ code : Code, code.flatten =
          [.exec "local n = 2", .start .ifTag "n > 1", .emit "n", .finish, .exec "print(n)"] →
        (∃ body, (readScript (lex (bytesOf (chunk [.exec "local n = 2", .start .ifTag "n > 1",
            .emit "n", .finish, .exec "print(n)"])))).1 = .ok body ∧
          Stat.allUnlined body = chunkTree code.tree) ∨
        ∃ e, (readScript (lex (bytesOf (chunk [.exec "local n = 2", .start .ifTag "n > 1",
          .emit "n", .finish, .exec "print(n)"])))).1 = .error e ∧ IsTooDeep e :=
  chunk_apart (balanced_iff.2 (by decide)) (by decide +kernel) (by decide +kernel)

/-- The statements of the function in a chunk. -/
def bodyStats : Block → Block
  | [_, _, .localFunction _ (.mk _ _ body), _, _] => body
  | _ => []

/-- A statement that starts with a parenthesis after another statement: the two are read as one. -/
theorem chunk_merged :
    ∃ is : List Instr, Balanced is ∧ (∀ i ∈ is, i.isComplete) ∧
      ∃ code : Code, code.flatten = is ∧ ∃ body,
        (readScript (lex (bytesOf (chunk is)))).1 = .ok body ∧
          Stat.allUnlined body ≠ chunkTree code.tree := by
  let code : Code := .plain (.exec "local a = tostring") rfl (.plain (.exec "(\"x\"):upper()") rfl .done)
  have hcount : (match (readScript (lex (bytesOf (chunk code.flatten)))).1 with
      | .ok body => some (bodyStats (Stat.allUnlined body)).length
      | .error _ => none) = some 1 := by
    rw [bytesOf_chunk, bytesOf_opening]
    decide +kernel
  refine ⟨code.flatten, balanced_iff.2 (by decide), by decide +kernel, code, rfl, ?_⟩
  split at hcount
  next body heq =>
    refine ⟨body, heq, fun h => ?_⟩
    rw [h] at hcount
    have htwo : (bodyStats (chunkTree code.tree)).length = 2 := by decide +kernel
    rw [htwo] at hcount
    cases hcount
  next => cases hcount

end Stencil.Template
