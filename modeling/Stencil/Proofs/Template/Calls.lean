import Stencil.Proofs.Script.Statements
import Stencil.Proofs.Template.Pieces

/-!
# Calls in a chunk

Most instructions are calls of the functions that a chunk keeps in its locals.  A call is read as one
statement, with an empty one after it (`reads_callTurns`), and a condition is read up to the
parenthesis that the chunk puts after it (`reads_condition`).  What is known of an embedded text is
known of what is read (`Whole`).
-/

namespace Stencil.Template

open Script
open Stencil.Text (Bytes bytesOf)

/-! ### Levels -/

/-- There is room for `k` levels below, or a refusal for the depth is allowed. -/
def Room (bad : Refusal → Prop) (k depth : Nat) : Prop := depth < k → ∀ e, IsTooDeep e → bad e

section

variable {bad : Refusal → Prop} {k turns depth : Nat} {r : Reader}

theorem Room.of_bad (h : ∀ e, IsTooDeep e → bad e) : Room bad k depth := fun _ => h

theorem Room.below (h : Room bad (k + 1) (depth + 1)) : Room bad k depth :=
  fun hdepth => h (by omega)

/-- A statement is read one level down, if there is one. -/
theorem reads_stat (hroom : Room bad (k + 1) depth) {Q : List Stat → Reader → List Mention → Prop}
    (h : ∀ below, Room bad k below → Reads bad (Level.at turns below).readStat r Q) :
    Reads bad (Level.at turns depth).stat r Q := by
  cases depth with
  | zero => exact .refuse fun place => hroom (Nat.succ_pos k) _ rfl
  | succ below => exact h below hroom.below

/-- An expression is read one level down, if there is one. -/
theorem reads_anyExpr (hroom : Room bad (k + 1) depth) {Q : Expr → Reader → List Mention → Prop}
    (h : ∀ below, Room bad k below → Reads bad ((Level.at turns below).readExpr 0) r Q) :
    Reads bad (Level.at turns depth).anyExpr r Q := by
  cases depth with
  | zero => exact .refuse fun place => hroom (Nat.succ_pos k) _ rfl
  | succ below => exact h below hroom.below

end

/-! ### Arguments -/

/-- Tokens that a call takes as its arguments if there is room for a level, and what is known of
them. -/
def AreArguments (bad : Refusal → Prop) (args : List Token) (Q : List Expr → List Mention → Prop) : Prop :=
  ∀ (turns depth : Nat) (r : Reader) (k : Token) (ts : List Token),
    r.tokens = .mark .openParen :: (args ++ .mark .closeParen :: k :: ts) → Parse.valid k →
    r.tokens.length ≤ turns → Room bad 1 depth →
    Reads bad (Level.at turns depth).arguments r fun args s ms =>
      s.tokens = k :: ts ∧ Q args.1 ms

section

variable {bad : Refusal → Prop}

theorem areArguments_nil : AreArguments bad [] fun es ms => es = [] ∧ ms = [] := by
  intro turns depth r k ts h hk _ _
  exact reads_noArguments hk h

theorem areArguments_quoted (text : String) :
    AreArguments bad [quotedToken text] fun es ms => es = [.string (bytesOf text)] ∧ ms = [] := by
  intro turns depth r k ts h hk _ hroom
  refine (reads_oneArgument (G := fun e ms => e = .string (bytesOf text) ∧ ms = []) hk h
    ⟨rfl, Token.noConfusion⟩ fun s hs => reads_anyExpr hroom fun below _ =>
      reads_string (.inl rfl) hs fun s hs => ⟨hs, rfl, rfl⟩).mono (fun _ => id) ?_
  rintro args s ms ⟨hs, e, line, hargs, rfl, rfl⟩
  exact ⟨hs, hargs, rfl⟩

theorem areArguments_whole (hbad : ∀ e, IsTooDeep e → bad e) {text : String}
    {Q : Expr → List Mention → Prop} (h : Whole Level.anyExpr text (.mark .closeParen) Q) :
    AreArguments bad (lineTokens (bytesOf text)) fun es ms => ∃ e line, es = [e.settle line] ∧ Q e ms := by
  obtain ⟨t, ts', hts, ht⟩ := h.opens
  intro turns depth r k ts hr hk hlen _
  rw [hts, List.cons_append] at hr
  refine reads_oneArgument hk hr ht fun s hs =>
    (h.reads turns depth s (k :: ts) (by rw [hts, hs]; rfl) (by simp) ?_).mono hbad fun _ _ _ => id
  have hlength := congrArg List.length hr
  rw [hs]
  simp only [List.length_cons] at hlength ⊢
  omega

end

/-! ### Statements -/

/-- A call of a function as a statement, without lines. -/
def callStat (f : String) (args : List Expr) : Stat := .call (.call (.name (bytesOf f) 0) args 0)

variable {bad : Refusal → Prop} {r : Reader} {turns depth : Nat}

/-- A call as a statement of its own, and the semicolon after it. -/
theorem reads_callTurns (hroom : Room bad 2 depth) {n : Nat} {f : String} {args : List Token}
    {G : List Expr → List Mention → Prop} (hargs : AreArguments bad args G) {t : Token}
    {ts : List Token} (h : r.tokens = callTokens f args ++ t :: ts) (ht : Parse.valid t)
    (hturns : r.tokens.length < turns) {done : List Stat}
    {Q : Block → Reader → List Mention → Prop}
    (hrest : ∀ es line line' ms s, s.tokens = t :: ts → G es ms →
      Reads bad ((Level.at turns depth).statsFrom n
        (.call (.call (.name (bytesOf f) line) es line') :: done)) s
        fun b s' ms' => Q b s' (ms ++ ms')) :
    Reads bad ((Level.at turns depth).statsFrom (n + 2) done) r Q := by
  rw [callTokens, List.cons_append, List.cons_append, List.append_assoc] at h
  have hlength := congrArg List.length h
  refine reads_turn (S := fun ss s ms => s.tokens = .mark .semicolon :: t :: ts ∧
    ∃ es line line', ss = [.call (.call (.name (bytesOf f) line) es line')] ∧ G es ms)
    h rfl Token.noConfusion ?_ ?_
  · refine reads_stat hroom fun below hbelow => .nextLine fun line => .peek h ?_
    refine reads_callStat (.inr (.inl rfl)) (by decide) h
      (fun s hs => hargs turns below s _ _ hs rfl ?_ hbelow) ?_
    · rw [hs]
      simp only [List.length_cons] at hlength ⊢
      omega
    · rw [Level.at_turns]
      omega
  · rintro ss s ms ⟨hs, es, line, line', rfl, hes⟩
    refine reads_turn hs rfl Token.noConfusion (reads_stat hroom fun below _ => reads_semicolon hs ht) ?_
    rintro ss' s' _ ⟨hs', rfl, rfl⟩
    exact hrest es line line' ms s' hs' hes

/-- The statements at the end of a chunk, without lines: they run the body and give the result. -/
def closingStats : Block :=
  [callStat "__body" [], .return [.call (.name (bytesOf "__render") 0) [] 0]]

/-- The end of a chunk. -/
theorem reads_closing (hroom : Room bad 2 depth) {n : Nat} {done : Block}
    (h : r.tokens = closingTokens) (hn : r.tokens.length < n) (hturns : r.tokens.length < turns) :
    Reads bad ((Level.at turns depth).statsFrom n done) r fun b s ms =>
      s.tokens = [.eof] ∧ Stat.allUnlined b = (Stat.allUnlined done).reverse ++ closingStats ∧ ms = [] := by
  have hlength : r.tokens.length = 8 := congrArg List.length h
  obtain ⟨n, rfl⟩ : ∃ m, n = m + 2 := ⟨n - 2, by omega⟩
  refine reads_turn (S := fun ss s ms => s.tokens = .word .return :: .name (bytesOf "__render") ::
    [.mark .openParen, .mark .closeParen, .eof] ∧ Stat.allUnlined ss = [callStat "__body" []] ∧ ms = [])
    h rfl Token.noConfusion ?_ ?_
  · refine reads_stat hroom fun below _ => .nextLine fun line => .peek h ?_
    refine (reads_bareCallStat (.inr (.inr (.inr (.inl rfl)))) (by decide) h ?_).mono (fun _ => id) ?_
    · rw [Level.at_turns]
      omega
    · rintro ss s ms ⟨hs, ⟨line, line', rfl⟩, rfl⟩
      exact ⟨hs, rfl, rfl⟩
  · rintro ss s _ ⟨hs, hss, rfl⟩
    refine reads_lastTurn hs (reads_stat hroom fun below hbelow => ?_)
    refine .nextLine fun line => .peek hs (.advance hs rfl fun s hs => ?_)
    refine (reads_returnStat (k := .eof) (u := [])
      (G := fun e ms => e.unlined = .call (.name (bytesOf "__render") 0) [] 0 ∧ ms = []) hs rfl
      Token.noConfusion Token.noConfusion Token.noConfusion
      (reads_anyExpr hbelow fun below _ => ?_)).mono (fun _ => id) ?_
    · refine (reads_bareCallExpr (.inr (.inr (.inr (.inr (.inr (.inr rfl)))))) hs ?_).mono
        (fun _ => id) ?_
      · rw [Level.at_turns]
        omega
      · rintro e s ms ⟨hs, ⟨line, line', rfl⟩, rfl⟩
        exact ⟨hs, rfl, rfl⟩
    · rintro ss' s ms ⟨hs, e, line, rfl, he, rfl⟩
      refine ⟨hs, ?_, rfl⟩
      simp [hss, he, Stat.allUnlined, Stat.unlined, Expr.allUnlined, closingStats]

/-- A condition in parentheses. -/
theorem reads_condition {text : String} {Q : Expr → List Mention → Prop}
    (hw : Whole Level.anyExpr text (.mark .closeParen) Q) {k : Token} (hk : k.Stops)
    {ts : List Token} (h : r.tokens = .mark .openParen ::
      (lineTokens (bytesOf text) ++ .mark .closeParen :: k :: ts))
    (hturns : r.tokens.length ≤ turns) :
    Reads IsTooDeep (Level.at turns depth).anyExpr r fun e s ms =>
      s.tokens = k :: ts ∧ ∃ e' line, e = .paren (e'.settle line) ∧ Q e' ms := by
  obtain ⟨t, ts', hts, ht⟩ := hw.opens
  rw [hts, List.cons_append] at h
  refine reads_anyExpr (k := 0) (.of_bad fun _ => id) fun below _ => reads_paren hk h ht.1 fun s hs =>
    hw.reads turns below s (k :: ts) (by rw [hts, hs]; rfl) (by simp) ?_
  have hlength := congrArg List.length h
  rw [hs]
  simp only [List.length_cons] at hlength ⊢
  omega

end Stencil.Template
