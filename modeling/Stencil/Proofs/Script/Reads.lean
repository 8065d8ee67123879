import Stencil.Proofs.Script.Runs

/-!
# Reading known tokens

What a rule of the grammar does when the tokens ahead are known: `Reads` says where it ends, what it
notes down on the way and for which reasons it may be refused.  Most lemmas are about a small rule
with more rules after it, so that a larger rule can be followed from its first token to its last.
-/

namespace Stencil.Script

open Stencil.Text (Bytes bytesOf)

/-- The tokens ahead of a reader. -/
def Reader.tokens (r : Reader) : List Token := r.ahead.map (·.token)

variable {α β : Type}

/-- A rule ends as `Q` says, which sees the result, the reader and what has been noted down, or
it is refused for a reason that `bad` allows. -/
def Reads (bad : Refusal → Prop) (p : Parse α) (r : Reader)
    (Q : α → Reader → List Mention → Prop) : Prop :=
  match p.runOn r with
  | (.ok a, s) =>
    ∃ ms, s.mentions.map (·.1) = ms.reverse ++ r.mentions.map (·.1) ∧ Q a s ms
  | (.error e, _) => bad e

namespace Reads

variable {bad bad' : Refusal → Prop} {p : Parse α} {f : α → Parse β} {r s : Reader}
  {Q Q' : α → Reader → List Mention → Prop} {after : β → Reader → List Mention → Prop}

theorem of_gives {a : α} {ms : List Mention} (h : p.Gives r a s)
    (hm : s.mentions.map (·.1) = ms.reverse ++ r.mentions.map (·.1)) (hpost : Q a s ms) :
    Reads bad p r Q := by
  rw [Reads, h]
  exact ⟨ms, hm, hpost⟩

theorem of_fails (h : p.Fails r) (hbad : ∀ e, bad e) : Reads bad p r Q := by
  obtain ⟨e, s, h⟩ := h
  rw [Reads, h]
  exact hbad e

theorem mono (h : Reads bad p r Q) (hbad : ∀ e, bad e → bad' e)
    (hpost : ∀ a s ms, Q a s ms → Q' a s ms) : Reads bad' p r Q' := by
  rw [Reads] at h ⊢
  split at h
  · obtain ⟨ms, hm, hp⟩ := h
    exact ⟨ms, hm, hpost _ _ _ hp⟩
  · exact hbad _ h

theorem bind (hp : Reads bad p r Q)
    (hf : ∀ a s ms, Q a s ms → Reads bad (f a) s fun b s' ms' => after b s' (ms ++ ms')) :
    Reads bad (p >>= f) r after := by
  rw [Reads] at hp
  rw [Reads, Parse.runOn_bind]
  cases hrun : p.runOn r with
  | mk o s =>
    rw [hrun] at hp
    cases o with
    | error e => exact hp
    | ok a =>
      obtain ⟨ms, hm, hpost⟩ := hp
      have hb := hf a s ms hpost
      rw [Reads] at hb
      dsimp only
      split at hb
      next b s' heq =>
        obtain ⟨ms', hm', hafter⟩ := hb
        rw [heq]
        refine ⟨ms ++ ms', ?_, hafter⟩
        rw [hm', hm, List.reverse_append, List.append_assoc]
      next e s' heq =>
        rw [heq]
        exact hb

theorem pure {a : α} (h : Q a r []) : Reads bad (pure a) r Q :=
  of_gives (Parse.gives_pure a) rfl h

theorem refuse {fault : SyntaxFault} (h : ∀ place, bad ⟨fault, place⟩) :
    Reads bad (Parse.refuse fault : Parse α) r Q := h _

/-! ### Looking -/

theorem head_token {t : Token} {ts : List Token} (h : r.tokens = t :: ts) : r.head.token = t := by
  match ha : r.ahead with
  | [] => rw [Reader.tokens, ha] at h; cases h
  | l :: ls =>
    rw [Reader.tokens, ha, List.map_cons, List.cons.injEq] at h
    rw [Parse.head_eq ha]
    exact h.1

theorem peek {f : Token → Parse β} {t : Token} {ts : List Token} (h : r.tokens = t :: ts)
    (hf : Reads bad (f t) r after) : Reads bad (Parse.peek >>= f) r after := by
  rw [Reads, Parse.runOn_bind, Parse.gives_peek, head_token h]
  exact hf

theorem nextLine {f : Nat → Parse β} (hf : ∀ line, Reads bad (f line) r after) :
    Reads bad (Parse.nextLine >>= f) r after := by
  rw [Reads, Parse.runOn_bind, Parse.gives_nextLine]
  exact hf _

theorem lastLine {f : Nat → Parse β} (hf : ∀ line, Reads bad (f line) r after) :
    Reads bad (Parse.lastLine >>= f) r after := by
  rw [Reads, Parse.runOn_bind, Parse.gives_lastLine]
  exact hf _

/-! ### Taking -/

theorem ahead_of_tokens {t t' : Token} {ts : List Token} (h : r.tokens = t :: t' :: ts) :
    ∃ l l' ls, r.ahead = l :: l' :: ls ∧ l.token = t ∧ l'.token = t' ∧
      ls.map (·.token) = ts := by
  match ha : r.ahead with
  | [] => rw [Reader.tokens, ha] at h; cases h
  | [l] => rw [Reader.tokens, ha] at h; simp at h
  | l :: l' :: ls =>
    rw [Reader.tokens, ha, List.map_cons, List.map_cons, List.cons.injEq, List.cons.injEq] at h
    exact ⟨l, l', ls, rfl, h.1, h.2.1, h.2.2⟩

theorem advance {t t' : Token} {ts : List Token} {q : Parse β} (h : r.tokens = t :: t' :: ts)
    (hv : Parse.valid t') (hq : ∀ s, s.tokens = t' :: ts → Reads bad q s after) :
    Reads bad (Parse.advance >>= fun _ => q) r after := by
  obtain ⟨l, l', ls, ha, -, rfl, rfl⟩ := ahead_of_tokens h
  exact bind (of_gives (Q := fun _ s ms => s.tokens = l'.token :: ls.map (·.token) ∧ ms = [])
    (Parse.gives_advance ha hv) rfl ⟨rfl, rfl⟩) fun _ s _ ⟨hs, hms⟩ => hms ▸ hq s hs

theorem note {m : Mention} {q : Parse β}
    (hq : ∀ s, s.tokens = r.tokens → Reads bad q s fun b s' ms => after b s' (m :: ms)) :
    Reads bad (Parse.note m >>= fun _ => q) r after :=
  bind (of_gives (Q := fun _ s ms => s.tokens = r.tokens ∧ ms = [m])
    (Parse.gives_note m) rfl ⟨rfl, rfl⟩) fun _ s _ ⟨hs, hms⟩ => hms ▸ hq s hs

theorem skip_true {t t' : Token} {ts : List Token} {f : Bool → Parse β}
    (h : r.tokens = t :: t' :: ts) (hv : Parse.valid t')
    (hf : ∀ s, s.tokens = t' :: ts → Reads bad (f true) s after) :
    Reads bad (Parse.skip? t >>= f) r after := by
  rw [Parse.skip?, bind_assoc]
  refine peek h ?_
  rw [if_pos rfl, bind_assoc]
  exact advance h hv hf

theorem skip_false {t t' : Token} {ts : List Token} {f : Bool → Parse β} (h : r.tokens = t :: ts)
    (hne : t ≠ t') (hf : Reads bad (f false) r after) :
    Reads bad (Parse.skip? t' >>= f) r after := by
  rw [Parse.skip?, bind_assoc]
  refine peek h ?_
  rw [if_neg hne]
  exact hf

theorem expect {t t' : Token} {ts : List Token} {q : Parse β} (h : r.tokens = t :: t' :: ts)
    (hv : Parse.valid t') (hq : ∀ s, s.tokens = t' :: ts → Reads bad q s after) :
    Reads bad (Parse.expect t >>= fun _ => q) r after := by
  rw [Parse.expect, bind_assoc]
  exact skip_true h hv hq

theorem close {closing opening t' : Token} {line : Nat} {ts : List Token} {q : Parse β}
    (h : r.tokens = closing :: t' :: ts) (hv : Parse.valid t')
    (hq : ∀ s, s.tokens = t' :: ts → Reads bad q s after) :
    Reads bad (Parse.close closing opening line >>= fun _ => q) r after := by
  rw [Parse.close, bind_assoc]
  exact skip_true h hv hq

theorem close_fails {closing opening t : Token} {line : Nat} {ts : List Token} {q : Parse β}
    (h : r.tokens = t :: ts) (hne : t ≠ closing) (hbad : ∀ e, bad e) :
    Reads bad (Parse.close closing opening line >>= fun _ => q) r after :=
  of_fails (Parse.fails_close (by rw [head_token h]; exact hne) opening line).bind hbad

theorem name {x : Bytes} {t' : Token} {ts : List Token} {f : Bytes → Parse β}
    (h : r.tokens = .name x :: t' :: ts) (hv : Parse.valid t')
    (hf : ∀ s, s.tokens = t' :: ts → Reads bad (f x) s after) :
    Reads bad (Parse.name >>= f) r after := by
  rw [Parse.name, bind_assoc]
  refine peek h ?_
  rw [bind_assoc]
  exact advance h hv hf

end Reads

/-! ### Expressions -/

variable {bad : Refusal → Prop} {r : Reader} {level : Level}

/-- A token that an expression or a list of arguments can start with. -/
def Token.Opens (t : Token) : Prop := Parse.valid t ∧ t ≠ .mark .closeParen

theorem operand_fails (h : ¬ r.head.token.Opens) : level.operand.Fails r := by
  have ht : r.head.token = .mark .closeParen ∨ ∃ f near, r.head.token = .invalid f near := by
    cases ht : r.head.token with
    | invalid f near => exact .inr ⟨f, near, rfl⟩
    | mark m =>
      rw [ht] at h
      exact .inl (Classical.byContradiction fun hne => h ⟨rfl, hne⟩)
    | _ =>
      rw [ht] at h
      exact absurd ⟨rfl, Token.noConfusion⟩ h
  have hprimary : level.primary.Fails r := by
    refine Parse.gives_peek.fails ?_
    rcases ht with ht | ⟨f, near, ht⟩ <;> rw [ht] <;> exact Parse.fails_refuse _
  refine Parse.gives_peek.fails ?_
  rcases ht with ht | ⟨f, near, ht⟩ <;> rw [ht] <;> exact hprimary.bind

theorem readExpr_opens {limit : Nat} {e : Expr} {s : Reader}
    (h : (level.readExpr limit).Gives r e s) : r.head.token.Opens := by
  refine Classical.byContradiction fun hopens => ?_
  have hunary : unaryOp? r.head.token = none := by
    cases ht : r.head.token with
    | word w => rw [ht] at hopens; exact absurd ⟨rfl, Token.noConfusion⟩ hopens
    | mark m =>
      rw [ht] at hopens
      have hm : m = .closeParen := Classical.byContradiction fun hne =>
        hopens ⟨rfl, fun hmark => hne (Token.mark.inj hmark)⟩
      rw [hm]
      rfl
    | _ => rfl
  have hfails : (level.readExpr limit).Fails r := by
    refine Parse.Fails.bind (Parse.gives_peek.fails ?_)
    rw [hunary]
    exact operand_fails hopens
  obtain ⟨e, s', hfails⟩ := hfails
  rw [Parse.Gives, hfails] at h
  cases h

/-- A token that goes on with no expression and no statement. -/
def Token.Stops (t : Token) : Prop :=
  t = .mark .closeParen ∨ t = .mark .semicolon ∨ t = .mark .comma ∨ t = .word .return ∨
    t = .word .then ∨ t = .word .do ∨ t = .eof

theorem Token.Stops.valid {t : Token} (h : t.Stops) : Parse.valid t := by
  rcases h with rfl | rfl | rfl | rfl | rfl | rfl | rfl <;> rfl

theorem reads_suffixes_stop {t : Token} {ts : List Token} (ht : t.Stops) (h : r.tokens = t :: ts)
    {turns : Nat} {e : Expr} {Q : Expr → Reader → List Mention → Prop} (hpost : Q e r []) :
    Reads bad (level.suffixes turns e) r Q := by
  cases turns with
  | zero => exact .pure hpost
  | succ turns =>
    refine .lastLine fun _ => .peek h ?_
    rcases ht with rfl | rfl | rfl | rfl | rfl | rfl | rfl <;> exact .pure hpost

/-- An expression ends before a token that is no operator. -/
theorem reads_operators_end {t : Token} {ts : List Token} (hop : binaryOp? t = none)
    (h : r.tokens = t :: ts) {limit turns : Nat} {e : Expr} {Q : Expr → Reader → List Mention → Prop}
    (hpost : Q e r []) : Reads bad (level.operators limit turns e) r Q := by
  cases turns with
  | zero => exact .pure hpost
  | succ turns =>
    refine .peek h ?_
    rw [hop]
    exact .pure hpost

theorem reads_operators_stop {t : Token} {ts : List Token} (ht : t.Stops) (h : r.tokens = t :: ts)
    {limit turns : Nat} {e : Expr} {Q : Expr → Reader → List Mention → Prop}
    (hpost : Q e r []) : Reads bad (level.operators limit turns e) r Q := by
  have hop : binaryOp? t = none := by
    rcases ht with rfl | rfl | rfl | rfl | rfl | rfl | rfl <;> rfl
  exact reads_operators_end hop h hpost

/-- A string literal by itself. -/
theorem reads_string {v spelled : Bytes} {t : Token} {ts : List Token} (ht : t.Stops)
    (h : r.tokens = .string v spelled :: t :: ts) {limit : Nat}
    {Q : Expr → Reader → List Mention → Prop}
    (hpost : ∀ s, s.tokens = t :: ts → Q (.string v) s []) :
    Reads bad (level.readExpr limit) r Q := by
  refine .bind (Q := fun e s ms => e = .string v ∧ s.tokens = t :: ts ∧ ms = []) ?_ ?_
  · refine .peek h (.peek h ?_)
    exact .advance h ht.valid fun s hs => .pure ⟨rfl, hs, rfl⟩
  · rintro e s ms ⟨rfl, hs, rfl⟩
    exact reads_operators_stop ht hs (hpost s hs)

/-- A numeral by itself. -/
theorem reads_numeral {n : Number} {spelled : Bytes} {t : Token} {ts : List Token} (ht : t.Stops)
    (h : r.tokens = .number n spelled :: t :: ts) {limit : Nat} :
    Reads bad (level.readExpr limit) r fun e s ms => s.tokens = t :: ts ∧ e = .number n ∧ ms = [] := by
  refine .bind (Q := fun e s ms => e = .number n ∧ s.tokens = t :: ts ∧ ms = []) ?_ ?_
  · refine .peek h (.peek h ?_)
    exact .advance h ht.valid fun s hs => .pure ⟨rfl, hs, rfl⟩
  · rintro e s ms ⟨rfl, hs, rfl⟩
    exact reads_operators_stop ht hs ⟨hs, rfl, rfl⟩

/-- A name by itself. -/
theorem reads_name {x : Bytes} {t : Token} {ts : List Token} (ht : t.Stops)
    (h : r.tokens = .name x :: t :: ts) {limit : Nat} :
    Reads bad (level.readExpr limit) r fun e s ms =>
      s.tokens = t :: ts ∧ (∃ line, e = .name x line) ∧ ms = [] := by
  have hprimary : Reads bad level.primary r fun e s ms =>
      s.tokens = t :: ts ∧ (∃ line, e = .name x line) ∧ ms = [] :=
    .peek h (.advance h ht.valid fun s hs => .lastLine fun line => .pure ⟨hs, ⟨line, rfl⟩, rfl⟩)
  have hoperand : Reads bad level.operand r fun e s ms =>
      s.tokens = t :: ts ∧ (∃ line, e = .name x line) ∧ ms = [] := by
    refine .peek h (.bind hprimary ?_)
    rintro e s _ ⟨hs, he, rfl⟩
    exact reads_suffixes_stop ht hs ⟨hs, he, rfl⟩
  refine .bind (.peek h hoperand) ?_
  rintro e s _ ⟨hs, he, rfl⟩
  exact reads_operators_stop ht hs ⟨hs, he, rfl⟩

/-- An expression in parentheses. -/
theorem reads_paren {t k : Token} {ts₀ ts : List Token} (hk : k.Stops)
    (h : r.tokens = .mark .openParen :: t :: ts₀) (ht : Parse.valid t)
    {G : Expr → List Mention → Prop}
    (hexpr : ∀ s, s.tokens = t :: ts₀ → Reads bad level.anyExpr s fun e s ms =>
      s.tokens = .mark .closeParen :: k :: ts ∧ G e ms) {limit : Nat} :
    Reads bad (level.readExpr limit) r fun e s ms =>
      s.tokens = k :: ts ∧ ∃ e' line, e = .paren (e'.settle line) ∧ G e' ms := by
  have hprimary : Reads bad level.primary r fun e s ms =>
      s.tokens = k :: ts ∧ ∃ e' line, e = .paren (e'.settle line) ∧ G e' ms := by
    refine .peek h (.nextLine fun _ => .advance h ht fun s hs => ?_)
    refine .bind (hexpr s hs) fun e s ms ⟨hs, he⟩ => .close hs hk.valid fun s hs => ?_
    refine .lastLine fun line => .pure ?_
    rw [List.append_nil]
    exact ⟨hs, e, line, rfl, he⟩
  have hoperand : Reads bad level.operand r fun e s ms =>
      s.tokens = k :: ts ∧ ∃ e' line, e = .paren (e'.settle line) ∧ G e' ms := by
    refine .peek h (.bind hprimary fun e s ms ⟨hs, he⟩ => reads_suffixes_stop hk hs ?_)
    rw [List.append_nil]
    exact ⟨hs, he⟩
  refine .bind (.peek h hoperand) fun e s ms ⟨hs, he⟩ => reads_operators_stop hk hs ?_
  rw [List.append_nil]
  exact ⟨hs, he⟩

/-! ### Lists of expressions -/

/-- One expression is a list. -/
theorem reads_oneExpr {k : Token} {ts : List Token} (hcomma : k ≠ .mark .comma)
    {G : Expr → List Mention → Prop}
    (hexpr : Reads bad level.anyExpr r fun e s ms => s.tokens = k :: ts ∧ G e ms) :
    Reads bad level.exprsReversed r fun es s ms =>
      s.tokens = k :: ts ∧ ∃ e, es = [e] ∧ G e ms := by
  refine .bind hexpr fun e s ms ⟨hs, he⟩ => ?_
  cases level.turns with
  | zero => exact .pure ⟨hs, e, rfl, by rwa [List.append_nil]⟩
  | succ turns =>
    exact .skip_false hs hcomma (.pure ⟨hs, e, rfl, by rwa [List.append_nil]⟩)

/-! ### Calls -/

/-- No arguments. -/
theorem reads_noArguments {k : Token} {ts : List Token} (hk : Parse.valid k)
    (h : r.tokens = .mark .openParen :: .mark .closeParen :: k :: ts) :
    Reads bad level.arguments r fun args s ms => s.tokens = k :: ts ∧ args.1 = [] ∧ ms = [] := by
  refine .nextLine fun line => .peek h (.advance h rfl fun s hs => ?_)
  exact .skip_true hs hk fun s hs => .pure ⟨hs, rfl, rfl⟩

/-- One argument. -/
theorem reads_oneArgument {t k : Token} {ts₀ ts : List Token} (hk : Parse.valid k)
    (h : r.tokens = .mark .openParen :: t :: ts₀) (ht : t.Opens)
    {G : Expr → List Mention → Prop}
    (hexpr : ∀ s, s.tokens = t :: ts₀ → Reads bad level.anyExpr s fun e s ms =>
      s.tokens = .mark .closeParen :: k :: ts ∧ G e ms) :
    Reads bad level.arguments r fun args s ms =>
      s.tokens = k :: ts ∧ ∃ e line, args.1 = [e.settle line] ∧ G e ms := by
  refine .nextLine fun line => .peek h (.advance h ht.1 fun s hs => ?_)
  refine .skip_false hs ht.2 ?_
  refine .bind (reads_oneExpr (by decide) (hexpr s hs)) ?_
  rintro _ s ms ⟨hs, e, rfl, he⟩
  refine .close hs hk fun s hs => .lastLine fun last => .pure ⟨hs, e, last, rfl, ?_⟩
  rwa [List.append_nil]

/-- A call of a function with a name. -/
theorem reads_call {f : Bytes} {k : Token} {ts₀ u : List Token} (hk : k.Stops)
    (h : r.tokens = .name f :: .mark .openParen :: ts₀) {G : List Expr → List Mention → Prop}
    (hargs : ∀ s, s.tokens = .mark .openParen :: ts₀ → Reads bad level.arguments s
      fun args s ms => s.tokens = k :: u ∧ G args.1 ms) (hturns : 0 < level.turns) :
    Reads bad level.suffixed r fun e s ms =>
      s.tokens = k :: u ∧
        ∃ args line line', e = .call (.name f line) args line' ∧ G args ms := by
  have hprimary : Reads bad level.primary r fun e s ms =>
      s.tokens = .mark .openParen :: ts₀ ∧ (∃ line, e = .name f line) ∧ ms = [] :=
    .peek h (.advance h rfl fun s hs => .lastLine fun line => .pure ⟨hs, ⟨line, rfl⟩, rfl⟩)
  refine .bind hprimary ?_
  rintro _ s _ ⟨hs, ⟨line, rfl⟩, rfl⟩
  obtain ⟨turns, hturns⟩ : ∃ turns, level.turns = turns + 1 := ⟨level.turns - 1, by omega⟩
  rw [hturns]
  refine .lastLine fun line => .peek hs (.bind (hargs s hs) ?_)
  rintro ⟨args, line'⟩ s ms ⟨hs, hgood⟩
  refine reads_suffixes_stop hk hs ⟨hs, args, line, line', rfl, ?_⟩
  simpa using hgood

/-- A call of a function with a name is a statement. -/
theorem reads_callStat {f : Bytes} {k : Token} {ts₀ u : List Token} (hk : k.Stops)
    (hcomma : k ≠ .mark .comma) (h : r.tokens = .name f :: .mark .openParen :: ts₀)
    {G : List Expr → List Mention → Prop}
    (hargs : ∀ s, s.tokens = .mark .openParen :: ts₀ → Reads bad level.arguments s
      fun args s ms => s.tokens = k :: u ∧ G args.1 ms) (hturns : 0 < level.turns) :
    Reads bad level.exprStat r fun ss s ms =>
      s.tokens = k :: u ∧
        ∃ args line line', ss = [.call (.call (.name f line) args line')] ∧ G args ms := by
  refine .bind (reads_call hk h hargs hturns) ?_
  rintro _ s ms ⟨hs, args, line, line', rfl, hgood⟩
  refine .peek hs ?_
  rcases hk with rfl | rfl | rfl | rfl | rfl | rfl | rfl
  case inr.inr.inl => exact absurd rfl hcomma
  all_goals
    refine .pure ⟨hs, args, line, line', rfl, ?_⟩
    simpa using hgood

/-- A call of a function with a name is an expression. -/
theorem reads_callExpr {f : Bytes} {k : Token} {ts₀ u : List Token} (hk : k.Stops)
    (h : r.tokens = .name f :: .mark .openParen :: ts₀) {G : List Expr → List Mention → Prop}
    (hargs : ∀ s, s.tokens = .mark .openParen :: ts₀ → Reads bad level.arguments s
      fun args s ms => s.tokens = k :: u ∧ G args.1 ms) (hturns : 0 < level.turns)
    {limit : Nat} :
    Reads bad (level.readExpr limit) r fun e s ms =>
      s.tokens = k :: u ∧
        ∃ args line line', e = .call (.name f line) args line' ∧ G args ms := by
  refine .bind (.peek h (.peek h (reads_call hk h hargs hturns))) fun e s ms ⟨hs, he⟩ =>
    reads_operators_stop hk hs ?_
  rw [List.append_nil]
  exact ⟨hs, he⟩

/-- A call without arguments is a statement. -/
theorem reads_bareCallStat {f : Bytes} {k : Token} {ts : List Token} (hk : k.Stops)
    (hcomma : k ≠ .mark .comma)
    (h : r.tokens = .name f :: .mark .openParen :: .mark .closeParen :: k :: ts)
    (hturns : 0 < level.turns) :
    Reads bad level.exprStat r fun ss s ms =>
      s.tokens = k :: ts ∧ (∃ line line', ss = [.call (.call (.name f line) [] line')]) ∧
        ms = [] := by
  refine (reads_callStat (u := ts) (G := fun args ms => args = [] ∧ ms = []) hk hcomma h
    (fun s hs => reads_noArguments hk.valid hs) hturns).mono (fun _ => id) ?_
  rintro ss s ms ⟨hs, args, line, line', rfl, rfl, rfl⟩
  exact ⟨hs, ⟨line, line', rfl⟩, rfl⟩

/-- A call without arguments is an expression. -/
theorem reads_bareCallExpr {f : Bytes} {k : Token} {ts : List Token} (hk : k.Stops)
    (h : r.tokens = .name f :: .mark .openParen :: .mark .closeParen :: k :: ts)
    (hturns : 0 < level.turns) {limit : Nat} :
    Reads bad (level.readExpr limit) r fun e s ms =>
      s.tokens = k :: ts ∧ (∃ line line', e = .call (.name f line) [] line') ∧ ms = [] := by
  refine (reads_callExpr (u := ts) (G := fun args ms => args = [] ∧ ms = []) hk h
    (fun s hs => reads_noArguments hk.valid hs) hturns).mono (fun _ => id) ?_
  rintro e s ms ⟨hs, args, line, line', rfl, rfl, rfl⟩
  exact ⟨hs, ⟨line, line', rfl⟩, rfl⟩

end Stencil.Script
