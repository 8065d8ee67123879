import Stencil.Proofs.Script.Mirrored
import Stencil.Proofs.Script.Reads
import Stencil.Proofs.Script.Spelling
import Stencil.Proofs.Script.Surroundings

/-!
# Whole expressions and headers

A text is a whole expression, or a whole header of a loop, if the grammar takes all of it when it
stands by itself in a function without extra arguments (`isWhole`).  What the grammar makes of it is
its own tree (`own?`).  Such a text is read in the same way wherever a script puts it on lines of its
own (`Whole`), unless the script is nested too deeply there.
-/

namespace Stencil.Script

open Stencil.Text (Bytes bytesOf)

/-- Whether a rule takes the whole of a text that is followed by a line break and a closer, and
breaks no rule on names in a function without extra arguments. -/
def isWhole {α : Type} (rule : Level → Parse α) (text closer : String) : Bool :=
  let lexemes := lex (bytesOf text ++ lineEnd (bytesOf closer))
  match (rule (Level.at (lexemes.length + 1) maxDepth)).runOn { ahead := lexemes } with
  | (.ok _, r) =>
    r.ahead.map (·.token) == (lex (bytesOf closer)).map (·.token) &&
      (Scope.checkFrom [Scope.bare] r.mentions.reverse).isNone
  | (.error _, _) => false

/-- Whether a text is one complete expression. -/
def isExpression (text : String) : Bool := isWhole Level.anyExpr text ")"

/-- Whether a text is one complete header of a loop over values. -/
def isHeader (text : String) : Bool := isWhole Level.header text "do"

variable {α : Type} {rule : Level → Parse α} {alike : α → α → Prop} {text closer : String}

/-- What a rule makes of the whole of a text that is followed by a line break and a closer. -/
def own? (rule : Level → Parse α) (text closer : String) : Option α :=
  let lexemes := lex (bytesOf text ++ lineEnd (bytesOf closer))
  match (rule (Level.at (lexemes.length + 1) maxDepth)).runOn { ahead := lexemes } with
  | (.ok a, r) =>
    if r.ahead.map (·.token) = (lex (bytesOf closer)).map (·.token) then some a else none
  | (.error _, _) => none

/-- The tree of a text that is one complete expression. -/
def ownExpr? (text : String) : Option Expr := own? Level.anyExpr text ")"

/-- The tree of a text that is one complete header of a loop over values. -/
def ownHeader? (text : String) : Option Header := own? Level.header text "do"

/-- A rule that reads a part of a script in the same way in two places. -/
structure IsMirrored (rule : Level → Parse α) (alike : α → α → Prop) : Prop where
  mirrors : ∀ (w : Setting) (n : Nat) (level level' : Level), Level.Mirrored w n level level' →
    Mirrors w Mention.IsHeading alike 1 n (rule level) (rule level')
  opens : ∀ (turns depth : Nat) (r s : Reader) (a : α),
    (rule (Level.at turns depth)).Gives r a s → r.head.token.Opens

theorem isMirrored_anyExpr : IsMirrored Level.anyExpr Expr.Alike where
  mirrors _ _ _ _ h := h.anyExpr (.inl rfl)
  opens turns depth r s a h := by
    cases depth with
    | zero => cases h
    | succ depth => exact readExpr_opens h

theorem isMirrored_header : IsMirrored Level.header Header.Alike where
  mirrors _ _ _ _ h := h.header
  opens turns depth r s a h := by
    have hname : ∃ x, r.head.token = .name x := by
      refine Classical.byContradiction fun hne => ?_
      obtain ⟨e, r', hfails⟩ := (Parse.fails_name fun x hx => hne ⟨x, hx⟩).bind
      rw [Parse.Gives, Level.header, hfails] at h
      cases h
    obtain ⟨x, hx⟩ := hname
    rw [hx]
    exact ⟨rfl, Token.noConfusion⟩

/-- The text is nested too deeply. -/
def IsTooDeep (e : Refusal) : Prop := e.fault = .tooDeep

/-- A text that a rule takes as a whole wherever a script puts it on lines of its own, with a result
and mentions of which something is known. -/
structure Whole (rule : Level → Parse α) (text : String) (k : Token)
    (Q : α → List Mention → Prop) : Prop where
  /-- The text has tokens of its own. -/
  isLine : IsLine (bytesOf text)
  /-- They start with something that can start an expression. -/
  opens : ∃ t ts, lineTokens (bytesOf text) = t :: ts ∧ t.Opens
  /-- The rule takes them and leaves what comes after them. -/
  reads : ∀ (turns depth : Nat) (r : Reader) (rest : List Token),
    r.tokens = lineTokens (bytesOf text) ++ k :: rest → rest ≠ [] → r.tokens.length ≤ turns →
    Reads IsTooDeep (rule (Level.at turns depth)) r fun a s ms => s.tokens = k :: rest ∧ Q a ms

theorem Whole.mono {k : Token} {Q Q' : α → List Mention → Prop} (h : Whole rule text k Q)
    (hQ : ∀ a ms, Q a ms → Q' a ms) : Whole rule text k Q' where
  isLine := h.isLine
  opens := h.opens
  reads turns depth r rest hr hrest ht :=
    (h.reads turns depth r rest hr hrest ht).mono (fun _ => id) fun a _ ms ⟨hs, hq⟩ => ⟨hs, hQ a ms hq⟩

/-- A rule that takes a part of a script by itself, up to one lexeme, takes it everywhere, and makes the
same of it. -/
theorem IsMirrored.reads (hrule : IsMirrored rule alike) {turns₁ depth₁ : Nat} {a : α} {s : Reader}
    {pre : List Lexeme} {c e : Lexeme}
    (hgives : (rule (Level.at turns₁ depth₁)).Gives { ahead := pre ++ [c, e] } a s)
    (hs : s.ahead = [c, e]) (ht₁ : pre.length + 1 ≤ turns₁)
    {turns depth : Nat} {r : Reader} {ls rest : List Lexeme} {l : Lexeme}
    (hr : r.ahead = ls ++ l :: rest) (hls : ls.map (·.token) = pre.map (·.token))
    (hl : l.token = c.token) (hrest : rest ≠ []) (ht : r.ahead.length ≤ turns) :
    Reads IsTooDeep (rule (Level.at turns depth)) r fun b s' ms =>
      s'.ahead = l :: rest ∧ alike a b ∧ Nested Mention.IsHeading ms ∧
        (s.mentions.reverse.map (·.1)).map Mention.unlined = ms.map Mention.unlined := by
  let w : Setting := ⟨c.token, c.token, [e], rest, [], r.mentions, List.cons_ne_nil e [], hrest,
    .inl rfl⟩
  have hlen : ls.length = pre.length := by simpa using congrArg List.length hls
  have ht' : pre.length + 1 ≤ turns := by
    rw [hr, List.length_append, List.length_cons] at ht
    omega
  have hmirror := hrule.mirrors w (pre.length + 1) _ _ (Level.mirrored_at ht₁ ht' depth₁ depth)
  have htakes := (hrule.mirrors w (pre.length + 1) _ _ (Level.mirrored_at ht' ht' depth depth)).takes
  have hbeside : w.Beside { ahead := pre ++ [c, e] } r :=
    ⟨pre, ls, c, l, [], [], rfl, hr, rfl, hl, hls.symm, rfl, rfl, fun _ => rfl⟩
  have hinside : w.Inside s := by simp [Setting.Inside, hs, w]
  rcases hmirror.mirrors _ r hbeside (by simp [w]) a s hgives hinside with
    ⟨b, s', hb, halike, ls₁, ls₁', c₁, c₁', ms, ms', ha, ha', -, -, htok, hm, hm', hu⟩ | hdeep
  · have hmentions : s'.mentions.map (·.1) =
        (ms'.map (·.1)).reverse.reverse ++ r.mentions.map (·.1) := by
      rw [List.reverse_reverse, hm', List.map_append]
    obtain ⟨hsuffix, -, ms'', hm'', hn⟩ := htakes r b s' hb
    refine .of_gives hb hmentions ⟨?_, halike, ?_, ?_⟩
    · -- both what is left and what should be left are ends of the same length
      have hnone : ls₁ = [] := by
        have hlength := congrArg List.length ha
        simp only [hs, w, List.length_append, List.length_cons, List.length_nil] at hlength
        exact List.length_eq_zero_iff.1 (by omega)
      have hnone' : ls₁' = [] := by
        rw [hnone] at htok
        exact List.map_eq_nil_iff.1 htok.symm
      rw [hnone', List.nil_append] at ha'
      rw [hr] at hsuffix
      have hlength : s'.ahead.length = (l :: rest).length := by rw [ha']; rfl
      exact (List.suffix_of_suffix_length_le hsuffix (List.suffix_append ls (l :: rest))
        hlength.le).eq_of_length hlength
    · rw [hm', List.append_left_inj] at hm''
      rwa [hm'']
    · have hms : s.mentions = ms := by simpa [w] using hm
      rw [hms, List.map_reverse, List.map_reverse, List.map_reverse, List.map_map, List.map_map]
      exact congrArg List.reverse (hu rfl)
  · obtain ⟨e, s', hrun, hdeep⟩ := hdeep
    rw [Reads, hrun]
    exact hdeep

/-- The lexemes of a text that is followed by a line break and a closer, if they go on to the end. -/
theorem lex_lineEnd (hc : IsCloser (bytesOf closer)) {k : Token}
    (hk : ∀ line, tokensAt line (bytesOf closer) = [k, .eof]) {lexemes : List Lexeme}
    (hlex : lex (bytesOf text ++ lineEnd (bytesOf closer)) = lexemes) {ls : List Lexeme}
    (hsuffix : ls <:+ lexemes) (heof : (ls.map (·.token)).getLast? = some .eof) :
    IsLine (bytesOf text) ∧ ∃ pre c e, lexemes = pre ++ [c, e] ∧
      lineTokens (bytesOf text) = pre.map (·.token) ∧ c.token = k ∧ e.token = .eof := by
  have htokens : tokensAt 1 (bytesOf text ++ lineEnd (bytesOf closer)) = lexemes.map (·.token) := by
    rw [tokensAt, ← lex_eq_lexAt, hlex]
  obtain ⟨before, rfl⟩ := hsuffix
  obtain ⟨ts, hspells⟩ := spells_lineEnd hc (by
    rw [htokens, List.map_append, List.getLast?_append, heof, Option.some_or])
  obtain ⟨hline, rfl⟩ := lineTokens_eq (hspells [])
  obtain ⟨line, htext⟩ := hspells (bytesOf closer) 1
  rw [hk, List.append_assoc] at htext
  obtain ⟨pre, after, hsplit, hpre, hafter⟩ := List.map_eq_append_iff.1 (htokens.symm.trans htext)
  obtain ⟨c, after, rfl, hc, hafter⟩ := List.map_eq_cons_iff.1 hafter
  obtain ⟨e, rfl, he⟩ := List.map_eq_singleton_iff.1 hafter
  exact ⟨hline, pre, c, e, hsplit, hpre.symm, hc, he⟩

/-- What a rule takes as a whole by itself it takes as a whole everywhere, and makes the same of it. -/
theorem whole_of_runOn (hrule : IsMirrored rule alike) (hc : IsCloser (bytesOf closer)) {k : Token}
    (hk : ∀ line, tokensAt line (bytesOf closer) = [k, .eof]) {lexemes : List Lexeme}
    (hlex : lex (bytesOf text ++ lineEnd (bytesOf closer)) = lexemes) {a : α} {s : Reader}
    (hrun : (rule (Level.at (lexemes.length + 1) maxDepth)).Gives { ahead := lexemes } a s)
    (hs : s.ahead.map (·.token) = [k, .eof]) :
    Whole rule text k fun b ms => alike a b ∧ Nested Mention.IsHeading ms ∧
      (s.mentions.reverse.map (·.1)).map Mention.unlined = ms.map Mention.unlined := by
  have hlevel : Level.Mirrored default 0 (Level.at (lexemes.length + 1) maxDepth)
      (Level.at (lexemes.length + 1) maxDepth) :=
    Level.mirrored_at (Nat.zero_le _) (Nat.zero_le _) _ _
  obtain ⟨hsuffix, hcount, -⟩ := (hrule.mirrors _ _ _ _ hlevel).takes _ a s hrun
  obtain ⟨hline, pre, c, e, rfl, hts, hck, -⟩ := lex_lineEnd hc hk hlex hsuffix (by rw [hs]; rfl)
  have hlen : s.ahead.length = 2 := by simpa using congrArg List.length hs
  have hahead : s.ahead = [c, e] :=
    (List.suffix_of_suffix_length_le hsuffix (List.suffix_append pre [c, e]) hlen.le).eq_of_length hlen
  have hopens : ∃ t ts, lineTokens (bytesOf text) = t :: ts ∧ t.Opens := by
    have hhead := hrule.opens _ _ _ s a hrun
    cases pre with
    | nil => simp [hlen] at hcount
    | cons l pre => exact ⟨l.token, pre.map (·.token), by rw [hts, List.map_cons], hhead⟩
  refine ⟨hline, hopens, fun turns depth r rest hr hrest ht => ?_⟩
  obtain ⟨ls, ls', hahead', hls, hls'⟩ := List.map_eq_append_iff.1 hr
  obtain ⟨l, ls', rfl, hl, rfl⟩ := List.map_eq_cons_iff.1 hls'
  refine (hrule.reads hrun hahead (by simp) hahead' (hls.trans hts) (hl.trans hck.symm)
    (fun h => hrest (by rw [h]; rfl)) (by simpa [Reader.tokens] using ht)).mono (fun _ => id)
    fun b s' ms ⟨hs', hpost⟩ => ⟨?_, hpost⟩
  rw [Reader.tokens, hs', List.map_cons, hl]

/-- What is whole by itself does no harm anywhere. -/
theorem whole_of_isWhole (hrule : IsMirrored rule alike) (hc : IsCloser (bytesOf closer)) {k : Token}
    (hk : ∀ line, tokensAt line (bytesOf closer) = [k, .eof]) (h : isWhole rule text closer) :
    Whole rule text k fun _ ms => Scope.Harmless ms := by
  rw [isWhole] at h
  generalize hlex : lex (bytesOf text ++ lineEnd (bytesOf closer)) = lexemes at h
  cases hrun : (rule (Level.at (lexemes.length + 1) maxDepth)).runOn { ahead := lexemes } with
  | mk outcome s =>
    cases outcome with
    | error e => simp [hrun] at h
    | ok a =>
      have hk₁ := hk 1
      rw [tokensAt, ← lex_eq_lexAt] at hk₁
      simp only [hrun, hk₁, Bool.and_eq_true, beq_iff_eq] at h
      obtain ⟨hs, hscope⟩ := h
      refine (whole_of_runOn hrule hc hk hlex hrun hs).mono ?_
      rintro b ms ⟨_, hn, hu⟩
      refine .of_alone hn hu ?_
      have halone := Scope.checkFrom_eq [Scope.bare] s.mentions.reverse
      rw [Option.isNone_iff_eq_none.1 hscope] at halone
      cases hrun : Scope.run [Scope.bare] (s.mentions.reverse.map (·.1)) with
      | ok fs => exact ⟨fs, rfl⟩
      | error fault => rw [hrun] at halone; cases halone

/-- A text has its own tree everywhere. -/
theorem whole_of_own? (hrule : IsMirrored rule alike) (hc : IsCloser (bytesOf closer)) {k : Token}
    (hk : ∀ line, tokensAt line (bytesOf closer) = [k, .eof]) {a : α}
    (h : own? rule text closer = some a) : Whole rule text k fun b _ => alike a b := by
  rw [own?] at h
  generalize hlex : lex (bytesOf text ++ lineEnd (bytesOf closer)) = lexemes at h
  cases hrun : (rule (Level.at (lexemes.length + 1) maxDepth)).runOn { ahead := lexemes } with
  | mk outcome s =>
    cases outcome with
    | error e => simp [hrun] at h
    | ok a' =>
      have hk₁ := hk 1
      rw [tokensAt, ← lex_eq_lexAt] at hk₁
      simp only [hrun, hk₁, Option.ite_none_right_eq_some, Option.some.injEq] at h
      obtain ⟨hs, rfl⟩ := h
      exact (whole_of_runOn hrule hc hk hlex hrun hs).mono fun _ _ h => h.1

theorem isExpression_whole (h : isExpression text) :
    Whole Level.anyExpr text (.mark .closeParen) fun _ ms => Scope.Harmless ms :=
  whole_of_isWhole isMirrored_anyExpr (by decide +kernel) (fun _ => rfl) h

theorem isHeader_whole (h : isHeader text) :
    Whole Level.header text (.word .do) fun _ ms => Scope.Harmless ms :=
  whole_of_isWhole isMirrored_header (by decide +kernel) (fun _ => rfl) h

theorem ownExpr?_whole {e : Expr} (h : ownExpr? text = some e) :
    Whole Level.anyExpr text (.mark .closeParen) fun e' _ => e.Alike e' :=
  whole_of_own? isMirrored_anyExpr (by decide +kernel) (fun _ => rfl) h

theorem ownHeader?_whole {hd : Header} (h : ownHeader? text = some hd) :
    Whole Level.header text (.word .do) fun hd' _ => hd.Alike hd' :=
  whole_of_own? isMirrored_header (by decide +kernel) (fun _ => rfl) h

end Stencil.Script
