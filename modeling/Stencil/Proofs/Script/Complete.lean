import Stencil.Proofs.Script.Statements
import Stencil.Proofs.Script.Whole

/-!
# Complete blocks

A text is a complete block that other statements can follow if the grammar goes through it statement
by statement and comes to its end: if a line break and the word `break` are put after it, that word is
its last statement (`ownBlock?`).  Nothing can follow a `return`, and nothing that is open can be closed
there.

A complete block has the same statements wherever a script puts it on lines of its own, as long as what
comes after it begins anew (`Complete`): a name or a word cannot go on with a statement that is complete,
but a parenthesis can.
-/

namespace Stencil.Script

open Stencil.Text (Bytes bytesOf)

/-- The statements of a text that is a complete block. -/
def ownBlock? (text : String) : Option Block :=
  let lexemes := lex (bytesOf text ++ lineEnd (bytesOf "break"))
  match (Level.at (lexemes.length + 1) maxDepth).stats.runOn { ahead := lexemes } with
  | (.ok b, r) =>
    match b.getLast? with
    | some .break => if r.ahead.map (·.token) = [.eof] then some b.dropLast else none
    | _ => none
  | (.error _, _) => none

/-! ### What a statement ends with -/

/-- What a rule makes of a text has a property. -/
def Yields {α : Type} (P : α → Prop) (p : Parse α) : Prop := ∀ r a s, p.Gives r a s → P a

namespace Yields

variable {α β : Type} {P : α → Prop} {R : β → Prop} {p : Parse α} {f : α → Parse β}

theorem pure {a : α} (h : P a) : Yields P (Pure.pure a) := by
  rintro r a s ⟨⟩
  exact h

theorem chain (hp : Yields P p) (hf : ∀ a, P a → Yields R (f a)) : Yields R (p >>= f) := by
  intro r b s h
  obtain ⟨a, r', ha, hb⟩ := Parse.gives_bind_iff.1 h
  exact hf a (hp r a r' ha) r' b s hb

theorem bind (hf : ∀ a, Yields R (f a)) : Yields R (p >>= f) :=
  chain (P := fun _ => True) (fun _ _ _ _ => trivial) fun a _ => hf a

end Yields

/-- Statements whose last one is no `break`. -/
def EndsSolid (ss : Block) : Prop := ∃ s, ss.getLast? = some s ∧ s ≠ .break

theorem endsSolid_singleton {s : Stat} (h : s ≠ .break) : EndsSolid [s] := ⟨s, rfl, h⟩

theorem EndsSolid.append {ss : Block} (h : EndsSolid ss) (done : Block) : EndsSolid (done ++ ss) := by
  obtain ⟨s, hs, hne⟩ := h
  exact ⟨s, by rw [List.getLast?_append, hs, Option.some_or], hne⟩

theorem gives_peek_iff {α : Type} {f : Token → Parse α} {r s : Reader} {a : α} :
    (Parse.peek >>= f).Gives r a s ↔ (f r.head.token).Gives r a s := Iff.rfl

theorem gives_nextLine_iff {α : Type} {f : Nat → Parse α} {r s : Reader} {a : α} :
    (Parse.nextLine >>= f).Gives r a s ↔ (f r.head.line).Gives r a s := Iff.rfl

namespace Level

variable {level : Level}

theorem endsSolid_exprStat : Yields EndsSolid level.exprStat := by
  refine .bind fun first => .bind fun t => ?_
  have hassign : Yields EndsSolid (do
      moreTargets.check first
      let targets ← level.moreTargets level.turns [first]
      Parse.expect (.mark .assign)
      let values ← level.exprs
      return [Stat.assign targets.reverse values (← Parse.lastLine)]) :=
    .bind fun _ => .bind fun _ => .bind fun _ => .bind fun _ => .bind fun _ =>
      .pure (endsSolid_singleton Stat.noConfusion)
  split
  · exact hassign
  · exact hassign
  · dsimp only
    split
    · exact .pure (endsSolid_singleton Stat.noConfusion)
    · exact .bind fun _ => .pure (endsSolid_singleton Stat.noConfusion)

theorem endsSolid_localStat : Yields EndsSolid level.localStat := by
  refine .bind fun names => .bind fun assigned => ?_
  have hlast (values : List Expr) : Yields EndsSolid (do
      Parse.note (.activate names.reverse.length)
      return [.local names.reverse values (← Parse.lastLine)]) :=
    .bind fun _ => .bind fun _ => .pure (endsSolid_singleton Stat.noConfusion)
  cases assigned with
  | true => exact .bind fun values => hlast values
  | false => exact .bind fun values => hlast values

theorem endsSolid_functionStat (line : Nat) : Yields EndsSolid (level.functionStat line) := by
  refine .bind fun _ => .bind fun _ => .bind fun _ => .bind fun _ => .bind fun _ => ?_
  refine .bind fun target => .bind fun f => ?_
  dsimp only
  split
  · exact .bind fun _ => .pure (endsSolid_singleton Stat.noConfusion)
  · exact .pure (endsSolid_singleton Stat.noConfusion)

theorem endsSolid_forStat (line : Nat) : Yields EndsSolid (level.forStat line) := by
  rw [forStat_eq]
  refine .bind fun _ => .bind fun _ => .bind fun header => .bind fun body => .bind fun _ => ?_
  refine .bind fun _ => .pure (endsSolid_singleton ?_)
  cases header <;> exact Stat.noConfusion

theorem endsSolid_returnStat : Yields EndsSolid level.returnStat := by
  refine .bind fun empty => .bind fun t => ?_
  have hlast (values : List Expr) : Yields EndsSolid (do
      let _ ← Parse.skip? (.mark .semicolon)
      return [.return values]) := .bind fun _ => .pure (endsSolid_singleton Stat.noConfusion)
  split
  · exact .bind fun values => hlast values
  · exact .bind fun values => hlast values

/-- What a statement gives, by its first token: an empty one gives nothing, and only the statement
`break` ends with a `break`. -/
inductive Shape (r s : Reader) (ss : Block) : Prop
  | empty : r.head.token = .mark .semicolon → ss = [] → r.ahead.length ≤ s.ahead.length + 1 →
      Shape r s ss
  | break : r.head.token = .word .break → ss = [.break] → r.ahead.length ≤ s.ahead.length + 1 →
      Shape r s ss
  | solid : r.head.token ≠ .mark .semicolon → r.head.token ≠ .word .break → EndsSolid ss →
      Shape r s ss

/-- A level whose statements have the shape of their first token. -/
def Shaped (level : Level) : Prop := ∀ r ss s, level.stat.Gives r ss s → Shape r s ss

theorem endsSolid_labelStat (h : Shaped level) (line : Nat) :
    Yields EndsSolid (level.labelStat line) := by
  have hempties (turns : Nat) (done : Block) (hdone : done = [] ∨ EndsSolid done) :
      Yields (fun ss => ss = [] ∨ EndsSolid ss) (labelStat.empties level turns done) := by
    induction turns generalizing done with
    | zero => exact .pure hdone
    | succ turns ih =>
      intro r after s hgives
      rw [labelStat.empties, gives_peek_iff] at hgives
      have hstat (ht : r.head.token ≠ .word .break)
          (hgives : (level.stat >>= fun ss => labelStat.empties level turns (done ++ ss)).Gives
            r after s) : after = [] ∨ EndsSolid after := by
        obtain ⟨ss, r', hss, hgives⟩ := Parse.gives_bind_iff.1 hgives
        refine ih (done ++ ss) ?_ r' after s hgives
        cases h r ss r' hss with
        | empty _ hnil => rw [hnil, List.append_nil]; exact hdone
        | «break» hbreak => exact absurd hbreak ht
        | solid _ _ hsolid => exact .inr (hsolid.append done)
      split at hgives
      next ht => exact hstat (by rw [ht]; exact Token.noConfusion) hgives
      next ht => exact hstat (by rw [ht]; exact Token.noConfusion) hgives
      next => cases hgives; exact hdone
  refine .bind fun x => .bind fun _ => .chain (hempties _ [] (.inl rfl)) fun after hafter => ?_
  refine .bind fun _ => .bind fun _ => .pure ?_
  rcases hafter with rfl | hsolid
  · exact endsSolid_singleton Stat.noConfusion
  · exact hsolid.append [.label x]

theorem advance_length {r s : Reader} {u : Unit} (h : Parse.advance.Gives r u s) :
    r.ahead.length ≤ s.ahead.length + 1 := by
  have hs : s = (Parse.advance.runOn r).2 := by rw [h]
  match ha : r.ahead with
  | l :: m :: rest =>
    rw [hs, Parse.runOn_advance ha, Parse.runOn_look_snd]
    exact Nat.le_refl _
  | [] => exact Nat.zero_le _
  | [l] => exact Nat.le_add_left 1 _

theorem shape_readStat (h : Shaped level) {r s : Reader} {ss : Block}
    (hgives : level.readStat.Gives r ss s) : Shape r s ss := by
  rw [readStat, gives_nextLine_iff, gives_peek_iff] at hgives
  have hsolid {p : Parse (List Stat)} (hp : Yields EndsSolid p) (hgives : p.Gives r ss s)
      (hsemi : r.head.token ≠ .mark .semicolon) (hbreak : r.head.token ≠ .word .break) :
      Shape r s ss := .solid hsemi hbreak (hp r ss s hgives)
  split at hgives
  next ht =>
    obtain ⟨_, r', hadvance, hgives⟩ := Parse.gives_bind_iff.1 hgives
    cases hgives
    exact .empty ht rfl (advance_length hadvance)
  next ht =>
    refine hsolid ?_ hgives (by rw [ht]; exact Token.noConfusion) (by rw [ht]; decide)
    exact .bind fun _ => .bind fun _ => .bind fun _ => .pure (endsSolid_singleton Stat.noConfusion)
  next ht =>
    refine hsolid ?_ hgives (by rw [ht]; exact Token.noConfusion) (by rw [ht]; decide)
    exact .bind fun _ => .bind fun _ => .bind fun _ => .bind fun _ => .bind fun _ => .bind fun _ =>
      .bind fun _ => .pure (endsSolid_singleton Stat.noConfusion)
  next ht =>
    refine hsolid ?_ hgives (by rw [ht]; exact Token.noConfusion) (by rw [ht]; decide)
    exact .bind fun _ => .bind fun _ => .bind fun _ => .pure (endsSolid_singleton Stat.noConfusion)
  next ht =>
    exact hsolid (endsSolid_forStat _) hgives (by rw [ht]; exact Token.noConfusion) (by rw [ht]; decide)
  next ht =>
    refine hsolid ?_ hgives (by rw [ht]; exact Token.noConfusion) (by rw [ht]; decide)
    exact .bind fun _ => .bind fun _ => .bind fun _ => .bind fun _ => .bind fun _ => .bind fun _ =>
      .bind fun _ => .bind fun _ => .pure (endsSolid_singleton Stat.noConfusion)
  next ht =>
    exact hsolid (endsSolid_functionStat _) hgives (by rw [ht]; exact Token.noConfusion)
      (by rw [ht]; decide)
  next ht =>
    refine hsolid ?_ hgives (by rw [ht]; exact Token.noConfusion) (by rw [ht]; decide)
    refine .bind fun _ => .bind fun isFunction => ?_
    cases isFunction with
    | true =>
      exact .bind fun _ => .bind fun _ => .bind fun _ => .bind fun _ => .bind fun _ =>
        .pure (endsSolid_singleton Stat.noConfusion)
    | false => exact endsSolid_localStat
  next ht =>
    exact hsolid (.bind fun _ => endsSolid_labelStat h _) hgives (by rw [ht]; decide)
      (by rw [ht]; exact Token.noConfusion)
  next ht =>
    exact hsolid (.bind fun _ => endsSolid_returnStat) hgives (by rw [ht]; exact Token.noConfusion)
      (by rw [ht]; decide)
  next ht =>
    obtain ⟨_, r', hadvance, hgives⟩ := Parse.gives_bind_iff.1 hgives
    obtain ⟨_, r'', hnote, hgives⟩ := Parse.gives_bind_iff.1 hgives
    have hlen := advance_length hadvance
    cases hnote
    cases hgives
    exact .break ht rfl hlen
  next ht =>
    refine hsolid ?_ hgives (by rw [ht]; exact Token.noConfusion) (by rw [ht]; decide)
    exact .bind fun _ => .bind fun _ => .bind fun _ => .bind fun _ =>
      .pure (endsSolid_singleton Stat.noConfusion)
  next hsemi _ _ _ _ _ _ _ _ _ hbreak _ =>
    exact hsolid endsSolid_exprStat hgives hsemi hbreak

/-- **Shapes.**  Every level reads statements of the shape of their first token. -/
theorem shaped_at (turns depth : Nat) : Shaped (Level.at turns depth) := by
  induction depth with
  | zero => rintro r ss s ⟨⟩
  | succ depth ih => exact fun r ss s hgives => shape_readStat ih hgives

end Level

/-! ### Complete blocks in a script -/

/-- What a rule that is mirrored does in the second place. -/
theorem Mirrors.reads {α : Type} {w : Setting} {kind : Mention → Prop} {alike : α → α → Prop}
    {c n : Nat} {p q : Parse α} (h : Mirrors w kind alike c n p q) (hq : Takes kind c q)
    {r r' s : Reader} {a : α} (hbeside : w.Beside r r') (hlen : r.ahead.length ≤ n + w.rest.length)
    (hgives : p.Gives r a s) (hinside : w.Inside s) :
    Reads IsTooDeep q r' fun b s' _ => alike a b ∧ w.Beside s s' := by
  rcases h.mirrors r r' hbeside hlen a s hgives hinside with ⟨b, s', hb, halike, hs⟩ | hdeep
  · obtain ⟨-, -, ms, hms, -⟩ := hq r' b s' hb
    have hmentions : s'.mentions.map (·.1) =
        (ms.map (·.1)).reverse.reverse ++ r'.mentions.map (·.1) := by
      rw [List.reverse_reverse, hms, List.map_append]
    exact .of_gives hb hmentions ⟨halike, hs⟩
  · obtain ⟨e, s', hrun, hdeep⟩ := hdeep
    rw [Reads, hrun]
    exact hdeep

/-- Nothing is read at the end of the text. -/
theorem statsFrom_atEnd {level : Level} {t : Nat} {d b : Block} {r s : Reader}
    (h : r.head.token = .eof) (hgives : (level.statsFrom t d).Gives r b s) : b = d.reverse := by
  cases t with
  | zero => cases hgives; rfl
  | succ t =>
    rw [Level.statsFrom, blockEnds_eq, bind_assoc, gives_peek_iff, pure_bind, h] at hgives
    cases hgives
    rfl

/-- A complete block by itself, from a point before its end on. -/
structure Rest (w : Setting) (turns depth : Nat) (b : Block) (d : Block) (r : Reader) : Prop where
  /-- The part ends with the word that follows the block by itself. -/
  edge : w.edge = .word .break
  /-- Only the end of the text comes after that word. -/
  rest : w.rest.map (·.token) = [.eof]
  inside : w.Inside r
  /-- The block is read to its end, after the statements that have been read before. -/
  gives : ∃ t s, ((Level.at turns depth).statsFrom t d).Gives r b s ∧ s.ahead.length = 1
  last : b.getLast? = some .break

namespace Rest

variable {w : Setting} {turns depth : Nat} {b d : Block} {r r' : Reader}

theorem length_rest (h : Rest w turns depth b d r) : w.rest.length = 1 := by
  simpa using congrArg List.length h.rest

/-- A reader that has passed the word is at the end of the text. -/
theorem head_eq {s : Reader} (h : Rest w turns depth b d r) (hbeside : w.Beside r r')
    (hs : s.ahead <:+ r.ahead) (hout : ¬ w.Inside s) : s.head.token = .eof := by
  obtain ⟨e, he, hetoken⟩ := List.map_eq_singleton_iff.1 h.rest
  obtain ⟨ls, -, c, -, -, -, ha, -⟩ := hbeside
  rw [Setting.Inside, h.length_rest, Nat.not_lt] at hout
  cases hahead : s.ahead with
  | nil => rw [Reader.head, hahead]; rfl
  | cons l rest =>
    rw [hahead] at hout hs
    cases rest with
    | nil =>
      rw [ha, he] at hs
      obtain ⟨pre, hpre⟩ := hs
      have hlast := (List.append_inj' (hpre.trans (List.append_assoc ls [c] [e]).symm) rfl).2
      rw [Reader.head, hahead, List.headD_cons, List.singleton_inj.1 hlast, hetoken]
    | cons m rest => simp at hout

/-- The next statement: the word that the part ends with, or one that comes to its end before that. -/
theorem step (h : Rest w turns depth b d r) (hbeside : w.Beside r r') :
    r.head.token.endsBlock = false ∧ r.head.token ≠ .word .return ∧
      ∃ ss s, (Level.at turns depth).stat.Gives r ss s ∧
        (w.Inside s ∧ s.ahead.length < r.ahead.length ∧ Rest w turns depth b (ss.reverse ++ d) s ∨
          r.ahead.length = w.rest.length + 1 ∧ b = d.reverse ++ [.break]) := by
  have hinside := h.inside
  have hrest := h.length_rest
  rw [Setting.Inside, hrest] at hinside
  obtain ⟨t, s, hgives, hs⟩ := h.gives
  have hshape := Level.shaped_at turns depth r
  have htakes := Level.takes_stat turns depth
  have hlast {ss : Block} (hss : EndsSolid ss) (hb : b = d.reverse ++ ss) : False := by
    obtain ⟨st, hst, hne⟩ := hss
    have hlast := h.last
    rw [hb, List.getLast?_append, hst, Option.some_or] at hlast
    exact hne (Option.some.inj hlast)
  cases t with
  | zero =>
    cases hgives
    omega
  | succ t =>
    rw [Level.statsFrom, blockEnds_eq, bind_assoc, gives_peek_iff, pure_bind] at hgives
    cases hends : r.head.token.endsBlock with
    | true =>
      rw [hends] at hgives
      cases hgives
      omega
    | false =>
      rw [hends, if_neg (by decide), gives_peek_iff] at hgives
      by_cases hreturn : r.head.token = .word .return
      · rw [if_pos hreturn] at hgives
        obtain ⟨ss, s₁, hss, hgives⟩ := Parse.gives_bind_iff.1 hgives
        cases hgives
        cases hshape ss s hss with
        | empty hsemi => rw [hreturn] at hsemi; cases hsemi
        | «break» hbreak => rw [hreturn] at hbreak; cases hbreak
        | solid _ _ hsolid => exact (hlast hsolid (by simp)).elim
      · rw [if_neg hreturn] at hgives
        obtain ⟨ss, s₁, hss, hgives⟩ := Parse.gives_bind_iff.1 hgives
        refine ⟨rfl, hreturn, ss, s₁, hss, ?_⟩
        obtain ⟨hsuffix, hcount, -⟩ := htakes r ss s₁ hss
        by_cases hin : w.Inside s₁
        · have hlen := hin
          rw [Setting.Inside, hrest] at hlen
          exact .inl ⟨hin, by omega, h.edge, h.rest, hin, ⟨t, s, hgives, hs⟩, h.last⟩
        · have hb := statsFrom_atEnd (h.head_eq hbeside hsuffix hin) hgives
          rw [List.reverse_append, List.reverse_reverse] at hb
          rw [Setting.Inside, hrest, Nat.not_lt] at hin
          -- A statement that is one word was the last one, and the word ends the part.
          have hedge (hone : r.ahead.length ≤ s₁.ahead.length + 1) :
              r.ahead.length = w.rest.length + 1 ∧ r.head.token = w.edge := by
            rcases hbeside.cases with ⟨l, ls, -, -, ha, -, -, hlt, -⟩ | ⟨hlen, hhead, -⟩
            · rw [ha, List.length_cons] at hone
              omega
            · exact ⟨hlen, hhead⟩
          cases hshape ss s₁ hss with
          | empty hsemi _ hone =>
            have hhead := (hedge hone).2
            rw [hsemi, h.edge] at hhead
            cases hhead
          | «break» _ hbreak hone => exact .inr ⟨(hedge hone).1, by rw [hb, hbreak]⟩
          | solid _ _ hsolid => exact (hlast hsolid hb).elim

end Rest

/-- **Complete blocks.**  A complete block is read in another place as it is by itself, up to what
comes after it. -/
theorem reads_rest {w : Setting} {turns₁ depth₁ turns depth size : Nat} (ht₁ : size ≤ turns₁)
    (ht : size ≤ turns) {b d done base : Block} {r r' : Reader}
    (h : Rest w turns₁ depth₁ b d r) (hbeside : w.Beside r r')
    (hsize : r.ahead.length ≤ size + w.rest.length)
    (hdone : Stat.allUnlined done = Stat.allUnlined d ++ base) {n : Nat} (hn : r'.tokens.length < n)
    {Q : Block → Reader → Prop}
    (hQ : ∀ n done r, r.tokens = w.edge' :: w.rest'.map (·.token) → r.tokens.length < n →
      Stat.allUnlined done = (Stat.allUnlined b.dropLast).reverse ++ base →
      Reads IsTooDeep ((Level.at turns depth).statsFrom n done) r fun b s _ => Q b s) :
    Reads IsTooDeep ((Level.at turns depth).statsFrom n done) r' fun b s _ => Q b s := by
  have hmirrored := Level.mirrored_at (w := w) ht₁ ht depth₁ depth
  have htakes := Level.takes_stat turns depth
  induction hlen : r.ahead.length using Nat.strong_induction_on generalizing n d done r r' with
  | _ _ ih =>
    obtain ⟨hends, hreturn, ss, s, hss, ⟨hin, hshort, hrest⟩ | ⟨hedge, hb⟩⟩ := h.step hbeside
    · -- The same statement comes next in both places.
      rcases hbeside.cases with ⟨l, ls, l', ls', ha, ha', htoken, -⟩ | ⟨hone, -⟩
      · obtain ⟨n, rfl⟩ : ∃ m, n = m + 1 := ⟨n - 1, by omega⟩
        rw [Parse.head_eq ha, htoken] at hends hreturn
        have hr' : r'.tokens = l'.token :: ls'.map (·.token) := by rw [Reader.tokens, ha', List.map_cons]
        refine reads_turn hr' hends hreturn (hmirrored.stat.reads htakes hbeside hsize hss hin) ?_
        rintro ss' s' ms ⟨halike, hbeside'⟩
        have hlength := hbeside.length
        have hlength' := hbeside'.length
        rw [Reader.tokens, List.length_map] at hn
        refine ih s.ahead.length (by omega) hrest hbeside' (by omega) ?_ ?_ rfl
        · rw [Stat.allUnlined_append, Stat.allUnlined_append, hdone, Stat.allUnlined_reverse,
            Stat.allUnlined_reverse, show _ = _ from halike, List.append_assoc]
        · rw [Reader.tokens, List.length_map]
          omega
      · have hinside := hin
        rw [Setting.Inside] at hinside
        omega
    · -- The statement in the first place is the word that the part ends with.
      refine hQ n done r' ?_ hn ?_
      · obtain ⟨ls, ls', c, c', -, -, ha, ha', -, hc', htokens, -⟩ := hbeside
        have hnone : ls = [] := by
          rw [ha, List.length_append, List.length_cons] at hedge
          exact List.length_eq_zero_iff.1 (by omega)
        rw [hnone] at htokens
        rw [Reader.tokens, ha', List.map_eq_nil_iff.1 htokens.symm, List.nil_append, List.map_cons, hc']
      · rw [hdone, hb, List.dropLast_concat, Stat.allUnlined_reverse, List.reverse_reverse]

/-- A text that is read as the same statements wherever a script puts it on lines of its own. -/
structure Complete (text : String) (b : Block) : Prop where
  /-- The text has tokens of its own. -/
  isLine : IsLine (bytesOf text)
  /-- The first one can be read. -/
  valid : ∀ t ∈ (lineTokens (bytesOf text)).head?, Parse.valid t
  /-- The statements are read one after the other, in front of anything that begins anew. -/
  reads : ∀ {turns depth n : Nat} {r : Reader} {k : Token} {rest : List Token} {done : Block}
    {Q : Block → Reader → Prop},
    r.tokens = lineTokens (bytesOf text) ++ k :: rest → k.begins → rest ≠ [] →
    r.tokens.length ≤ turns → r.tokens.length < n →
    (∀ n done' s, s.tokens = k :: rest → s.tokens.length < n →
      Stat.allUnlined done' = (Stat.allUnlined b).reverse ++ Stat.allUnlined done →
      Reads IsTooDeep ((Level.at turns depth).statsFrom n done') s fun b s _ => Q b s) →
    Reads IsTooDeep ((Level.at turns depth).statsFrom n done) r fun b s _ => Q b s

/-- No statement starts with a token that cannot be read. -/
theorem valid_of_stat {turns depth : Nat} {r s : Reader} {ss : Block}
    (h : (Level.at turns depth).stat.Gives r ss s) : Parse.valid r.head.token := by
  cases ht : r.head.token with
  | invalid f near =>
    cases depth with
    | zero => cases h
    | succ depth =>
      have hfails : (Level.at turns depth).readStat.Fails r := by
        refine Parse.gives_nextLine.fails (Parse.gives_peek.fails ?_)
        rw [ht]
        refine Parse.Fails.bind (Parse.Fails.bind (Parse.gives_peek.fails ?_))
        rw [ht]
        exact Parse.fails_refuse _
      obtain ⟨e, s', hfails⟩ := hfails
      rw [Parse.Gives] at h
      exact absurd (hfails.symm.trans h) (by simp)
  | _ => rfl

theorem complete_of_ownBlock? {text : String} {b : Block} (h : ownBlock? text = some b) :
    Complete text b := by
  rw [ownBlock?] at h
  generalize hlex : lex (bytesOf text ++ lineEnd (bytesOf "break")) = lexemes at h
  cases hrun : (Level.at (lexemes.length + 1) maxDepth).stats.runOn { ahead := lexemes } with
  | mk outcome s =>
    cases outcome with
    | error e => simp [hrun] at h
    | ok b' =>
      simp only [hrun] at h
      split at h
      next hbreak =>
        obtain ⟨hs, hb⟩ := Option.ite_none_right_eq_some.1 h
        obtain rfl := Option.some.inj hb
        obtain ⟨hsuffix, -⟩ := Level.takes_stats _ _ _ b' s hrun
        obtain ⟨hline, pre, c, e, rfl, hpre, hc, he⟩ := lex_lineEnd (k := .word .break)
          (by decide +kernel) (fun _ => rfl) hlex hsuffix (by rw [hs]; rfl)
        have hlength : s.ahead.length = 1 := by simpa using congrArg List.length hs
        have hstart (w : Setting) (hedge : w.edge = .word .break) (hrest : w.rest = [e]) :
            Rest w ((pre ++ [c, e]).length + 1) maxDepth b' [] { ahead := pre ++ [c, e] } :=
          ⟨hedge, by simp [hrest, he], by simp [Setting.Inside, hrest], ⟨_, s, hrun, hlength⟩, hbreak⟩
        refine ⟨hline, fun t ht => ?_, fun {turns depth n r k rest done Q} hr hk hrest hturns hn hQ => ?_⟩
        · let w : Setting := ⟨.word .break, .word .break, [e], [e], [], [], List.cons_ne_nil e [],
            List.cons_ne_nil e [], .inl rfl⟩
          have hbeside : w.Beside { ahead := pre ++ [c, e] } { ahead := pre ++ [c, e] } :=
            ⟨pre, pre, c, c, [], [], rfl, rfl, hc, hc, rfl, rfl, rfl, fun _ => rfl⟩
          obtain ⟨-, -, ss, s', hss, -⟩ := (hstart w rfl rfl).step hbeside
          have hvalid := valid_of_stat hss
          cases pre with
          | nil => rw [hpre] at ht; cases ht
          | cons l pre =>
            rw [hpre] at ht
            cases ht
            exact hvalid
        · obtain ⟨ls, ls', hahead, hls, hls'⟩ := List.map_eq_append_iff.1 hr
          obtain ⟨l, rest', rfl, hl, rfl⟩ := List.map_eq_cons_iff.1 hls'
          have hrest' : rest' ≠ [] := fun h => hrest (by rw [h]; rfl)
          let w : Setting := ⟨.word .break, k, [e], rest', [], r.mentions, List.cons_ne_nil e [], hrest',
            .inr ⟨rfl, hk⟩⟩
          have hbeside : w.Beside { ahead := pre ++ [c, e] } r :=
            ⟨pre, ls, c, l, [], [], rfl, hahead, hc, hl, (hls.trans hpre).symm, rfl, rfl, fun _ => rfl⟩
          have hlen := congrArg List.length hr
          simp only [Reader.tokens, List.length_map, List.length_append, List.length_cons, hpre]
            at hlen hturns
          have hsize₁ : pre.length + 1 ≤ (pre ++ [c, e]).length + 1 := by simp
          have hsize : pre.length + 1 ≤ turns := by omega
          exact reads_rest hsize₁ hsize (hstart w rfl rfl) hbeside (by simp [w]) rfl hn
            fun n done' s' hs' hn' hdone' => hQ n done' s' hs' hn' hdone'
      next => cases h

end Stencil.Script
