import Stencil.Proofs.Script.Mirrored
import Stencil.Proofs.Script.Reads

/-!
# Reading known statements

The rules for statements when the tokens ahead are known: a block turn by turn (`reads_turn`), and
from their first word to their last the kinds of statements that a chunk is made of.  What a block
inside a statement does is an assumption, so that a walk over nested blocks can supply it.
-/

namespace Stencil.Script

open Stencil.Text (Bytes bytesOf)

variable {α β : Type} {bad : Refusal → Prop} {r : Reader} {level : Level}

namespace Reads

variable {after : β → Reader → List Mention → Prop}

theorem look {q : Parse β} {t : Token} {ts : List Token} (h : r.tokens = t :: ts)
    (ht : Parse.valid t) (hq : Reads bad q r after) :
    Reads bad (Parse.look >>= fun _ => q) r after := by
  rw [Reads, Parse.runOn_bind, Parse.look_gives (by rw [head_token h]; exact ht)]
  exact hq

/-- A rule followed by nothing but a result made of its own. -/
theorem map {p : Parse α} {f : α → β} {Q : α → Reader → List Mention → Prop}
    (hp : Reads bad p r Q) (hpost : ∀ a s ms, Q a s ms → after (f a) s ms) :
    Reads bad (p >>= fun a => Pure.pure (f a)) r after :=
  .bind hp fun a s ms h => .pure (by rw [List.append_nil]; exact hpost a s ms h)

theorem usedExpr {G : Expr → List Token → List Mention → Prop} {f : Expr → Parse β}
    (hexpr : Reads bad level.anyExpr r fun e s ms => G e s.tokens ms)
    (hf : ∀ e line s ms, G e s.tokens ms →
      Reads bad (f (e.settle line)) s fun b s' ms' => after b s' (ms ++ ms')) :
    Reads bad (level.usedExpr >>= f) r after := by
  rw [Level.usedExpr, bind_assoc]
  refine .bind hexpr fun e s ms he => ?_
  rw [bind_assoc]
  exact .lastLine fun line => hf e line s ms he

end Reads

/-! ### Blocks -/

variable {t : Token} {ts : List Token}

/-- A block ends where its end is. -/
theorem reads_blockEnd (h : r.tokens = t :: ts) (ht : t.endsBlock) {turns : Nat} {done : List Stat}
    {Q : Block → Reader → List Mention → Prop} (hpost : Q done.reverse r []) :
    Reads bad (level.statsFrom turns done) r Q := by
  cases turns with
  | zero => exact .pure hpost
  | succ turns =>
    rw [Level.statsFrom, blockEnds_eq, bind_assoc]
    refine .peek h ?_
    rw [ht, pure_bind, if_pos rfl]
    exact .pure hpost

/-- A block is read statement by statement. -/
theorem reads_turn (h : r.tokens = t :: ts) (ht : t.endsBlock = false) (hreturn : t ≠ .word .return)
    {turns : Nat} {done : List Stat} {S : List Stat → Reader → List Mention → Prop}
    {Q : Block → Reader → List Mention → Prop} (hstat : Reads bad level.stat r S)
    (hrest : ∀ ss s ms, S ss s ms → Reads bad (level.statsFrom turns (ss.reverse ++ done)) s
      fun b s' ms' => Q b s' (ms ++ ms')) :
    Reads bad (level.statsFrom (turns + 1) done) r Q := by
  rw [Level.statsFrom, blockEnds_eq, bind_assoc]
  refine .peek h ?_
  rw [ht, pure_bind, if_neg (by decide)]
  refine .peek h ?_
  rw [if_neg hreturn]
  exact .bind hstat hrest

/-- Nothing follows a `return`. -/
theorem reads_lastTurn (h : r.tokens = .word .return :: ts) {turns : Nat} {done : List Stat}
    {Q : Block → Reader → List Mention → Prop}
    (hstat : Reads bad level.stat r fun ss s ms => Q (ss.reverse ++ done).reverse s ms) :
    Reads bad (level.statsFrom (turns + 1) done) r Q := by
  rw [Level.statsFrom, blockEnds_eq, bind_assoc]
  refine .peek h ?_
  rw [pure_bind, if_neg (by decide)]
  refine .peek h ?_
  rw [if_pos rfl]
  exact .map hstat fun _ _ _ => id

theorem reads_block {B : Block → List Token → List Mention → Prop}
    (hbody : ∀ s, s.tokens = r.tokens → Reads bad level.stats s fun b s ms => B b s.tokens ms) :
    Reads bad level.block r fun b s ms =>
      ∃ ms', ms = .openBlock false :: (ms' ++ [.closeBlock]) ∧ B b s.tokens ms' := by
  refine .note fun s hs => .bind (hbody s hs) fun b s ms hb => .note fun s' hs' => .pure ?_
  exact ⟨ms, rfl, by rw [hs']; exact hb⟩

/-! ### Statements -/

/-- A semicolon by itself. -/
theorem reads_semicolon (h : r.tokens = .mark .semicolon :: t :: ts) (ht : Parse.valid t) :
    Reads bad level.readStat r fun ss s ms => s.tokens = t :: ts ∧ ss = [] ∧ ms = [] :=
  .nextLine fun _ => .peek h (.advance h ht fun _ hs => .pure ⟨hs, rfl, rfl⟩)

/-- A branch of a choice. -/
theorem reads_branch {w : Word} {t' : Token} {u : List Token} {G : Expr → List Mention → Prop}
    {B : Block → List Token → List Mention → Prop}
    (h : r.tokens = .word w :: t :: ts) (ht : Parse.valid t)
    (hcond : ∀ s, s.tokens = t :: ts → Reads bad level.anyExpr s fun e s ms =>
      s.tokens = .word .then :: t' :: u ∧ G e ms) (ht' : Parse.valid t')
    (hbody : ∀ s, s.tokens = t' :: u → Reads bad level.stats s fun b s ms => B b s.tokens ms) :
    Reads bad level.branch r fun cb s ms =>
      ∃ e line msc msb, cb.1 = e.settle line ∧ G e msc ∧ B cb.2 s.tokens msb ∧
        ms = msc ++ (.openBlock false :: (msb ++ [.closeBlock])) := by
  refine .advance h ht fun s hs => .bind (hcond s hs) fun e s msc ⟨hs, he⟩ => ?_
  refine .expect hs ht' fun s hs => .lastLine fun line => ?_
  refine .map (reads_block fun s' hs' => hbody s' (hs'.trans hs)) ?_
  rintro b s' _ ⟨msb, rfl, hb⟩
  exact ⟨e, line, msc, msb, rfl, he, hb, rfl⟩

/-- A choice without another branch. -/
theorem reads_noOtherwise {turns : Nat} (h : r.tokens = t :: ts) (ht : t ≠ .word .else)
    (ht' : t ≠ .word .elseif) {f : Block → Parse β} {after : β → Reader → List Mention → Prop}
    (hf : Reads bad (f []) r after) : Reads bad (level.otherwise turns >>= f) r after := by
  cases turns with
  | zero => exact hf
  | succ turns =>
    rw [Level.otherwise, bind_assoc]
    refine .peek h ?_
    split
    · exact absurd rfl ht'
    · exact absurd rfl ht
    · exact hf

/-- The other branch of a choice. -/
theorem reads_otherwise {turns : Nat} (hturns : 0 < turns)
    (h : r.tokens = .word .else :: t :: ts) (ht : Parse.valid t)
    {B : Block → List Token → List Mention → Prop}
    (hbody : ∀ s, s.tokens = t :: ts → Reads bad level.stats s fun b s ms => B b s.tokens ms) :
    Reads bad (level.otherwise turns) r fun b s ms =>
      ∃ ms', ms = .openBlock false :: (ms' ++ [.closeBlock]) ∧ B b s.tokens ms' := by
  obtain ⟨turns, rfl⟩ : ∃ n, turns = n + 1 := ⟨turns - 1, by omega⟩
  exact .peek h (.advance h ht fun s hs => reads_block fun s' hs' => hbody s' (hs'.trans hs))

/-- A loop with a condition. -/
theorem reads_whileStat {t' : Token} {u : List Token} {line : Nat}
    {G : Expr → List Mention → Prop} {B : Block → List Token → List Mention → Prop}
    {A : List Stat → List Token → List Mention → Prop}
    (h : r.tokens = .word .while :: t :: ts) (ht : Parse.valid t)
    (hcond : ∀ s, s.tokens = t :: ts → Reads bad level.anyExpr s fun e s ms =>
      s.tokens = .word .do :: t' :: u ∧ G e ms) (ht' : Parse.valid t')
    (hbody : ∀ s, s.tokens = t' :: u → Reads bad level.stats s fun b s ms => B b s.tokens ms)
    (hclose : ∀ e line' b s msc msb, G e msc → B b s.tokens msb →
      Reads bad (do
        Parse.close (.word .end) (.word .while) line
        Parse.note .closeBlock
        return [.while (e.settle line') b]) s fun ss s ms =>
          A ss s.tokens (msc ++ .openBlock true :: .openBlock false ::
            (msb ++ .closeBlock :: ms))) :
    Reads bad (level.whileStat line) r fun ss s ms => A ss s.tokens ms := by
  refine .advance h ht fun s hs => ?_
  refine .usedExpr (G := fun e ts ms => ts = _ ∧ G e ms) (hcond s hs)
    fun e line' s msc ⟨hs, he⟩ => ?_
  refine .note fun s' hs' => .expect (hs'.trans hs) ht' fun s hs => ?_
  refine .bind (reads_block fun s' hs' => hbody s' (hs'.trans hs)) ?_
  rintro b s _ ⟨msb, rfl, hb⟩
  refine (hclose e line' b s msc msb he hb).mono (fun _ => id) fun ss s' ms hafter => ?_
  simpa using hafter

/-- A loop over values. -/
theorem reads_forStat {t' : Token} {u : List Token} {line : Nat}
    {G : Header → List Mention → Prop} {B : Block → List Token → List Mention → Prop}
    {A : List Stat → List Token → List Mention → Prop}
    (h : r.tokens = .word .for :: t :: ts) (ht : Parse.valid t)
    (hheader : ∀ s, s.tokens = t :: ts → Reads bad level.header s fun hd s ms =>
      s.tokens = .word .do :: t' :: u ∧ G hd ms) (ht' : Parse.valid t')
    (hbody : ∀ s, s.tokens = t' :: u → Reads bad level.stats s fun b s ms => B b s.tokens ms)
    (hclose : ∀ hd b line' s msh msb, G hd msh → B b s.tokens msb →
      Reads bad (do
        Parse.close (.word .end) (.word .for) line
        Parse.note .closeBlock
        return [hd.loop b line']) s fun ss s ms =>
          A ss s.tokens (.openBlock true :: (msh ++ .activate hd.hidden :: .openBlock false ::
            .activate hd.own :: .openBlock false :: (msb ++ .closeBlock :: .closeBlock :: ms)))) :
    Reads bad (level.forStat line) r fun ss s ms => A ss s.tokens ms := by
  rw [Level.forStat_eq]
  refine .note fun s hs => .advance (hs.trans h) ht fun s hs => ?_
  refine .bind (hheader s hs) fun hd s msh ⟨hs, hgood⟩ => ?_
  rw [Level.loopBody]
  simp only [bind_assoc, pure_bind]
  refine .note fun s' hs' => .expect (hs'.trans hs) ht' fun s hs => .lastLine fun line' => ?_
  refine .note fun s' hs' => .note fun s'' hs'' => ?_
  refine .bind (reads_block fun s₃ hs₃ => hbody s₃ (hs₃.trans (hs''.trans (hs'.trans hs)))) ?_
  rintro b s _ ⟨msb, rfl, hb⟩
  refine .note fun s' hs' => ?_
  refine (hclose hd b line' s' msh msb hgood (by rw [hs']; exact hb)).mono (fun _ => id) ?_
  intro ss s' ms hafter
  simpa using hafter

/-- A variable about which nothing is said. -/
theorem reads_localKind {f : LocalKind → Parse β} {after : β → Reader → List Mention → Prop}
    (h : r.tokens = t :: ts) (hless : t ≠ .mark .less) (hf : Reads bad (f .plain) r after) :
    Reads bad (Level.localKind >>= f) r after := by
  rw [Level.localKind, bind_assoc]
  exact .skip_false h hless hf

/-- The names of a declaration. -/
theorem reads_localNames {x : Bytes} {xs : List Bytes} {done : List (Bytes × LocalKind)}
    {turns : Nat} (hturns : xs.length < turns) {k : Token} (hk : Parse.valid k)
    (hcomma : k ≠ .mark .comma) (hless : k ≠ .mark .less)
    (h : r.tokens = .name x :: (xs.flatMap (fun y => [.mark .comma, .name y]) ++ k :: ts)) :
    Reads bad (Level.localNames turns done) r fun names s ms =>
      s.tokens = k :: ts ∧ names = ((x :: xs).map fun y => (y, LocalKind.plain)).reverse ++ done ∧
        ms = (x :: xs).map fun y => .declare y .plain := by
  induction xs generalizing r x turns done with
  | nil =>
    obtain ⟨turns, rfl⟩ : ∃ n, turns = n + 1 := ⟨turns - 1, by omega⟩
    refine .name h hk fun s hs => reads_localKind hs hless (.note fun s' hs' => ?_)
    exact .skip_false (hs'.trans hs) hcomma (.pure ⟨hs'.trans hs, rfl, rfl⟩)
  | cons y ys ih =>
    rw [List.length_cons] at hturns
    obtain ⟨turns, rfl⟩ : ∃ n, turns = n + 1 := ⟨turns - 1, by omega⟩
    refine .name h rfl fun s hs => reads_localKind hs (by decide) (.note fun s' hs' => ?_)
    refine .skip_true (hs'.trans hs) rfl fun s hs => (ih (by omega) hs).mono (fun _ => id) ?_
    rintro names s ms ⟨hs, rfl, rfl⟩
    exact ⟨hs, by simp, rfl⟩

/-- Extra arguments as an expression. -/
theorem reads_dots (h : r.tokens = .mark .dots :: t :: ts) (ht : Parse.valid t)
    (hop : binaryOp? t = none) {limit : Nat} :
    Reads bad (level.readExpr limit) r fun e s ms =>
      s.tokens = t :: ts ∧ e = .dots ∧ ms = [.dots] := by
  refine .bind (Q := fun e s ms => s.tokens = t :: ts ∧ e = .dots ∧ ms = [.dots]) ?_ ?_
  · refine .peek h (.peek h (.note fun s hs => ?_))
    exact .advance (hs.trans h) ht fun s hs => .pure ⟨hs, rfl, rfl⟩
  · rintro e s ms ⟨hs, rfl, rfl⟩
    exact reads_operators_end hop hs ⟨hs, rfl, rfl⟩

/-- A declaration of variables with one expression. -/
theorem reads_localStat {x : Bytes} {xs : List Bytes} (hturns : xs.length < level.turns)
    {u : List Token} {k : Token} (hk : k ≠ .mark .comma)
    (h : r.tokens = .name x ::
      (xs.flatMap (fun y => [.mark .comma, .name y]) ++ .mark .assign :: t :: ts))
    (ht : Parse.valid t) {G : Expr → List Mention → Prop}
    (hexpr : ∀ s, s.tokens = t :: ts → Reads bad level.anyExpr s fun e s ms =>
      s.tokens = k :: u ∧ G e ms) :
    Reads bad level.localStat r fun ss s ms =>
      s.tokens = k :: u ∧ ∃ e line line' ms', G e ms' ∧
        ss = [.local ((x :: xs).map fun y => (y, LocalKind.plain)) [e.settle line] line'] ∧
        ms = ((x :: xs).map fun y => Mention.declare y .plain) ++
          (ms' ++ [.activate (xs.length + 1)]) := by
  refine .bind (reads_localNames hturns rfl (by decide) (by decide) h) ?_
  rintro _ s _ ⟨hs, rfl, rfl⟩
  refine .skip_true hs ht fun s hs => ?_
  simp only [if_true, Level.exprs, bind_assoc, pure_bind]
  refine .bind (reads_oneExpr hk (hexpr s hs)) ?_
  rintro _ s ms' ⟨hs, e, rfl, he⟩
  refine .lastLine fun line => ?_
  refine .note fun s' hs' => .lastLine fun line' => .pure ⟨hs'.trans hs, e, line, line', ms', he, ?_⟩
  simp [Level.settleLast]

/-- A local function without parameters. -/
theorem reads_localFunction {x : Bytes}
    (h : r.tokens = .name x :: .mark .openParen :: .mark .closeParen :: t :: ts)
    (ht : Parse.valid t) {B : Block → List Token → List Mention → Prop}
    {A : List Stat → List Token → List Mention → Prop}
    (hbody : ∀ s, s.tokens = t :: ts → Reads bad level.stats s fun b s ms => B b s.tokens ms)
    (hclose : ∀ b line s msb, B b s.tokens msb →
      Reads bad (do
        Parse.close (.word .end) (.word .function) line
        Parse.note .closeFunction
        return [.localFunction x (.mk [] false b)]) s fun ss s ms =>
          A ss s.tokens (.declare x .plain :: .activate 1 :: .openFunction line ::
            .activate 0 :: (msb ++ ms))) :
    Reads bad level.localFunction r fun ss s ms => A ss s.tokens ms := by
  refine .name h rfl fun s hs => .note fun s₁ hs₁ => .note fun s₂ hs₂ => .nextLine fun line => ?_
  have hs₂ := hs₂.trans (hs₁.trans hs)
  rw [Level.function]
  simp only [bind_assoc, Bool.false_eq_true, if_false, pure_bind]
  refine .note fun s₃ hs₃ => .expect (hs₃.trans hs₂) rfl fun s hs => .peek hs ?_
  simp only [if_true, bind_assoc, pure_bind]
  refine .note fun s₄ hs₄ => .expect (hs₄.trans hs) ht fun s hs => ?_
  refine .bind (hbody s hs) fun b s msb hb => ?_
  exact (hclose b line s msb hb).mono (fun _ => id) fun ss s' ms hafter => hafter

/-- A `return` of nothing at the end of a block. -/
theorem reads_bareReturn (h : r.tokens = t :: ts) (ht : t.endsBlock) :
    Reads bad level.returnStat r fun ss s ms => s.tokens = t :: ts ∧ ss = [.return []] ∧ ms = [] := by
  have hne : t ≠ .mark .semicolon := by
    rintro rfl
    cases ht
  rw [Level.returnStat, blockEnds_eq, bind_assoc]
  refine .peek h ?_
  rw [ht, pure_bind]
  exact .peek h (.skip_false h hne (.pure ⟨h, rfl, rfl⟩))

/-- A `return` of one expression. -/
theorem reads_returnStat (h : r.tokens = t :: ts) (ht : t.endsBlock = false)
    (ht' : t ≠ .mark .semicolon) {k : Token} {u : List Token} (hk : k ≠ .mark .comma)
    (hk' : k ≠ .mark .semicolon) {G : Expr → List Mention → Prop}
    (hexpr : Reads bad level.anyExpr r fun e s ms => s.tokens = k :: u ∧ G e ms) :
    Reads bad level.returnStat r fun ss s ms =>
      s.tokens = k :: u ∧ ∃ e line, ss = [.return [e.settle line]] ∧ G e ms := by
  rw [Level.returnStat, blockEnds_eq, bind_assoc]
  refine .peek h ?_
  rw [ht, pure_bind]
  refine .peek h ?_
  simp only [Bool.false_or, decide_eq_true_eq, if_neg ht', Level.exprs, bind_assoc, pure_bind]
  refine .bind (reads_oneExpr hk hexpr) ?_
  rintro _ s ms ⟨hs, e, rfl, he⟩
  refine .lastLine fun line => .skip_false hs hk' (.pure ⟨hs, e, line, rfl, ?_⟩)
  rwa [List.append_nil]

/-! ### Scripts -/

/-- What reading a script gives, if it is known what its rule does. -/
theorem readScript_cases (lexemes : List Lexeme) {Q : Block → List Mention → Prop}
    (h : Reads bad (script (Level.at (lexemes.length + 1) maxDepth)) { ahead := lexemes }
      fun b _ ms => Q b ms) :
    (∃ b, (readScript lexemes).1 = .ok b ∧ Q b ((readScript lexemes).2.map (·.1))) ∨
      ∃ e, (readScript lexemes).1 = .error e ∧ bad e := by
  have hread : readScript lexemes =
      (((script (Level.at (lexemes.length + 1) maxDepth)).runOn { ahead := lexemes }).1,
        ((script (Level.at (lexemes.length + 1) maxDepth)).runOn { ahead := lexemes }).2.mentions.reverse) :=
    rfl
  rw [Reads] at h
  rw [hread]
  split at h
  next b s heq =>
    obtain ⟨ms, hm, hq⟩ := h
    refine .inl ⟨b, by rw [heq], ?_⟩
    rwa [heq, List.map_reverse, hm, List.map_nil, List.append_nil, List.reverse_reverse]
  next e s heq => exact .inr ⟨e, by rw [heq], h⟩

/-- A text is a script if it can be read and its names break no rule. -/
theorem parse_ok_iff {text : Bytes} {b : Block} : parse text = .ok b ↔
    (readScript (lex text)).1 = .ok b ∧ Scope.check (readScript (lex text)).2 = none := by
  rw [parse]
  cases hcheck : Scope.check (readScript (lex text)).2 with
  | none => simp [hcheck]
  | some fault => simp [hcheck]

end Stencil.Script
