import Stencil.Proofs.Script.Mirror

/-!
# The grammar in two places

Every rule of the grammar reads a part of a script in the same way in two places, if the rules one
level below do: one lemma for each rule, in the order of the rules.  Loops go round once for a
lexeme at most, so they come to their end in both places.
-/

namespace Stencil.Script

open Stencil.Text (Bytes bytesOf)

/-! ### The parts of a function -/

namespace Level

/-- A function after its parameters, up to its last mention. -/
def functionBody (level : Level) (line : Nat) (self : List Bytes) (params : List Bytes × Bool) :
    Parse Function := do
  Parse.note (.activate params.1.length)
  Parse.expect (.mark .closeParen)
  let body ← level.stats
  Parse.close (.word .end) (.word .function) line
  return .mk (self ++ params.1) params.2 body

/-- A function after its name, between its first mention and its last. -/
def functionInside (level : Level) (isMethod : Bool) (line : Nat) : Parse Function := do
  Parse.expect (.mark .openParen)
  if isMethod then
    Parse.note (.declare (bytesOf "self") .plain)
    Parse.note (.activate 1)
  let params ←
    if (← Parse.peek) = .mark .closeParen then pure ([], false) else params level.turns []
  level.functionBody line (if isMethod then [bytesOf "self"] else []) params

theorem function_eq (level : Level) (isMethod : Bool) (line : Nat) :
    level.function isMethod line = do
      Parse.note (.openFunction line)
      let f ← level.functionInside isMethod line
      Parse.note .closeFunction
      return f := by
  rw [Level.function]
  refine bind_congr fun _ => ?_
  rw [functionInside, bind_assoc]
  refine bind_congr fun _ => ?_
  cases isMethod with
  | true =>
    simp only [if_true, bind_assoc]
    refine bind_congr fun _ => bind_congr fun _ => bind_congr fun t => ?_
    by_cases ht : t = .mark .closeParen
    · simp [ht, functionBody]
    · simp [ht, functionBody]
  | false =>
    simp only [Bool.false_eq_true, if_false, bind_assoc]
    refine bind_congr fun t => ?_
    by_cases ht : t = .mark .closeParen
    · simp [ht, functionBody]
    · simp [ht, functionBody]

/-- An item of a table that starts with a token; `assigned` tells whether the next one gives it a
value. -/
def fieldAt (level : Level) (first : Token) (assigned : Bool) : Parse Field :=
  match first, assigned with
  | .name x, true => do
    Parse.advance
    field.entry level (.string x)
  | .mark .openBracket, _ => do
    Parse.advance
    let key ← level.usedExpr
    Parse.expect (.mark .closeBracket)
    field.entry level key
  | _, _ => do return .item (← level.anyExpr)

/-- The rule for an item is chosen by two lexemes, the second of which can be read if the first one
is a name. -/
theorem runOn_field (level : Level) {r : Reader} {l m : Lexeme} {rest : List Lexeme}
    (h : r.ahead = l :: m :: rest) (hm : ∀ x, l.token = .name x → Parse.valid m.token) :
    level.field.runOn r = (level.fieldAt l.token (m.token = .mark .assign)).runOn r := by
  have hget : (get : Parse Reader).runOn r = (.ok r, r) := rfl
  rw [field, Parse.runOn_bind, hget]
  dsimp only
  rw [h]
  obtain ⟨t, line⟩ := l
  cases t with
  | name x =>
    have hm := hm x rfl
    dsimp only
    split
    next heq => rw [heq] at hm; cases hm
    next =>
      by_cases ha : m.token = .mark .assign
      · simp [ha, fieldAt]
      · simp [ha, fieldAt]
  | mark k => cases k <;> rfl
  | _ => rfl

theorem field_fails (level : Level) {r : Reader} {l m : Lexeme} {rest : List Lexeme} {x : Bytes}
    (h : r.ahead = l :: m :: rest) (hl : l.token = .name x) (hm : Parse.valid m.token = false) :
    level.field.Fails r := by
  have hget : (get : Parse Reader).runOn r = (.ok r, r) := rfl
  rw [Parse.Fails, field, Parse.runOn_bind, hget]
  dsimp only
  rw [h]
  obtain ⟨t, line⟩ := l
  subst hl
  dsimp only
  split
  next f _ heq => exact ⟨_, _, rfl⟩
  next hne =>
    cases ht : m.token with
    | invalid f near => exact absurd ht (hne f near)
    | _ => rw [ht] at hm; cases hm

end Level

/-! ### The header of a loop -/

/-- A loop over values without its body. -/
inductive Header where
  /-- A loop over numbers. -/
  | numeric (name : Bytes) (start stop : Expr) (step : Option Expr)
  /-- A loop over the values of an iterator, which are read on a line. -/
  | generic (names : List Bytes) (values : List Expr) (line : Nat)

namespace Header

/-- How many variables a loop keeps for itself. -/
def hidden : Header → Nat
  | .numeric .. => 3
  | .generic .. => 4

/-- How many variables a loop has. -/
def own : Header → Nat
  | .numeric .. => 1
  | .generic names _ _ => names.length

/-- The loop with a body, whose first word is on a line. -/
def loop (header : Header) (body : Block) (line : Nat) : Stat :=
  match header with
  | .numeric x start stop step => .numericFor x start stop step body line
  | .generic names values valuesLine => .genericFor names values body valuesLine line

/-- A header without its lines. -/
def unlined : Header → Header
  | .numeric x start stop step =>
    .numeric x start.unlined stop.unlined (Expr.optionUnlined step)
  | .generic names values _ => .generic names (Expr.allUnlined values) 0

/-- Headers that differ in lines only. -/
abbrev Alike : Header → Header → Prop := Same unlined

theorem hidden_unlined (header : Header) : header.unlined.hidden = header.hidden := by
  cases header <;> rfl

theorem own_unlined (header : Header) : header.unlined.own = header.own := by
  cases header <;> rfl

theorem unlined_loop (header : Header) (body : Block) (line : Nat) :
    (header.loop body line).unlined = header.unlined.loop (Stat.allUnlined body) 0 := by
  cases header <;> rfl

namespace Alike

variable {a b : Header}

theorem hidden (h : a.Alike b) : a.hidden = b.hidden := by
  rw [← hidden_unlined, ← hidden_unlined b]
  exact congrArg Header.hidden h

theorem own (h : a.Alike b) : a.own = b.own := by
  rw [← own_unlined, ← own_unlined b]
  exact congrArg Header.own h

theorem loop (h : a.Alike b) {body body' : Block} (hbody : body.Alike body') (line line' : Nat) :
    Block.Alike [a.loop body line] [b.loop body' line'] := by
  have hloop : (a.loop body line).unlined = (b.loop body' line').unlined := by
    rw [unlined_loop, unlined_loop]
    exact congrArg₂ (fun header body => header.loop body 0) h hbody
  exact congrArg (fun s => [s]) hloop

end Alike

end Header

namespace Level

variable (level : Level)

/-- The header of a loop over numbers, after its variable. -/
def numericHeader (x : Bytes) : Parse Header := do
  loopState 3
  Parse.note (.declare x .plain)
  Parse.expect (.mark .assign)
  let start ← level.usedExpr
  Parse.expect (.mark .comma)
  let stop ← level.usedExpr
  let step ← (do
    if ← Parse.skip? (.mark .comma) then return some (← level.usedExpr) else return none)
  return .numeric x start stop step

/-- The header of a loop over the values of an iterator, after its first variable. -/
def genericHeader (x : Bytes) : Parse Header := do
  loopState 4
  Parse.note (.declare x .plain)
  let names := (← moreNames level.turns [x]).reverse
  Parse.expect (.word .in)
  let line ← Parse.nextLine
  let values ← level.exprs
  return .generic names values line

/-- The header of a loop, after its first word. -/
def header : Parse Header := do
  let x ← Parse.name
  match ← Parse.peek with
  | .mark .assign => level.numericHeader x
  | .mark .comma | .word .in => level.genericHeader x
  | _ => Parse.refuse (.expected "'=' or 'in'")

/-- A loop is a header and a body. -/
theorem forStat_eq (line : Nat) :
    level.forStat line = do
      Parse.note (.openBlock true)
      Parse.advance
      let header ← level.header
      let (body, start) ← level.loopBody header.hidden header.own
      Parse.close (.word .end) (.word .for) line
      Parse.note .closeBlock
      return [header.loop body start] := by
  rw [forStat, header]
  refine bind_congr (m := Parse) fun _ => ?_
  refine bind_congr (m := Parse) fun _ => ?_
  rw [bind_assoc]
  refine bind_congr (m := Parse) fun x => ?_
  rw [bind_assoc, bind_assoc]
  refine bind_congr (m := Parse) fun t => ?_
  cases t with
  | mark m =>
    cases m with
    | assign =>
      simp only [numericFor, numericHeader, bind_assoc, pure_bind]
      rfl
    | comma =>
      simp only [genericFor, genericHeader, bind_assoc, pure_bind]
      rfl
    | _ => rfl
  | word w =>
    cases w with
    | «in» =>
      simp only [genericFor, genericHeader, bind_assoc, pure_bind]
      rfl
    | _ => rfl
  | _ => rfl

end Level

/-! ### Ends of blocks -/

/-- Whether a block ends at a token. -/
def Token.endsBlock : Token → Bool
  | .word .else | .word .elseif | .word .end | .word .until | .eof => true
  | _ => false

theorem blockEnds_eq :
    Level.blockEnds true = (do
      let t ← Parse.peek
      return t.endsBlock) := by
  rw [Level.blockEnds]
  refine bind_congr (m := Parse) fun t => ?_
  cases t with
  | word w => cases w <;> rfl
  | _ => rfl

/-! ### Levels -/

/-- The rules of two levels read a part of a script alike, as long as at most `size` lexemes of it
are left. -/
structure Level.Mirrored (w : Setting) (size : Nat) (level level' : Level) : Prop where
  turns : size ≤ level.turns
  turns' : size ≤ level'.turns
  expr : ∀ limit, Mirrors w Mention.IsQuiet Expr.Alike 1 size (level.expr limit)
    (level'.expr limit)
  stat : Mirrors w Mention.IsInner Block.Alike 1 size level.stat level'.stat

namespace Level

namespace Mirrored

variable {w : Setting} {n m c : Nat} {level level' : Level} {kind : Mention → Prop}

theorem less (h : Mirrored w n level level') (hm : m ≤ n) : Mirrored w m level level' :=
  ⟨Nat.le_trans hm h.turns, Nat.le_trans hm h.turns', fun limit => (h.expr limit).less hm,
    h.stat.less hm⟩

theorem tail (h : Mirrored w n level level') : Mirrored w (n - 1) level level' :=
  h.less (Nat.sub_le n 1)

/-! ### Lists of expressions -/

theorem anyExpr (hk : kind .dots) (h : Mirrored w n level level') :
    Mirrors w kind Expr.Alike 1 n level.anyExpr level'.anyExpr :=
  (h.expr 0).widen fun _ hm => hm ▸ hk

theorem usedExpr (hk : kind .dots) (h : Mirrored w n level level') :
    Mirrors w kind Expr.Alike 1 n level.usedExpr level'.usedExpr := by
  refine (h.anyExpr hk).after fun e e' he => ?_
  exact Mirrors.lastLine.bind fun line line' _ => .pure (he.settle line line')

theorem settleLast {es es' : List Expr} (h : Expr.AllAlike es es') (line line' : Nat) :
    Expr.AllAlike (Level.settleLast line es) (Level.settleLast line' es') := by
  have hsettle (line : Nat) (es : List Expr) :
      Expr.allUnlined (Level.settleLast line es) = Expr.allUnlined es := by
    cases es with
    | nil => rfl
    | cons e es => exact congrArg (fun u => u :: Expr.allUnlined es) (Expr.unlined_settle line e)
  exact (hsettle line es).trans (Eq.trans h (hsettle line' es').symm)

theorem moreExprs (hk : kind .dots) (h : Mirrored w n level level') {done done' : List Expr}
    (hdone : Expr.AllAlike done done') :
    Mirrors w kind Expr.AllAlike 0 n (level.moreExprs level.turns done)
      (level'.moreExprs level'.turns done') := by
  refine .loop Expr.AllAlike (fun done _ _ => .pure done) (fun m t t' hm ih done done' hdone => ?_)
    h.turns h.turns' hdone
  refine .skip ?_ (.pure hdone) (Nat.zero_le 1) (.inl rfl)
  refine Mirrors.lastLine.bind fun line line' _ => ?_
  exact ((h.less hm).tail.anyExpr hk).weaken.bind fun _ _ he =>
    ih _ _ (.cons he (settleLast hdone line line'))

theorem exprsReversed (hk : kind .dots) (h : Mirrored w n level level') :
    Mirrors w kind Expr.AllAlike 1 n level.exprsReversed level'.exprsReversed :=
  (h.anyExpr hk).after fun _ _ he => h.tail.moreExprs hk (.cons he rfl)

theorem exprs (hk : kind .dots) (h : Mirrored w n level level') :
    Mirrors w kind Expr.AllAlike 1 n level.exprs level'.exprs :=
  (h.exprsReversed hk).after fun _ _ hes =>
    Mirrors.lastLine.bind fun line line' _ => .pure (settleLast hes line line').reverse

/-! ### Blocks -/

theorem stats (h : Mirrored w n level level') :
    Mirrors w Mention.IsInner Block.Alike 0 n level.stats level'.stats := by
  refine .loop Block.Alike (fun done _ _ => .pure done.reverse)
    (fun m t t' hm ih done done' hdone => ?_) h.turns h.turns' (rfl : Block.Alike [] [])
  have hturn : Mirrors w Mention.IsInner Block.Alike 1 m
      (do
        if (← Parse.peek) = .word .return then
          let ss ← level.stat
          return (ss.reverse ++ done).reverse
        else
          let ss ← level.stat
          level.statsFrom t (ss.reverse ++ done))
      (do
        if (← Parse.peek) = .word .return then
          let ss ← level'.stat
          return (ss.reverse ++ done').reverse
        else
          let ss ← level'.stat
          level'.statsFrom t' (ss.reverse ++ done')) := by
    refine .look_at_taken fun u => ?_
    by_cases hu : u = .word .return
    · rw [if_pos hu, if_pos hu]
      exact (h.less hm).stat.after fun _ _ hss => .pure (hss.reverse.append hdone).reverse
    · rw [if_neg hu, if_neg hu]
      exact (h.less hm).stat.after fun _ _ hss => ih _ _ (hss.reverse.append hdone)
  rw [Level.statsFrom, Level.statsFrom, blockEnds_eq, bind_assoc, bind_assoc]
  simp only [pure_bind]
  refine .look_at (fun u => ?_) fun u hu => ?_
  · cases u.endsBlock with
    | true => exact .pure hdone.reverse
    | false => exact hturn.weaken
  · -- The part goes on with a statement in the first place.
    exact .past hturn.takes (Nat.zero_le 1) (Nat.min_le_right m 1)

theorem block (h : Mirrored w n level level') :
    Mirrors w Mention.IsInner Block.Alike 0 n level.block level'.block := by
  refine .note_then trivial rfl ?_
  refine h.stats.bind fun _ _ hb => ?_
  exact .note_then trivial rfl (.pure hb)

/-! ### Functions -/

theorem params (h : Mirrored w n level level') (done : List Bytes) :
    Mirrors w Mention.IsInner Eq 0 n (Level.params level.turns done)
      (Level.params level'.turns done) := by
  refine .loop Eq (fun _ _ _ => .pure _) (fun m t t' hm ih done _ hd => hd ▸ ?_)
    h.turns h.turns' rfl
  refine .look_at (fun u => ?_) fun u hu => .refuse _
  split
  · refine .weaken (.advance_then (.note_then trivial rfl ?_))
    exact .skip ((ih _ _ rfl).less (Nat.sub_le _ _)) (.pure rfl) (Nat.zero_le 1) (.inl rfl)
  · exact .weaken (.advance_then (.note_then trivial rfl (.pure rfl)))
  · exact .refuse _

theorem functionBody (h : Mirrored w n level level') (line line' : Nat) (self : List Bytes)
    (params : List Bytes × Bool) :
    Mirrors w Mention.IsInner Function.Alike 0 n (level.functionBody line self params)
      (level'.functionBody line' self params) := by
  refine .note_then trivial rfl (.weaken (.expect_then ?_))
  refine h.tail.stats.bind fun _ _ hb => ?_
  exact (Mirrors.close _ _ line line').weaken.bind fun _ _ _ =>
    .pure (congrArg (Function.mk (self ++ params.1) params.2) hb)

theorem functionInside (h : Mirrored w n level level') (isMethod : Bool) (line line' : Nat) :
    Mirrors w Mention.IsInner Function.Alike 1 n (level.functionInside isMethod line)
      (level'.functionInside isMethod line') := by
  have hparams (self : List Bytes) :
      Mirrors w Mention.IsInner Function.Alike 0 (n - 1)
        (do
          let params ← if (← Parse.peek) = .mark .closeParen then pure ([], false)
            else Level.params level.turns []
          level.functionBody line self params)
        (do
          let params ← if (← Parse.peek) = .mark .closeParen then pure ([], false)
            else Level.params level'.turns []
          level'.functionBody line' self params) := by
    have hsome : Mirrors w Mention.IsInner Function.Alike 0 (n - 1)
        (Level.params level.turns [] >>= level.functionBody line self)
        (Level.params level'.turns [] >>= level'.functionBody line' self) :=
      (h.tail.params []).bind fun x _ hx => hx ▸ h.tail.functionBody line line' self x
    refine .look_at (fun t => ?_) fun t ht => ?_
    · by_cases ht : t = .mark .closeParen
      · rw [if_pos ht, if_pos ht, pure_bind, pure_bind]
        exact h.tail.functionBody line line' self _
      · rw [if_neg ht, if_neg ht]
        exact hsome
    · have hne : t ≠ .mark .closeParen := fun heq => by rw [heq] at ht; cases ht
      rw [if_neg (by decide), if_neg hne]
      exact hsome.less (Nat.min_le_left _ _)
  refine .expect_then ?_
  cases isMethod with
  | true => exact .note_then trivial rfl (.note_then trivial rfl (hparams _))
  | false => exact hparams _

theorem function (h : Mirrored w n level level') (isMethod : Bool) (line line' : Nat) :
    Mirrors w kind Function.Alike 1 n (level.function isMethod line)
      (level'.function isMethod line') := by
  rw [function_eq, function_eq]
  exact (h.functionInside isMethod line line').function line line'

/-! ### Tables and calls -/

theorem fieldEntry (hk : kind .dots) (h : Mirrored w n level level') {key key' : Expr}
    (hkey : key.Alike key') :
    Mirrors w kind (Same Field.unlined) 1 n (Level.field.entry level key)
      (Level.field.entry level' key') := by
  refine .expect_then ?_
  refine (h.tail.usedExpr hk).weaken.bind fun _ _ hvalue => ?_
  exact Mirrors.lastLine.bind fun _ _ _ =>
    .pure (congrArg₂ (fun key value => Field.entry key value 0) hkey hvalue)

theorem fieldItem (hk : kind .dots) (h : Mirrored w n level level') :
    Mirrors w kind (Same Field.unlined) 1 n (do return Field.item (← level.anyExpr))
      (do return Field.item (← level'.anyExpr)) :=
  (h.anyExpr hk).after fun _ _ he => .pure (congrArg Field.item he)

theorem fieldAt (hk : kind .dots) (h : Mirrored w n level level') (t : Token) (assigned : Bool) :
    Mirrors w kind (Same Field.unlined) 1 n (level.fieldAt t assigned)
      (level'.fieldAt t assigned) := by
  unfold Level.fieldAt
  split
  · exact .advance_then (h.tail.fieldEntry hk rfl).weaken
  · refine .advance_then ((h.tail.usedExpr hk).weaken.bind fun _ _ hkey => ?_)
    refine (Mirrors.expect _).weaken.bind fun _ _ _ => ?_
    exact (h.tail.fieldEntry hk hkey).weaken
  · exact h.fieldItem hk

theorem field_takes (hk : kind .dots) (h : Mirrored w n level level') :
    Takes kind 1 level.field := by
  intro r a s hp
  have hget : (get : Parse Reader).runOn r = (.ok r, r) := rfl
  have hitem := (h.fieldItem hk).takes
  rw [Parse.Gives, Level.field, Parse.runOn_bind, hget] at hp
  dsimp only at hp
  split at hp
  next x _ _ _ _ =>
    split at hp
    next => cases hp
    next =>
      by_cases ha : ‹Lexeme›.token = .mark .assign
      · rw [if_pos ha] at hp
        exact (h.fieldAt hk (.name x) true).takes r a s hp
      · rw [if_neg ha] at hp
        exact hitem r a s hp
  next => exact (h.fieldAt hk (.mark .openBracket) false).takes r a s hp
  next => exact hitem r a s hp

/-- Tokens that come next in the two places are the sign of an assignment in both or in none. -/
theorem next_assign {t t' : Token} (h : w.Next t t') :
    (t = .mark .assign) = (t' = .mark .assign) := by
  rcases h with rfl | ⟨rfl, rfl⟩
  · rfl
  · rcases w.edges with heq | ⟨hbreak, hbegins⟩
    · rw [heq]
    · have hne : w.edge' ≠ .mark .assign := fun heq => by rw [heq] at hbegins; cases hbegins
      rw [hbreak]
      exact propext (iff_of_false Token.noConfusion hne)

theorem field (hk : kind .dots) (h : Mirrored w n level level') :
    Mirrors w kind (Same Field.unlined) 1 n level.field level'.field := by
  have htakes := h.field_takes hk
  refine ⟨htakes, fun r r' hb hlen a s hp hin => ?_⟩
  have hcount := (htakes r a s hp).2.1
  have hpos := List.length_pos_iff.2 w.rest_ne_nil
  rcases hb.cases with ⟨l, ls, l', ls', ha, ha', ht, hlt, hb'⟩ | ⟨hlen, -⟩
  · obtain ⟨m, ms, rfl⟩ := List.exists_cons_of_length_pos (Nat.zero_lt_of_lt hlt)
    obtain ⟨m', ms', rfl⟩ := hb'.exists_cons
    have hnext : w.Next m.token m'.token := hb'.head
    have hvalid (x : Bytes) (hx : l.token = .name x) : Parse.valid m.token := by
      cases hv : Parse.valid m.token with
      | true => rfl
      | false =>
        obtain ⟨e, r₁, hfail⟩ := Level.field_fails level ha hx hv
        rw [Parse.Gives, hfail] at hp
        cases hp
    have hrun := Level.runOn_field level ha hvalid
    have hrun' := Level.runOn_field level' ha' fun x hx => hnext.valid (hvalid x (ht.trans hx))
    rw [Parse.Gives, hrun] at hp
    have hmirror := (h.fieldAt hk l.token (m.token = .mark .assign)).mirrors r r' hb hlen a s hp hin
    rw [ht] at hmirror
    simp only [next_assign hnext] at hmirror
    rw [Parse.TooDeep]
    simp only [Parse.Gives, hrun']
    exact hmirror
  · rw [Setting.Inside] at hin
    omega

theorem settleItem {f f' : Field} (h : Same Field.unlined f f') (line line' : Nat) :
    Same Field.unlined (Level.settleItem line f) (Level.settleItem line' f') := by
  have hsettle (line : Nat) (f : Field) : (Level.settleItem line f).unlined = f.unlined := by
    cases f with
    | item e => exact congrArg Field.item (Expr.unlined_settle line e)
    | entry key value line => rfl
  exact (hsettle line f).trans (Eq.trans h (hsettle line' f').symm)

theorem fields (hk : kind .dots) (h : Mirrored w n level level') {done done' : List Field}
    (hdone : Field.AllAlike done done') :
    Mirrors w kind Field.AllAlike 0 n (level.fields level.turns done)
      (level'.fields level'.turns done') := by
  refine .loop Field.AllAlike (fun done _ _ => .pure done) (fun m t t' hm ih done done' hdone => ?_)
    h.turns h.turns' hdone
  have hitem : Mirrors w kind Field.AllAlike 1 m
      (do
        let f ← level.field
        let more ← (do
          if ← Parse.skip? (.mark .comma) then return true
          else Parse.skip? (.mark .semicolon))
        if more then level.fields t (Level.settleItem (← Parse.lastLine) f :: done)
        else return f :: done)
      (do
        let f ← level'.field
        let more ← (do
          if ← Parse.skip? (.mark .comma) then return true
          else Parse.skip? (.mark .semicolon))
        if more then level'.fields t' (Level.settleItem (← Parse.lastLine) f :: done')
        else return f :: done') := by
    refine ((h.less hm).field hk).after fun f f' hf => ?_
    refine .bind (?_ : Mirrors w kind Eq 0 _ _ _) fun more _ hmore => hmore ▸ ?_
    · exact .skip (.pure rfl) (.skip? rfl) (Nat.zero_le 1) (.inl rfl)
    · cases more with
      | true =>
        exact Mirrors.lastLine.bind fun line line' _ =>
          ih _ _ (congrArg₂ List.cons (settleItem hf line line') hdone)
      | false => exact .pure (congrArg₂ List.cons hf hdone)
  refine .look_at (fun u => ?_) fun u hu => .past hitem.takes (Nat.zero_le 1) (Nat.min_le_right m 1)
  by_cases hu : u = .mark .closeBrace
  · rw [if_pos hu, if_pos hu]
    exact .pure hdone
  · rw [if_neg hu, if_neg hu]
    exact hitem.weaken

theorem settleItems {fs fs' : List Field} (h : Field.AllAlike fs fs') (line line' : Nat) :
    Field.AllAlike (fs.map (Level.settleItem line)).reverse
      (fs'.map (Level.settleItem line')).reverse := by
  have hsettle (line : Nat) (fs : List Field) :
      Field.allUnlined (fs.map (Level.settleItem line)).reverse =
        (Field.allUnlined fs).reverse := by
    simp only [Field.allUnlined_eq, List.map_reverse, List.map_map]
    refine congrArg List.reverse (List.map_congr_left fun f _ => ?_)
    cases f with
    | item e => exact congrArg Field.item (Expr.unlined_settle line e)
    | entry key value line => rfl
  exact (hsettle line fs).trans ((congrArg List.reverse h).trans (hsettle line' fs').symm)

theorem table (hk : kind .dots) (h : Mirrored w n level level') :
    Mirrors w kind Expr.Alike 1 n level.table level'.table := by
  refine Mirrors.nextLine.bind fun line line' _ => .expect_then ?_
  refine (h.tail.fields hk rfl).bind fun _ _ hfs => ?_
  refine (Mirrors.close _ _ line line').weaken.bind fun _ _ _ => ?_
  exact Mirrors.lastLine.bind fun line line' _ =>
    .pure (congrArg Expr.table (settleItems hfs line line'))

/-- The arguments of a call without their line. -/
def unlinedArguments (args : List Expr × Nat) : List Expr := Expr.allUnlined args.1

theorem arguments (hk : kind .dots) (h : Mirrored w n level level') :
    Mirrors w kind (Same unlinedArguments) 1 n level.arguments level'.arguments := by
  refine Mirrors.nextLine.bind fun line line' _ => .look_at_taken fun t => ?_
  split
  · refine .advance_then ?_
    have hsome : Mirrors w kind (Same unlinedArguments) 1 (n - 1)
        (do
          let done ← level.exprsReversed
          Parse.close (.mark .closeParen) (.mark .openParen) line
          return ((Level.settleLast (← Parse.lastLine) done).reverse, line))
        (do
          let done ← level'.exprsReversed
          Parse.close (.mark .closeParen) (.mark .openParen) line'
          return ((Level.settleLast (← Parse.lastLine) done).reverse, line')) := by
      refine (h.tail.exprsReversed hk).after fun _ _ hes => ?_
      refine (Mirrors.close _ _ line line').weaken.bind fun _ _ _ => ?_
      exact Mirrors.lastLine.bind fun line line' _ =>
        .pure (Mirrored.settleLast hes line line').reverse
    exact .skip (.pure rfl) hsome.weaken (Nat.zero_le 1) (.inr fun _ => hsome.takes)
  · exact (h.table hk).after fun _ _ he => .pure (congrArg (fun e => [e]) he)
  · exact .advance_then (.pure rfl)
  · exact .refuse _

theorem primary (hk : kind .dots) (h : Mirrored w n level level') :
    Mirrors w kind Expr.Alike 1 n level.primary level'.primary := by
  refine .look_at_taken fun t => ?_
  split
  · exact .advance_then (Mirrors.lastLine.bind fun _ _ _ => .pure rfl)
  · refine Mirrors.nextLine.bind fun line line' _ => .advance_then ?_
    refine (h.tail.anyExpr hk).weaken.bind fun _ _ he => ?_
    refine (Mirrors.close _ _ line line').weaken.bind fun _ _ _ => ?_
    exact Mirrors.lastLine.bind fun line line' _ =>
      .pure (congrArg Expr.paren (he.settle line line'))
  · exact .refuse _

theorem suffixes (hk : kind .dots) (h : Mirrored w n level level') {e e' : Expr}
    (he : e.Alike e') :
    Mirrors w kind Expr.Alike 0 n (level.suffixes level.turns e)
      (level'.suffixes level'.turns e') := by
  refine .loop Expr.Alike (fun e _ _ => .pure e) (fun m t t' hm ih e e' he => ?_) h.turns h.turns' he
  have hm' := (h.less hm).tail
  refine Mirrors.lastLine.bind fun line line' _ => ?_
  have hused := he.settle line line'
  have hcall : Mirrors w kind Expr.Alike 0 m
      (level.arguments >>= fun a => level.suffixes t (.call (e.settle line) a.1 a.2))
      (level'.arguments >>= fun a => level'.suffixes t' (.call (e'.settle line') a.1 a.2)) :=
    .weaken (((h.less hm).arguments hk).after fun _ _ hargs =>
      ih _ _ (congrArg₂ (fun callee args => Expr.call callee args 0) hused hargs))
  refine .look_at (fun u => ?_) fun u hu => ?_
  · split
    · refine .weaken (.advance_then (Mirrors.name.weaken.bind fun x _ hx => hx ▸ ?_))
      exact Mirrors.lastLine.bind fun _ _ _ =>
        ih _ _ (congrArg (fun object => Expr.index object (.string x) 0) hused)
    · refine .weaken (.advance_then ((hm'.usedExpr hk).weaken.bind fun _ _ hkey => ?_))
      refine (Mirrors.expect _).weaken.bind fun _ _ _ => ?_
      exact Mirrors.lastLine.bind fun _ _ _ =>
        ih _ _ (congrArg₂ (fun object key => Expr.index object key 0) hused hkey)
    · refine .weaken (.advance_then (Mirrors.name.weaken.bind fun x _ hx => hx ▸ ?_))
      refine Mirrors.lastLine.bind fun line line' _ => ?_
      exact (hm'.arguments hk).weaken.bind fun _ _ hargs =>
        ih _ _ (congrArg₂ (fun object args => Expr.method object x args 0 0)
          (he.settle line line') hargs)
    · exact hcall
    · exact hcall
    · exact hcall
    · exact .pure he
  · cases u with
    | mark m => cases hu
    | string s spelled => cases hu
    | _ => exact .pure he

theorem suffixed (hk : kind .dots) (h : Mirrored w n level level') :
    Mirrors w kind Expr.Alike 1 n level.suffixed level'.suffixed :=
  (h.primary hk).after fun _ _ he => h.tail.suffixes hk he

/-! ### Operators -/

theorem taken (e : Expr) : Mirrors w kind Expr.Alike 1 n (Level.taken e) (Level.taken e) :=
  .advance_then (.pure rfl)

theorem operand (hk : kind .dots) (h : Mirrored w n level level') :
    Mirrors w kind Expr.Alike 1 n level.operand level'.operand := by
  refine .look_at_taken fun t => ?_
  split
  · exact taken _
  · exact taken _
  · exact taken _
  · exact taken _
  · exact taken _
  · exact .note_then hk rfl (taken _)
  · exact h.table hk
  · refine .advance_then (Mirrors.nextLine.bind fun line line' _ => ?_)
    exact (h.tail.function false line line').weaken.bind fun _ _ hf =>
      .pure (congrArg Expr.function hf)
  · exact h.suffixed hk

theorem joined_alike (op : BinaryOp) {left left' right right' : Expr} (hleft : left.Alike left')
    (hright : right.Alike right') (line last line' last' : Nat) :
    (joined op left right line last).Alike (joined op left' right' line' last') := by
  have hjoined (left right : Expr) (line last : Nat) :
      (joined op left right line last).unlined = .binary op left.unlined right.unlined 0 := by
    cases op <;> rfl
  exact (hjoined left right line last).trans ((congrArg₂ (fun left right =>
    Expr.binary op left right 0) hleft hright).trans (hjoined left' right' line' last').symm)

theorem binaryOp?_begins {t : Token} (h : t.begins) : binaryOp? t = none := by
  cases t with
  | word w => cases w <;> first | rfl | cases h
  | mark m => cases h
  | _ => rfl

theorem operators (hk : kind .dots) (h : Mirrored w n level level') (limit : Nat) {e e' : Expr}
    (he : e.Alike e') :
    Mirrors w kind Expr.Alike 0 n (level.operators limit level.turns e)
      (level'.operators limit level'.turns e') := by
  refine .loop Expr.Alike (fun e _ _ => .pure e) (fun m t t' hm ih e e' he => ?_) h.turns h.turns' he
  refine .look_at (fun u => ?_) fun u hu => ?_
  · cases binaryOp? u with
    | none => exact .pure he
    | some op =>
      by_cases hlimit : limit < op.binding.1
      · simp only [if_pos hlimit]
        refine .weaken (.advance_then (Mirrors.lastLine.bind fun line line' _ => ?_))
        refine Mirrors.bind (((h.less hm).tail.expr _).widen fun _ hm => hm ▸ hk).weaken
          fun _ _ hright => ?_
        refine Mirrors.lastLine.bind fun last last' _ => ih _ _ ?_
        exact joined_alike op (he.settle line line') (hright.settle last last') ..
      · simp only [if_neg hlimit]
        exact .pure he
  · rw [binaryOp?_begins hu]
    exact .pure he

theorem readExpr (hk : kind .dots) (h : Mirrored w n level level') (limit : Nat) :
    Mirrors w kind Expr.Alike 1 n (level.readExpr limit) (level'.readExpr limit) := by
  refine .after (?_ : Mirrors w kind Expr.Alike 1 _ _ _)
    fun _ _ he => h.tail.operators hk limit he
  refine .look_at_taken fun t => ?_
  cases unaryOp? t with
  | none => exact h.operand hk
  | some op =>
    refine .advance_then (Mirrors.lastLine.bind fun _ _ _ => ?_)
    refine Mirrors.bind ((h.tail.expr _).widen fun _ hm => hm ▸ hk).weaken fun _ _ he => ?_
    exact Mirrors.lastLine.bind fun line line' _ =>
      .pure (congrArg (fun e => Expr.unary op e 0) (he.settle line line'))

/-! ### Assignments and declarations -/

theorem checkTarget {e e' : Expr} (he : e.Alike e') :
    Mirrors w Mention.IsInner Eq 0 n (Level.moreTargets.check e) (Level.moreTargets.check e') := by
  unfold Level.moreTargets.check
  rw [he.isAssignable]
  cases e'.isAssignable with
  | false => exact .refuse _
  | true =>
    rcases he.cases with ⟨x, line, line', rfl, rfl⟩ | ⟨hne, hne'⟩
    · exact .note trivial fun _ => rfl
    · rw [if_pos rfl, if_pos rfl]
      split
      next x line => exact absurd rfl (hne x line)
      next => exact .pure rfl

theorem moreTargets (h : Mirrored w n level level') {done done' : List Expr}
    (hdone : Expr.AllAlike done done') :
    Mirrors w Mention.IsInner Expr.AllAlike 0 n (level.moreTargets level.turns done)
      (level'.moreTargets level'.turns done') := by
  refine .loop Expr.AllAlike (fun done _ _ => .pure done) (fun m t t' hm ih done done' hdone => ?_)
    h.turns h.turns' hdone
  refine .skip ?_ (.pure hdone) (Nat.zero_le 1) (.inl rfl)
  refine ((h.less hm).tail.suffixed trivial).weaken.bind fun _ _ he => ?_
  exact (checkTarget he).bind fun _ _ _ => ih _ _ (.cons he hdone)

theorem exprStat (h : Mirrored w n level level') :
    Mirrors w Mention.IsInner Block.Alike 1 n level.exprStat level'.exprStat := by
  refine (h.suffixed trivial).after fun e e' he => ?_
  have hassign : Mirrors w Mention.IsInner Block.Alike 0 (n - 1)
      (do
        Level.moreTargets.check e
        let targets ← level.moreTargets level.turns [e]
        Parse.expect (.mark .assign)
        let values ← level.exprs
        return [Stat.assign targets.reverse values (← Parse.lastLine)])
      (do
        Level.moreTargets.check e'
        let targets ← level'.moreTargets level'.turns [e']
        Parse.expect (.mark .assign)
        let values ← level'.exprs
        return [Stat.assign targets.reverse values (← Parse.lastLine)]) := by
    refine (checkTarget he).bind fun _ _ _ => (h.tail.moreTargets (.cons he rfl)).bind
      fun _ _ htargets => ?_
    refine (Mirrors.expect _).weaken.bind fun _ _ _ => ?_
    refine (h.tail.exprs trivial).weaken.bind fun _ _ hvalues => ?_
    exact Mirrors.lastLine.bind fun _ _ _ =>
      .pure (congrArg₂ (fun targets values => [Stat.assign targets values 0])
        htargets.reverse hvalues)
  have hcall : Mirrors w Mention.IsInner Block.Alike 0 (n - 1)
      (do
        unless e.isCall do Parse.refuse .noStatement
        return [.call e])
      (do
        unless e'.isCall do Parse.refuse .noStatement
        return [.call e']) := by
    rw [he.isCall]
    cases e'.isCall with
    | true => exact .pure (congrArg (fun e => [Stat.call e]) he)
    | false => exact .refuse _
  refine .look_at (fun t => ?_) fun t ht => ?_
  · split
    · exact hassign
    · exact hassign
    · exact hcall
  · cases t with
    | mark m => cases ht
    | _ => exact hcall.less (Nat.min_le_left _ _)

theorem localKind : Mirrors w kind Eq 0 n Level.localKind Level.localKind := by
  refine .skip ?_ (.pure rfl) (Nat.zero_le 1) (.inl rfl)
  refine Mirrors.name.weaken.bind fun x _ hx => hx ▸ ?_
  refine (Mirrors.expect _).weaken.bind fun _ _ _ => ?_
  by_cases hconst : x = bytesOf "const"
  · rw [if_pos hconst]
    exact .pure rfl
  · rw [if_neg hconst]
    by_cases hclose : x = bytesOf "close"
    · rw [if_pos hclose]
      exact .pure rfl
    · rw [if_neg hclose]
      exact .refuse _

/-- A name of a declaration. -/
theorem localNames_turn {t t' : Nat}
    (ih : ∀ done, Mirrors w kind Eq 0 (m - 1) (Level.localNames t done) (Level.localNames t' done))
    (hk : ∀ x k, kind (.declare x k)) (done : List (Bytes × LocalKind)) :
    Mirrors w kind Eq 1 m (Level.localNames (t + 1) done) (Level.localNames (t' + 1) done) := by
  refine Mirrors.name.after fun x _ hx => hx ▸ ?_
  refine localKind.bind fun k _ hkind => hkind ▸ .note_then (hk x k) rfl ?_
  by_cases hclose : k = .close && done.any (fun d => d.2 = .close)
  · simp only [hclose, if_true]
    exact .refuse _
  · simp only [hclose]
    exact .skip ((ih _).less (Nat.sub_le _ _)) (.pure rfl) (Nat.zero_le 1) (.inl rfl)

theorem localNames (hk : ∀ x k, kind (.declare x k)) {t t' : Nat} (ht : n ≤ t) (ht' : n ≤ t')
    (done : List (Bytes × LocalKind)) :
    Mirrors w kind Eq 0 n (Level.localNames t done) (Level.localNames t' done) :=
  .loop Eq (fun done _ _ => .pure done)
    (fun _ _ _ _ ih _ _ hd => hd ▸ (localNames_turn (fun done => ih done done rfl) hk _).weaken)
    ht ht' rfl

/-- A declaration after its names. -/
theorem localStat_of (h : Mirrored w n level level')
    (hnames : Mirrors w Mention.IsInner Eq c n (Level.localNames level.turns [])
      (Level.localNames level'.turns [])) :
    Mirrors w Mention.IsInner Block.Alike c n level.localStat level'.localStat := by
  have hlast {values values' : List Expr} (hvalues : Expr.AllAlike values values') {m : Nat}
      (names : List (Bytes × LocalKind)) :
      Mirrors w Mention.IsInner Block.Alike 0 m
        (do
          Parse.note (.activate names.length)
          return [.local names values (← Parse.lastLine)])
        (do
          Parse.note (.activate names.length)
          return [.local names values' (← Parse.lastLine)]) :=
    .note_then trivial rfl (Mirrors.lastLine.bind fun _ _ _ =>
      .pure (congrArg (fun values => [Stat.local names values 0]) hvalues))
  change Mirrors w Mention.IsInner Block.Alike (c + 0) n level.localStat level'.localStat
  refine hnames.chain fun names names' heq => ?_
  subst heq
  refine .skip ?_ ?_ (Nat.zero_le 1) (.inl rfl)
  · exact ((h.less (Nat.sub_le n c)).tail.exprs trivial).weaken.bind fun _ _ hvalues =>
      hlast hvalues _
  · exact .bind (.pure rfl : Mirrors w _ Expr.AllAlike 0 _ _ _) fun _ _ hvalues => hlast hvalues _

theorem localStat (hn : 0 < n) (h : Mirrored w n level level') :
    Mirrors w Mention.IsInner Block.Alike 1 n level.localStat level'.localStat := by
  refine h.localStat_of ?_
  have hturns := h.turns
  have hturns' := h.turns'
  obtain ⟨t, ht⟩ : ∃ t, level.turns = t + 1 := ⟨level.turns - 1, by omega⟩
  obtain ⟨t', ht'⟩ : ∃ t, level'.turns = t + 1 := ⟨level'.turns - 1, by omega⟩
  rw [ht] at hturns ⊢
  rw [ht'] at hturns' ⊢
  exact localNames_turn
    (localNames (fun _ _ => trivial) (Nat.sub_le_of_le_add hturns) (Nat.sub_le_of_le_add hturns'))
    (fun _ _ => trivial) []

theorem localFunction (h : Mirrored w n level level') :
    Mirrors w Mention.IsInner Block.Alike 1 n level.localFunction level'.localFunction := by
  refine Mirrors.name.after fun x _ hx => hx ▸ .note_then trivial rfl (.note_then trivial rfl ?_)
  refine Mirrors.nextLine.bind fun line line' _ => ?_
  exact (h.tail.function false line line').weaken.bind fun _ _ hf =>
    .pure (congrArg (fun f => [Stat.localFunction x f]) hf)

theorem functionPath (h : Mirrored w n level level') {e e' : Expr} (he : e.Alike e') :
    Mirrors w kind Expr.Alike 0 n (Level.functionPath level.turns e)
      (Level.functionPath level'.turns e') := by
  refine .loop Expr.Alike (fun e _ _ => .pure e) (fun m t t' hm ih e e' he => ?_) h.turns h.turns' he
  refine .look_at (fun u => ?_) fun u hu => ?_
  · by_cases hu : u = .mark .dot
    · rw [if_pos hu, if_pos hu]
      refine Mirrors.lastLine.bind fun line line' _ => .weaken (.advance_then ?_)
      refine Mirrors.name.weaken.bind fun x _ hx => hx ▸ ?_
      exact Mirrors.lastLine.bind fun _ _ _ => ih _ _
        (congrArg (fun object => Expr.index object (.string x) 0) (he.settle line line'))
    · rw [if_neg hu, if_neg hu]
      exact .pure he
  · have hne : u ≠ .mark .dot := fun heq => by rw [heq] at hu; cases hu
    rw [if_neg (by decide), if_neg hne]
    exact .pure he

theorem functionStat (h : Mirrored w n level level') (line line' : Nat) :
    Mirrors w Mention.IsInner Block.Alike 1 n (level.functionStat line)
      (level'.functionStat line') := by
  refine .advance_then (Mirrors.name.weaken.bind fun x _ hx => hx ▸ ?_)
  refine Mirrors.lastLine.bind fun _ _ _ => ?_
  refine (h.tail.functionPath ?_).bind fun path path' hpath =>
    .weaken (.look_at_taken fun t => ?_)
  · exact rfl
  dsimp only
  refine .bind (?_ : Mirrors w _ Expr.Alike 0 _ _ _) fun target target' htarget => ?_
  · by_cases ht : t = .mark .colon
    · simp only [ht, if_true]
      refine Mirrors.lastLine.bind fun line line' _ => .weaken (.advance_then ?_)
      refine Mirrors.name.weaken.bind fun x _ hx => hx ▸ ?_
      exact Mirrors.lastLine.bind fun _ _ _ =>
        .pure (congrArg (fun object => Expr.index object (.string x) 0) (hpath.settle line line'))
    · simp only [ht]
      exact .pure hpath
  · refine (h.tail.function _ line line').after fun f f' hf => ?_
    have hstat : Block.Alike [.assign [target] [.function f] line]
        [.assign [target'] [.function f'] line'] :=
      congrArg₂ (fun target f => [Stat.assign [target] [.function f] 0]) htarget hf
    rcases htarget.cases with ⟨x, line, line', rfl, rfl⟩ | ⟨hne, hne'⟩
    · exact .note_then trivial rfl (.pure hstat)
    · split
      next x line => exact absurd rfl (hne x line)
      next => exact .pure hstat

/-! ### Control flow -/

/-- A branch without its lines. -/
def unlinedBranch (branch : Expr × Block) : Expr × Block :=
  (branch.1.unlined, Stat.allUnlined branch.2)

theorem branch (h : Mirrored w n level level') :
    Mirrors w Mention.IsInner (Same unlinedBranch) 1 n level.branch level'.branch := by
  refine .advance_then ((h.tail.anyExpr trivial).weaken.bind fun _ _ he => ?_)
  refine (Mirrors.expect _).weaken.bind fun _ _ _ => ?_
  refine Mirrors.lastLine.bind fun line line' _ => ?_
  exact h.tail.block.bind fun _ _ hb => .pure (congrArg₂ Prod.mk (he.settle line line') hb)

/-- The other branches of a choice, with what comes after them. -/
theorem otherwise_then {β : Type} {alike : β → β → Prop} (h : Mirrored w n level level')
    {f g : Block → Parse β} (hfg : ∀ m b b', b.Alike b' →
      Mirrors w Mention.IsInner alike 1 m (f b) (g b')) :
    Mirrors w Mention.IsInner alike 0 n (level.otherwise level.turns >>= f)
      (level'.otherwise level'.turns >>= g) := by
  refine .loop (fun f g => ∀ m b b', Block.Alike b b' → Mirrors w Mention.IsInner alike 1 m (f b) (g b'))
    (f := fun t f => level.otherwise t >>= f) (g := fun t g => level'.otherwise t >>= g)
    (fun f g hfg => (hfg 0 [] [] rfl).takes.weaken (Nat.zero_le 1))
    (fun m t t' hm ih f g hfg => ?_) h.turns h.turns' hfg
  have hnil : Mirrors w Mention.IsInner alike 1 m (f []) (g []) := hfg m [] [] rfl
  rw [Level.otherwise, Level.otherwise, bind_assoc, bind_assoc]
  refine .look_at (fun u => ?_) fun u hu => .past hnil.takes (Nat.zero_le 1) (Nat.min_le_right m 1)
  split
  · rw [bind_assoc, bind_assoc]
    refine .weaken ((h.less hm).branch.after fun cb cb' hcb => ?_)
    obtain ⟨hc, hb⟩ := Prod.mk.inj hcb
    rw [bind_assoc, bind_assoc]
    simp only [pure_bind]
    refine ih _ _ fun m rest rest' hrest => hfg m _ _ ?_
    have hstat : Stat.unlined (.if cb.1 cb.2 rest) = Stat.unlined (.if cb'.1 cb'.2 rest') := by
      simp only [Stat.unlined]
      rw [hc, hb, show Stat.allUnlined rest = Stat.allUnlined rest' from hrest]
    exact congrArg (fun s => [s]) hstat
  · rw [bind_assoc, bind_assoc]
    exact .weaken (.advance_then ((h.less hm).tail.block.bind fun b b' hb => (hfg _ b b' hb).weaken))
  · exact hnil.weaken

theorem ifStat (h : Mirrored w n level level') (line line' : Nat) :
    Mirrors w Mention.IsInner Block.Alike 1 n (level.ifStat line) (level'.ifStat line') := by
  refine h.branch.after fun cb cb' hcb => h.tail.otherwise_then fun m rest rest' hrest => ?_
  obtain ⟨hc, hb⟩ := Prod.mk.inj hcb
  refine (Mirrors.close _ _ line line').after fun _ _ _ => .pure ?_
  have hstat : Stat.unlined (.if cb.1 cb.2 rest) = Stat.unlined (.if cb'.1 cb'.2 rest') := by
    simp only [Stat.unlined]
    rw [hc, hb, show Stat.allUnlined rest = Stat.allUnlined rest' from hrest]
  exact congrArg (fun s => [s]) hstat

theorem whileStat (h : Mirrored w n level level') (line line' : Nat) :
    Mirrors w Mention.IsInner Block.Alike 1 n (level.whileStat line) (level'.whileStat line') := by
  refine .advance_then ((h.tail.usedExpr trivial).weaken.bind fun _ _ hc => ?_)
  refine .note_then trivial rfl ((Mirrors.expect _).weaken.bind fun _ _ _ => ?_)
  refine h.tail.block.bind fun _ _ hb => ?_
  refine (Mirrors.close _ _ line line').weaken.bind fun _ _ _ => ?_
  exact .note_then trivial rfl (.pure (congrArg₂ (fun c b => [Stat.while c b]) hc hb))

theorem repeatStat (h : Mirrored w n level level') (line line' : Nat) :
    Mirrors w Mention.IsInner Block.Alike 1 n (level.repeatStat line)
      (level'.repeatStat line') := by
  refine .note_then trivial rfl (.note_then trivial rfl (.advance_then ?_))
  refine h.tail.stats.bind fun _ _ hb => ?_
  refine (Mirrors.close _ _ line line').weaken.bind fun _ _ _ => ?_
  refine (h.tail.usedExpr trivial).weaken.bind fun _ _ hc => ?_
  exact .note_then trivial rfl (.note_then trivial rfl
    (.pure (congrArg₂ (fun b c => [Stat.repeat b c]) hb hc)))

/-! ### Loops over values -/

theorem loopState (hk : kind (.declare (bytesOf "(for state)") .plain)) (count : Nat) :
    Mirrors w kind Eq 0 n (Level.loopState count) (Level.loopState count) := by
  induction count with
  | zero => exact .pure rfl
  | succ count ih => exact .note_then hk rfl ih

/-- The body of a loop without its lines. -/
def unlinedBody (body : Block × Nat) : Block := Stat.allUnlined body.1

theorem loopBody (h : Mirrored w n level level') (hidden count : Nat) :
    Mirrors w Mention.IsInner (Same unlinedBody) 1 n (level.loopBody hidden count)
      (level'.loopBody hidden count) := by
  refine .note_then trivial rfl (.expect_then (Mirrors.lastLine.bind fun _ _ _ => ?_))
  refine .note_then trivial rfl (.note_then trivial rfl ?_)
  refine h.tail.block.bind fun _ _ hb => ?_
  exact .note_then trivial rfl (.pure hb)

theorem moreNames (h : Mirrored w n level level') (hk : ∀ x, kind (.declare x .plain))
    (done : List Bytes) :
    Mirrors w kind Eq 0 n (Level.moreNames level.turns done)
      (Level.moreNames level'.turns done) := by
  refine .loop Eq (fun done _ _ => .pure done) (fun m t t' hm ih done _ hd => hd ▸ ?_)
    h.turns h.turns' rfl
  refine .skip ?_ (.pure rfl) (Nat.zero_le 1) (.inl rfl)
  refine Mirrors.name.weaken.bind fun x _ hx => hx ▸ ?_
  exact .note_then (hk x) rfl (ih _ _ rfl)

theorem numericHeader (h : Mirrored w n level level') (x : Bytes) :
    Mirrors w Mention.IsHeading Header.Alike 1 n (level.numericHeader x)
      (level'.numericHeader x) := by
  have hk (x : Bytes) : Mention.IsHeading (.declare x .plain) := .inr ⟨x, rfl⟩
  refine (loopState (hk _) 3).bind fun _ _ _ => .note_then (hk x) rfl (.expect_then ?_)
  refine (h.tail.usedExpr (.inl rfl)).weaken.bind fun _ _ hstart => ?_
  refine (Mirrors.expect _).weaken.bind fun _ _ _ => ?_
  refine (h.tail.usedExpr (.inl rfl)).weaken.bind fun _ _ hstop => ?_
  refine .bind (?_ : Mirrors w _ (Same Expr.optionUnlined) 0 _ _ _) fun _ _ hstep => .pure ?_
  · refine .skip ?_ (.pure rfl) (Nat.zero_le 1) (.inl rfl)
    exact (h.tail.tail.usedExpr (.inl rfl)).weaken.bind fun _ _ he => .pure (congrArg some he)
  · simp only [Same, Header.unlined]
    rw [show _ = _ from hstart, show _ = _ from hstop, show _ = _ from hstep]

theorem genericHeader (h : Mirrored w n level level') (x : Bytes) :
    Mirrors w Mention.IsHeading Header.Alike 1 n (level.genericHeader x)
      (level'.genericHeader x) := by
  have hk (x : Bytes) : Mention.IsHeading (.declare x .plain) := .inr ⟨x, rfl⟩
  refine (loopState (hk _) 4).bind fun _ _ _ => .note_then (hk x) rfl ?_
  refine (h.moreNames hk [x]).bind fun names _ hnames => hnames ▸ .expect_then ?_
  refine Mirrors.nextLine.bind fun _ _ _ => ?_
  exact (h.tail.exprs (.inl rfl)).weaken.bind fun _ _ hvalues =>
    .pure (congrArg (fun values => Header.generic names.reverse values 0) hvalues)

theorem header (h : Mirrored w n level level') :
    Mirrors w Mention.IsHeading Header.Alike 1 n level.header level'.header := by
  refine Mirrors.name.after fun x _ hx => hx ▸ .weaken (.look_at_taken fun t => ?_)
  split
  · exact h.tail.numericHeader x
  · exact h.tail.genericHeader x
  · exact h.tail.genericHeader x
  · exact .refuse _

theorem forStat (h : Mirrored w n level level') (line line' : Nat) :
    Mirrors w Mention.IsInner Block.Alike 1 n (level.forStat line) (level'.forStat line') := by
  rw [forStat_eq, forStat_eq]
  refine .note_then trivial rfl (.advance_then ?_)
  refine (h.tail.header.weaken.widen fun _ => Mention.IsHeading.isInner).bind
    fun head head' hhead => ?_
  rw [hhead.hidden, hhead.own]
  refine (h.tail.loopBody _ _).weaken.bind fun body body' hbody => ?_
  refine (Mirrors.close _ _ line line').weaken.bind fun _ _ _ => ?_
  exact .note_then trivial rfl (.pure (hhead.loop hbody body.2 body'.2))

/-! ### Statements -/

theorem empties (h : Mirrored w n level level') {done done' : List Stat}
    (hdone : Block.Alike done done') :
    Mirrors w Mention.IsInner Block.Alike 0 n (Level.labelStat.empties level level.turns done)
      (Level.labelStat.empties level' level'.turns done') := by
  refine .loop Block.Alike (fun done _ _ => .pure done) (fun m t t' hm ih done done' hdone => ?_)
    h.turns h.turns' hdone
  refine .look_at (fun u => ?_) fun u hu => ?_
  · split
    · exact .weaken ((h.less hm).stat.after fun _ _ hss => ih _ _ (hdone.append hss))
    · exact .weaken ((h.less hm).stat.after fun _ _ hss => ih _ _ (hdone.append hss))
    · exact .pure hdone
  · cases u with
    | mark m => cases hu
    | _ => exact .pure hdone

/-- Two answers that agree unless the part ends in different ways. -/
def AgreesAt (w : Setting) (a b : Bool) : Prop := w.edge = w.edge' → a = b

instance (w : Setting) : Std.Refl (AgreesAt w) := ⟨fun _ _ => rfl⟩

theorem blockEnds (loop : Bool) :
    Mirrors w kind (AgreesAt w) 0 n (Level.blockEnds loop) (Level.blockEnds loop) := by
  refine Mirrors.peek.bind fun t t' ht => ?_
  by_cases hedge : w.edge = w.edge'
  · have heq : t = t' := by
      rcases ht with rfl | ⟨rfl, rfl⟩
      · rfl
      · exact hedge
    subst heq
    split <;> exact .pure fun _ => rfl
  · split <;> split <;> exact .pure fun heq => absurd heq hedge

theorem labelStat (h : Mirrored w n level level') (line line' : Nat) :
    Mirrors w Mention.IsInner Block.Alike 1 n (level.labelStat line) (level'.labelStat line') := by
  refine Mirrors.name.after fun x _ hx => hx ▸ ?_
  refine (Mirrors.expect _).weaken.bind fun _ _ _ => ?_
  refine (h.tail.empties rfl).bind fun after after' hafter => ?_
  refine (blockEnds false).bind fun ends ends' hends => ?_
  refine Mirrors.bind (.note trivial fun hedge => by rw [hends hedge]; rfl) fun _ _ _ => ?_
  exact .pure (congrArg (fun after => Stat.label x :: after) hafter)

theorem returnStat (h : Mirrored w n level level') :
    Mirrors w Mention.IsInner Block.Alike 0 n level.returnStat level'.returnStat := by
  have hend {m : Nat} {values values' : List Expr} (hvalues : Expr.AllAlike values values') :
      Mirrors w Mention.IsInner Block.Alike 0 m
        (do
          let _ ← Parse.skip? (.mark .semicolon)
          return [.return values])
        (do
          let _ ← Parse.skip? (.mark .semicolon)
          return [.return values']) :=
    (Mirrors.skip? rfl).bind fun _ _ _ =>
      .pure (congrArg (fun values => [Stat.return values]) hvalues)
  have hsome : Mirrors w Mention.IsInner Block.Alike 1 n
      (do
        let values ← level.exprs
        let _ ← Parse.skip? (.mark .semicolon)
        return [.return values])
      (do
        let values ← level'.exprs
        let _ ← Parse.skip? (.mark .semicolon)
        return [.return values]) :=
    (h.exprs trivial).after fun _ _ hvalues => hend hvalues
  -- A part that ends after the word in the second place goes on with a value in the first.
  have hvalues {m : Nat} (hm : m ≤ n) {empty empty' : Bool}
      (hempty : empty = empty' ∨ m ≤ 1 ∧ empty = false) :
      Mirrors w Mention.IsInner Block.Alike 0 m
        (do
          let values ← if empty || (← Parse.peek) = .mark .semicolon then pure [] else level.exprs
          let _ ← Parse.skip? (.mark .semicolon)
          return [.return values])
        (do
          let values ← if empty' || (← Parse.peek) = .mark .semicolon then pure [] else level'.exprs
          let _ ← Parse.skip? (.mark .semicolon)
          return [.return values]) := by
    have hnone (b : Bool) : (b || decide (Token.word .break = .mark .semicolon)) = b :=
      Bool.or_false b
    refine .look_at (fun u => ?_) fun u hu => ?_
    · by_cases hu : u = .mark .semicolon
      · simp only [hu, decide_true, Bool.or_true, if_true, pure_bind]
        exact hend rfl
      · simp only [hu, decide_false, Bool.or_false]
        rcases hempty with rfl | ⟨hone, rfl⟩
        · cases empty with
          | true => exact hend rfl
          | false => exact (hsome.less hm).weaken
        · exact .past hsome.takes (Nat.zero_le 1) hone
    · have hne : u ≠ .mark .semicolon := fun heq => by rw [heq] at hu; cases hu
      simp only [hnone, hne, decide_false, Bool.or_false]
      rcases hempty with rfl | ⟨hone, rfl⟩
      · cases empty with
        | true => exact hend rfl
        | false => exact .past hsome.takes (Nat.zero_le 1) (Nat.min_le_right m 1)
      · exact .past hsome.takes (Nat.zero_le 1) (Nat.min_le_right m 1)
  rw [Level.returnStat, Level.returnStat, blockEnds_eq, bind_assoc, bind_assoc]
  simp only [pure_bind]
  refine .look_at (fun t => hvalues (Nat.le_refl n) (.inl rfl)) fun t ht => ?_
  exact hvalues (Nat.min_le_left n 1) (.inr ⟨Nat.min_le_right n 1, rfl⟩)

theorem readStat (h : Mirrored w n level level') :
    Mirrors w Mention.IsInner Block.Alike 1 n level.readStat level'.readStat := by
  refine Mirrors.nextLine.bind fun line line' _ => .look_at_taken fun t => ?_
  split
  · exact .advance_then (.pure rfl)
  · exact h.ifStat line line'
  · exact h.whileStat line line'
  · refine .advance_then (h.tail.block.bind fun _ _ hb => ?_)
    exact (Mirrors.close _ _ line line').weaken.bind fun _ _ _ =>
      .pure (congrArg (fun b => [Stat.block b]) hb)
  · exact h.forStat line line'
  · exact h.repeatStat line line'
  · exact h.functionStat line line'
  · refine .advance_then (.skip h.tail.tail.localFunction.weaken ?_ (Nat.zero_le 1) (.inr fun hn =>
      (h.tail.localStat hn).takes))
    exact h.tail.localStat_of (localNames (fun _ _ => trivial) h.tail.turns h.tail.turns' [])
  · exact .advance_then (h.tail.labelStat line line').weaken
  · exact .advance_then h.tail.returnStat
  · exact .advance_then (.note_then trivial rfl (.pure rfl))
  · refine .advance_then (Mirrors.nextLine.bind fun _ _ _ => ?_)
    exact Mirrors.name.weaken.bind fun x _ hx => hx ▸ .note_then trivial rfl (.pure rfl)
  · exact h.exprStat

end Mirrored

/-! ### All levels -/

variable {w : Setting} {n : Nat}

@[simp]
theorem at_turns (turns depth : Nat) : (Level.at turns depth).turns = turns := by
  cases depth <;> rfl

/-- The rules read a part of a script in the same way in two places, however many levels are left
in them. -/
theorem mirrored_at {turns turns' : Nat} (ht : n ≤ turns) (ht' : n ≤ turns') (depth depth' : Nat) :
    Mirrored w n (Level.at turns depth) (Level.at turns' depth') := by
  have hquiet : Mention.IsQuiet .dots := rfl
  induction depth generalizing depth' with
  | zero => exact ⟨ht, by simpa using ht', fun _ => .refuse _, .refuse _⟩
  | succ depth ih =>
    cases depth' with
    | zero =>
      refine ⟨ht, ht', fun limit => ?_, ?_⟩
      · exact .tooDeep ((ih 0).readExpr hquiet limit).takes fun r => ⟨_, _, rfl, rfl⟩
      · exact .tooDeep (ih 0).readStat.takes fun r => ⟨_, _, rfl, rfl⟩
    | succ depth' =>
      exact ⟨ht, ht', fun limit => (ih depth').readExpr hquiet limit, (ih depth').readStat⟩

theorem takes_stat (turns depth : Nat) : Takes Mention.IsInner 1 (Level.at turns depth).stat :=
  (mirrored_at (w := default) (Nat.zero_le turns) (Nat.zero_le turns) depth depth).stat.takes

theorem takes_stats (turns depth : Nat) : Takes Mention.IsInner 0 (Level.at turns depth).stats :=
  (mirrored_at (w := default) (Nat.zero_le turns) (Nat.zero_le turns) depth depth).stats.takes

end Level

end Stencil.Script
