import Stencil.Proofs.Script.Whole

/-!
# Constructs are paired

Every construct of a script that starts with one of the words `function`, `do`, `if` and `repeat` ends
with a word of its own, `end` or `until`.  So a rule of the grammar cannot stop inside a construct that it
has not started: in what it takes, every construct that starts ends, and no other one does.

* `openAfter` : how many constructs are open after some tokens.
* `Paired` : tokens in which every construct that starts ends, and no other one.
* `Pairs` : a rule takes tokens that lead from one number of open constructs to another.
* `Level.paired_at` : an expression and a statement take tokens that are paired.
* `paired_of_own?` : so the tokens of a text that is complete by itself are paired.
-/

namespace Stencil.Script

open Stencil.Text (Bytes bytesOf)

/-! ### Open constructs -/

/-- Whether a construct starts with a token that has to be closed by another one. -/
def Token.starts : Token → Bool
  | .word .function | .word .do | .word .if | .word .repeat => true
  | _ => false

/-- Whether a construct ends with a token. -/
def Token.closes : Token → Bool
  | .word .end | .word .until => true
  | _ => false

/-- How many constructs are open after one more token. -/
def Token.openAfter (n : Nat) (t : Token) : Option Nat :=
  if t.starts then some (n + 1)
  else if t.closes then if n = 0 then none else some (n - 1)
  else some n

/-- How many constructs are open after some tokens, unless one ends there that is not open. -/
def openAfter (n : Nat) (ts : List Token) : Option Nat := ts.foldlM Token.openAfter n

/-- Every construct that starts in some tokens ends there, and no other one does. -/
def Paired (ts : List Token) : Prop := openAfter 0 ts = some 0

instance (ts : List Token) : Decidable (Paired ts) := inferInstanceAs (Decidable (_ = _))

@[simp]
theorem openAfter_nil (n : Nat) : openAfter n [] = some n := rfl

theorem openAfter_cons (n : Nat) (t : Token) (ts : List Token) :
    openAfter n (t :: ts) = (t.openAfter n).bind fun n => openAfter n ts := rfl

/-- A token that neither starts nor ends a construct. -/
theorem openAfter_plain {t : Token} (hs : t.starts = false) (hc : t.closes = false) (n : Nat)
    (ts : List Token) : openAfter n (t :: ts) = openAfter n ts := by
  rw [openAfter_cons, Token.openAfter, hs, hc]
  rfl

/-- A token that starts a construct. -/
theorem openAfter_starts {t : Token} (h : t.starts) (n : Nat) (ts : List Token) :
    openAfter n (t :: ts) = openAfter (n + 1) ts := by
  rw [openAfter_cons, Token.openAfter, if_pos h]
  rfl

theorem openAfter_append (n : Nat) (ts us : List Token) :
    openAfter n (ts ++ us) = (openAfter n ts).bind fun n => openAfter n us :=
  List.foldlM_append

/-- Constructs around some tokens stay open. -/
theorem openAfter_add {ts : List Token} {i j : Nat} (h : openAfter i ts = some j) (k : Nat) :
    openAfter (i + k) ts = some (j + k) := by
  induction ts generalizing i with
  | nil =>
    obtain rfl : i = j := Option.some.inj h
    rfl
  | cons t ts ih =>
    rw [openAfter_cons, Option.bind_eq_some_iff] at h
    obtain ⟨n, hn, hrest⟩ := h
    have hstep : t.openAfter (i + k) = some (n + k) := by
      rw [Token.openAfter] at hn ⊢
      split
      · rw [if_pos ‹_›, Option.some.injEq] at hn
        congr 1
        omega
      · rw [if_neg ‹_›] at hn
        split
        · rw [if_pos ‹_›] at hn
          split at hn
          · cases hn
          · rw [Option.some.injEq] at hn
            rw [if_neg (by omega)]
            congr 1
            omega
        · rw [if_neg ‹_›, Option.some.injEq] at hn
          rw [hn]
    rw [openAfter_cons, hstep]
    exact ih hrest

namespace Paired

variable {ts us x y : List Token}

theorem openAfter (h : Paired ts) (n : Nat) : openAfter n ts = some n := by
  simpa using openAfter_add h n

theorem plain {t : Token} (hs : t.starts = false) (hc : t.closes = false) (h : Paired ts) :
    Paired (t :: ts) :=
  (openAfter_plain hs hc 0 ts).trans h

theorem append (h : Paired ts) (h' : Paired us) : Paired (ts ++ us) := by
  rw [Paired, openAfter_append, h.openAfter]
  exact h'

/-- Paired tokens in front of the end of a construct cannot go on after it. -/
theorem not_past {t : Token} (h : Paired ts) (ht : t.starts = false) (hc : t.closes) :
    ¬ Paired (ts ++ t :: x) := by
  intro hpaired
  have hstep : t.openAfter 0 = none := by
    rw [Token.openAfter, ht, if_neg Bool.false_ne_true, if_pos hc, if_pos rfl]
  rw [Paired, openAfter_append, h.openAfter, Option.bind_some, openAfter_cons, hstep] at hpaired
  cases hpaired

/-- There is one way to go on with paired tokens up to the end of the construct around them. -/
theorem unique {t u : Token} (h : Paired ts) (h' : Paired us) (ht : t.starts = false) (hc : t.closes)
    (hu : u.starts = false) (hc' : u.closes) (heq : ts ++ t :: x = us ++ u :: y) : ts = us := by
  rcases List.append_eq_append_iff.1 heq with ⟨mid, rfl, hmid⟩ | ⟨mid, rfl, hmid⟩
  · cases mid with
    | nil => rw [List.append_nil]
    | cons v mid =>
      obtain ⟨rfl, -⟩ := List.cons.inj hmid
      exact absurd h' (h.not_past ht hc)
  · cases mid with
    | nil => rw [List.append_nil]
    | cons v mid =>
      obtain ⟨rfl, -⟩ := List.cons.inj hmid
      exact absurd h (h'.not_past hu hc')

end Paired

/-! ### Rules -/

variable {α β : Type}

/-- What a rule that succeeds takes in front of a token: tokens that lead from `i` open constructs to `j`,
and never the end of the text. -/
def PairsAt (t : Token) (i j : Nat) (p : Parse α) : Prop :=
  ∀ r a s, r.tokens.getLast? = some .eof → r.head.token = t → p.Gives r a s →
    s.tokens.getLast? = some .eof ∧ ∃ ts, r.tokens = ts ++ s.tokens ∧ openAfter i ts = some j

/-- What a rule that succeeds takes in front of any token. -/
def Pairs (i j : Nat) (p : Parse α) : Prop := ∀ t, PairsAt t i j p

namespace PairsAt

variable {t u : Token} {i j k : Nat} {p : Parse α} {f : α → Parse β} {q : Parse β}

theorem bind (hp : PairsAt t i j p) (hf : ∀ a, Pairs j k (f a)) : PairsAt t i k (p >>= f) := by
  intro r b s'' hlast ht h
  obtain ⟨a, s, ha, hb⟩ := Parse.gives_bind_iff.1 h
  obtain ⟨hlast', ts, hts, hj⟩ := hp r a s hlast ht ha
  obtain ⟨hlast'', us, hus, hk⟩ := hf a _ s b s'' hlast' rfl hb
  refine ⟨hlast'', ts ++ us, by rw [hts, hus, List.append_assoc], ?_⟩
  rw [openAfter_append, hj]
  exact hk

/-- A rule after one that takes nothing. -/
theorem after (hp : ∀ r a s, p.Gives r a s → s.ahead = r.ahead ∧ s.line = r.line)
    (hf : ∀ a, PairsAt t i j (f a)) : PairsAt t i j (p >>= f) := by
  intro r b s' hlast ht h
  obtain ⟨a, s, ha, hb⟩ := Parse.gives_bind_iff.1 h
  obtain ⟨hahead, hline⟩ := hp r a s ha
  have htokens : s.tokens = r.tokens := by rw [Reader.tokens, Reader.tokens, hahead]
  have hhead : s.head = r.head := by rw [Reader.head, Reader.head, hahead, hline]
  rw [← htokens] at hlast ⊢
  exact hf a s b s' hlast (by rw [hhead, ht]) hb

theorem pure (a : α) : PairsAt t i i (Pure.pure a : Parse α) := by
  intro r b s hlast _ h
  cases h
  exact ⟨hlast, [], rfl, rfl⟩

theorem refuse (fault : SyntaxFault) : PairsAt t i j (Parse.refuse fault : Parse α) := by
  intro r a s _ _ h
  cases h

theorem peek {f : Token → Parse β} (h : PairsAt t i j (f t)) : PairsAt t i j (Parse.peek >>= f) := by
  intro r b s hlast ht hgives
  have hgives : (f r.head.token).Gives r b s := hgives
  rw [ht] at hgives
  exact h r b s hlast ht hgives

theorem nextLine {f : Nat → Parse β} (h : ∀ line, PairsAt t i j (f line)) :
    PairsAt t i j (Parse.nextLine >>= f) :=
  after (fun _ _ _ h => by cases h; exact ⟨rfl, rfl⟩) h

theorem lastLine {f : Nat → Parse β} (h : ∀ line, PairsAt t i j (f line)) :
    PairsAt t i j (Parse.lastLine >>= f) :=
  after (fun _ _ _ h => by cases h; exact ⟨rfl, rfl⟩) h

theorem note (m : Mention) (h : PairsAt t i j q) : PairsAt t i j (Parse.note m >>= fun _ => q) :=
  after (fun _ _ _ h => by cases h; exact ⟨rfl, rfl⟩) fun _ => h

theorem noted (m : Mention) : PairsAt t i i (Parse.note m) := by
  intro r a s hlast _ h
  cases h
  exact ⟨hlast, [], rfl, rfl⟩

/-- A token is taken. -/
theorem take (ht : t ≠ .eof) (hj : openAfter i [t] = some j) : PairsAt t i j Parse.advance := by
  intro r a s hlast hhead h
  have hs : s = (Parse.advance.runOn r).2 := by rw [h]
  match ha : r.ahead with
  | l :: m :: rest =>
    have hr : r.tokens = t :: m.token :: rest.map (·.token) := by
      rw [← hhead, Parse.head_eq ha, Reader.tokens, ha]
      rfl
    have hs : s.tokens = m.token :: rest.map (·.token) := by
      rw [hs, Parse.runOn_advance ha, Parse.runOn_look_snd]
      rfl
    rw [hr, List.getLast?_cons_cons, ← hs] at hlast
    exact ⟨hlast, [t], by rw [hr, hs]; rfl, hj⟩
  | [l] =>
    -- only the end of the text can be the last token
    rw [Reader.tokens, ha] at hlast
    rw [Parse.head_eq ha] at hhead
    exact absurd (hhead.symm.trans (Option.some.inj hlast)) ht
  | [] =>
    rw [Reader.tokens, ha] at hlast
    cases hlast

theorem advance (ht : t ≠ .eof) (hj : openAfter i [t] = some j) (h : Pairs j k q) :
    PairsAt t i k (Parse.advance >>= fun _ => q) :=
  (take ht hj).bind fun _ => h

/-- A choice by whether a token comes next, which is taken then. -/
theorem skip {f : Bool → Parse β} (hu : u ≠ .eof) (hj : openAfter i [u] = some j)
    (htrue : Pairs j k (f true)) (hfalse : PairsAt t i k (f false)) :
    PairsAt t i k (Parse.skip? u >>= f) := by
  rw [Parse.skip?, bind_assoc]
  refine peek ?_
  by_cases h : t = u
  · subst h
    rw [if_pos rfl, bind_assoc]
    exact advance hu hj htrue
  · rw [if_neg h]
    exact hfalse

theorem skip? (hu : u ≠ .eof) (hi : openAfter i [u] = some i) : PairsAt t i i (Parse.skip? u) := by
  have h : PairsAt t i i (Parse.skip? u >>= Pure.pure) := skip hu hi (fun _ => pure _) (pure _)
  rwa [bind_pure] at h

theorem expect (hu : u ≠ .eof) (hj : openAfter i [u] = some j) (h : Pairs j k q) :
    PairsAt t i k (Parse.expect u >>= fun _ => q) := by
  rw [Parse.expect, bind_assoc]
  exact skip hu hj h (bind (j := j) (refuse _) fun _ => h)

theorem close {opening : Token} {line : Nat} (hu : u ≠ .eof) (hj : openAfter i [u] = some j)
    (h : Pairs j k q) : PairsAt t i k (Parse.close u opening line >>= fun _ => q) := by
  rw [Parse.close, bind_assoc]
  refine skip hu hj h ?_
  rw [if_neg Bool.false_ne_true, bind_assoc]
  refine nextLine fun here => ?_
  split
  · exact bind (j := j) (refuse _) fun _ => h
  · exact bind (j := j) (refuse _) fun _ => h

theorem name {f : Bytes → Parse β} (h : ∀ x, Pairs i j (f x)) : PairsAt t i j (Parse.name >>= f) := by
  rw [Parse.name, bind_assoc]
  refine peek ?_
  split
  · rw [bind_assoc]
    refine advance Token.noConfusion rfl fun t => ?_
    rw [pure_bind]
    exact h _ t
  · exact bind (j := i) (refuse _) h

end PairsAt

/-- The rules of a level take tokens that are paired, whatever constructs are open around them. -/
structure Level.Paired (level : Level) : Prop where
  expr : ∀ limit n, Pairs n n (level.expr limit)
  stat : ∀ n, Pairs n n level.stat

namespace Level

variable {level : Level} {n : Nat}

namespace Paired

/-! ### Expressions -/

theorem anyExpr (h : level.Paired) : Pairs n n level.anyExpr := h.expr 0 n

theorem usedExpr (h : level.Paired) : Pairs n n level.usedExpr := fun t =>
  (h.anyExpr t).bind fun _ _ => .lastLine fun _ => .pure _

theorem moreExprs (h : level.Paired) (turns : Nat) (done : List Expr) :
    Pairs n n (level.moreExprs turns done) := by
  induction turns generalizing done with
  | zero => exact fun _ => .pure done
  | succ turns ih =>
    intro t
    refine .skip Token.noConfusion rfl (fun _ => ?_) (.pure done)
    exact .lastLine fun _ => (h.anyExpr _).bind fun _ => ih _

theorem exprsReversed (h : level.Paired) : Pairs n n level.exprsReversed := fun t =>
  (h.anyExpr t).bind fun _ => h.moreExprs _ _

theorem exprs (h : level.Paired) : Pairs n n level.exprs := fun t =>
  (h.exprsReversed t).bind fun _ _ => .lastLine fun _ => .pure _

/-! ### Blocks and functions -/

theorem statsFrom (h : level.Paired) (turns : Nat) (done : List Stat) :
    Pairs n n (level.statsFrom turns done) := by
  induction turns generalizing done with
  | zero => exact fun _ => .pure done.reverse
  | succ turns ih =>
    intro t
    rw [Level.statsFrom, blockEnds_eq, bind_assoc]
    refine .peek ?_
    rw [pure_bind]
    split
    · exact .pure done.reverse
    · refine .peek ?_
      split
      · exact (h.stat n t).bind fun _ _ => .pure _
      · exact (h.stat n t).bind fun _ => ih _

theorem stats (h : level.Paired) : Pairs n n level.stats := h.statsFrom _ _

theorem block (h : level.Paired) : Pairs n n level.block := fun t =>
  .note _ ((h.stats t).bind fun _ _ => .note _ (.pure _))

theorem params (turns : Nat) (done : List Bytes) : Pairs n n (Level.params turns done) := by
  induction turns generalizing done with
  | zero => exact fun _ => .pure _
  | succ turns ih =>
    intro t
    refine .peek ?_
    split
    · refine .advance Token.noConfusion rfl fun _ => .note _ ?_
      exact .skip Token.noConfusion rfl (ih _) (.pure _)
    · exact .advance Token.noConfusion rfl fun _ => .note _ (.pure _)
    · exact .refuse _

/-- A function after its first word, which is open around it. -/
theorem function (h : level.Paired) (isMethod : Bool) (line : Nat) :
    Pairs (n + 1) n (level.function isMethod line) := by
  have hbody (self : List Bytes) (params : List Bytes × Bool) :
      Pairs (n + 1) n (level.functionBody line self params) := fun t => by
    refine .note _ (.expect Token.noConfusion rfl fun t => ?_)
    refine (h.stats t).bind fun _ _ => ?_
    exact .close Token.noConfusion rfl fun _ => .pure _
  have hparams (self : List Bytes) : Pairs (n + 1) n (do
      let params ← if (← Parse.peek) = .mark .closeParen then pure ([], false)
        else Level.params level.turns []
      level.functionBody line self params) := fun t => by
    refine .peek ?_
    split
    · rw [pure_bind]
      exact hbody self _ t
    · exact (params _ _ t).bind fun _ => hbody self _
  intro t
  rw [function_eq]
  refine .note _ (.bind (j := n) ?_ fun _ _ => .note _ (.pure _))
  refine .expect Token.noConfusion rfl fun t => ?_
  cases isMethod with
  | true => exact .note _ (.note _ (hparams _ t))
  | false => exact hparams _ t

/-! ### Tables and calls -/

theorem fieldEntry (h : level.Paired) (key : Expr) : Pairs n n (Level.field.entry level key) := fun _ =>
  .expect Token.noConfusion rfl fun t => (h.usedExpr t).bind fun _ _ => .lastLine fun _ => .pure _

theorem fieldItem (h : level.Paired) : Pairs n n (do return Field.item (← level.anyExpr)) := fun t =>
  (h.anyExpr t).bind fun _ _ => .pure _

theorem field (h : level.Paired) : Pairs n n level.field := by
  intro t r a s hlast ht hp
  -- the rule looks at the reader itself, for the token after a name
  have hget : (get : Parse Reader).runOn r = (.ok r, r) := rfl
  rw [Parse.Gives, Level.field, Parse.runOn_bind, hget] at hp
  dsimp only at hp
  split at hp
  next x _ _ _ hahead =>
    have hname : r.head.token = .name x := by rw [Parse.head_eq hahead]
    split at hp
    next => cases hp
    next =>
      by_cases ha : ‹Lexeme›.token = .mark .assign
      · rw [if_pos ha] at hp
        exact PairsAt.advance Token.noConfusion rfl (h.fieldEntry _) r a s hlast hname hp
      · rw [if_neg ha] at hp
        exact h.fieldItem t r a s hlast ht hp
  next hahead =>
    have hbracket : r.head.token = .mark .openBracket := by rw [Parse.head_eq hahead]
    have hentry : Pairs n n (do
        let key ← level.usedExpr
        Parse.expect (.mark .closeBracket)
        field.entry level key) := fun t =>
      (h.usedExpr t).bind fun key _ => .expect Token.noConfusion rfl (h.fieldEntry key)
    exact PairsAt.advance Token.noConfusion rfl hentry r a s hlast hbracket hp
  next => exact h.fieldItem t r a s hlast ht hp

theorem fields (h : level.Paired) (turns : Nat) (done : List Field) :
    Pairs n n (level.fields turns done) := by
  induction turns generalizing done with
  | zero => exact fun _ => .pure done
  | succ turns ih =>
    intro t
    refine .peek ?_
    split
    · exact .pure done
    · refine (h.field t).bind fun f t => ?_
      refine .bind (j := n) ?_ fun more t => ?_
      · exact .skip Token.noConfusion rfl (fun _ => .pure _) (.skip? Token.noConfusion rfl)
      · cases more with
        | true => exact .lastLine fun _ => ih _ t
        | false => exact .pure _

theorem table (h : level.Paired) : Pairs n n level.table := fun _ => by
  refine .nextLine fun line => .expect Token.noConfusion rfl fun t => ?_
  refine (h.fields _ _ t).bind fun _ _ => ?_
  exact .close Token.noConfusion rfl fun _ => .lastLine fun _ => .pure _

theorem arguments (h : level.Paired) : Pairs n n level.arguments := fun t => by
  refine .nextLine fun line => .peek ?_
  split
  · refine .advance Token.noConfusion rfl fun t => .skip Token.noConfusion rfl (fun _ => .pure _) ?_
    refine (h.exprsReversed t).bind fun _ _ => ?_
    exact .close Token.noConfusion rfl fun _ => .lastLine fun _ => .pure _
  · exact (h.table _).bind fun _ _ => .pure _
  · exact .advance Token.noConfusion rfl fun _ => .pure _
  · exact .refuse _

theorem primary (h : level.Paired) : Pairs n n level.primary := fun t => by
  refine .peek ?_
  split
  · exact .advance Token.noConfusion rfl fun _ => .lastLine fun _ => .pure _
  · refine .nextLine fun line => .advance Token.noConfusion rfl fun t => ?_
    refine (h.anyExpr t).bind fun _ _ => ?_
    exact .close Token.noConfusion rfl fun _ => .lastLine fun _ => .pure _
  · exact .refuse _

theorem suffixes (h : level.Paired) (turns : Nat) (e : Expr) : Pairs n n (level.suffixes turns e) := by
  induction turns generalizing e with
  | zero => exact fun _ => .pure e
  | succ turns ih =>
    intro t
    refine .lastLine fun line => .peek ?_
    split
    · exact .advance Token.noConfusion rfl fun _ => .name fun x _ => .lastLine fun _ => ih _ _
    · refine .advance Token.noConfusion rfl fun t => (h.usedExpr t).bind fun _ _ => ?_
      exact .expect Token.noConfusion rfl fun _ => .lastLine fun _ => ih _ _
    · refine .advance Token.noConfusion rfl fun _ => .name fun x t => .lastLine fun _ => ?_
      exact (h.arguments t).bind fun _ => ih _
    · exact (h.arguments _).bind fun _ => ih _
    · exact (h.arguments _).bind fun _ => ih _
    · exact (h.arguments _).bind fun _ => ih _
    · exact .pure e

theorem suffixed (h : level.Paired) : Pairs n n level.suffixed := fun t =>
  (h.primary t).bind fun _ => h.suffixes _ _

/-! ### Operators -/

theorem operand (h : level.Paired) : Pairs n n level.operand := fun t => by
  have htaken {u : Token} (hu : u ≠ .eof) (hn : openAfter n [u] = some n) (e : Expr) :
      PairsAt u n n (Level.taken e) := .advance hu hn fun _ => .pure e
  refine .peek ?_
  split
  · exact htaken Token.noConfusion rfl _
  · exact htaken Token.noConfusion rfl _
  · exact htaken Token.noConfusion rfl _
  · exact htaken Token.noConfusion rfl _
  · exact htaken Token.noConfusion rfl _
  · exact .note _ (htaken Token.noConfusion rfl _)
  · exact h.table _
  · refine .advance Token.noConfusion rfl fun t => .nextLine fun line => ?_
    exact (h.function false line t).bind fun _ _ => .pure _
  · exact h.suffixed t

theorem unaryOp?_neutral {t : Token} {op : UnaryOp} (h : unaryOp? t = some op) :
    t ≠ .eof ∧ openAfter n [t] = some n := by
  cases t with
  | word w => cases w <;> first | exact ⟨Token.noConfusion, rfl⟩ | cases h
  | mark m => exact ⟨Token.noConfusion, rfl⟩
  | _ => cases h

theorem binaryOp?_neutral {t : Token} {op : BinaryOp} (h : binaryOp? t = some op) :
    t ≠ .eof ∧ openAfter n [t] = some n := by
  cases t with
  | word w => cases w <;> first | exact ⟨Token.noConfusion, rfl⟩ | cases h
  | mark m => exact ⟨Token.noConfusion, rfl⟩
  | _ => cases h

theorem operators (h : level.Paired) (limit turns : Nat) (e : Expr) :
    Pairs n n (level.operators limit turns e) := by
  induction turns generalizing e with
  | zero => exact fun _ => .pure e
  | succ turns ih =>
    intro t
    refine .peek ?_
    cases hop : binaryOp? t with
    | none => exact .pure e
    | some op =>
      obtain ⟨ht, hn⟩ := binaryOp?_neutral hop
      dsimp only
      split
      · refine .advance ht hn fun t => .lastLine fun _ => ?_
        exact (h.expr _ n t).bind fun _ _ => .lastLine fun _ => ih _ _
      · exact .pure e

theorem readExpr (h : level.Paired) (limit : Nat) : Pairs n n (level.readExpr limit) := fun t => by
  refine .bind (j := n) ?_ fun _ => h.operators _ _ _
  refine .peek ?_
  cases hop : unaryOp? t with
  | none => exact h.operand t
  | some op =>
    obtain ⟨ht, hn⟩ := unaryOp?_neutral hop
    refine .advance ht hn fun t => .lastLine fun _ => ?_
    exact (h.expr _ n t).bind fun _ _ => .lastLine fun _ => .pure _

/-! ### Assignments and declarations -/

theorem checkTarget (target : Expr) : Pairs n n (Level.moreTargets.check target) := fun t => by
  unfold Level.moreTargets.check
  cases target.isAssignable with
  | false => exact .refuse _
  | true =>
    rw [if_pos rfl]
    dsimp only
    split
    · exact .noted _
    · exact .pure _

theorem moreTargets (h : level.Paired) (turns : Nat) (done : List Expr) :
    Pairs n n (level.moreTargets turns done) := by
  induction turns generalizing done with
  | zero => exact fun _ => .pure done
  | succ turns ih =>
    intro t
    refine .skip Token.noConfusion rfl (fun t => ?_) (.pure done)
    exact (h.suffixed t).bind fun target t => (checkTarget target t).bind fun _ => ih _

theorem exprStat (h : level.Paired) : Pairs n n level.exprStat := fun t => by
  refine (h.suffixed t).bind fun first t => .peek ?_
  have hassign : PairsAt t n n (do
      Level.moreTargets.check first
      let targets ← level.moreTargets level.turns [first]
      Parse.expect (.mark .assign)
      let values ← level.exprs
      return [Stat.assign targets.reverse values (← Parse.lastLine)]) := by
    refine (checkTarget first t).bind fun _ t => (h.moreTargets _ _ t).bind fun targets _ => ?_
    refine .expect Token.noConfusion rfl fun t => ?_
    exact (h.exprs t).bind fun _ _ => .lastLine fun _ => .pure _
  split
  · exact hassign
  · exact hassign
  · cases first.isCall with
    | true => exact .pure _
    | false => exact .refuse _

theorem localKind : Pairs n n Level.localKind := fun _ => by
  refine .skip Token.noConfusion rfl (fun _ => .name fun x _ => ?_) (.pure _)
  refine .expect Token.noConfusion rfl fun _ => ?_
  split
  · exact .pure _
  · split
    · exact .pure _
    · exact .refuse _

theorem localNames (turns : Nat) (done : List (Bytes × LocalKind)) :
    Pairs n n (Level.localNames turns done) := by
  induction turns generalizing done with
  | zero => exact fun _ => .pure done
  | succ turns ih =>
    intro t
    refine .name fun x t => (localKind t).bind fun kind t => .note _ ?_
    cases kind = .close && done.any (fun d => d.2 = .close) with
    | true => exact .refuse _
    | false => exact .skip Token.noConfusion rfl (ih _) (.pure _)

theorem localStat (h : level.Paired) : Pairs n n level.localStat := fun t => by
  have hlast (names : List (Bytes × LocalKind)) (values : List Expr) : Pairs n n (do
      Parse.note (.activate names.length)
      return [Stat.local names values (← Parse.lastLine)]) := fun _ =>
    .note _ (.lastLine fun _ => .pure _)
  refine (localNames _ _ t).bind fun names t => .skip Token.noConfusion rfl (fun t => ?_) ?_
  · exact (h.exprs t).bind fun values => hlast names.reverse values
  · exact hlast names.reverse [] t

theorem localFunction (h : level.Paired) : Pairs (n + 1) n level.localFunction := fun _ => by
  refine .name fun x t => .note _ (.note _ (.nextLine fun line => ?_))
  exact (h.function false line t).bind fun _ _ => .pure _

theorem functionPath (turns : Nat) (e : Expr) : Pairs n n (Level.functionPath turns e) := by
  induction turns generalizing e with
  | zero => exact fun _ => .pure e
  | succ turns ih =>
    intro t
    refine .peek ?_
    split
    next ht =>
      subst ht
      refine .lastLine fun _ => .advance Token.noConfusion rfl fun _ => .name fun x _ => ?_
      exact .lastLine fun _ => ih _ _
    next => exact .pure e

theorem functionStat (h : level.Paired) (line : Nat) :
    PairsAt (.word .function) n n (level.functionStat line) := by
  refine .advance (j := n + 1) Token.noConfusion rfl fun _ => .name fun x _ => .lastLine fun _ => ?_
  refine (functionPath _ _ _).bind fun path t => .peek ?_
  dsimp only
  refine .bind (j := n + 1) ?_ fun target t => ?_
  · by_cases ht : t = .mark .colon
    · subst ht
      refine .lastLine fun _ => .advance Token.noConfusion rfl fun _ => .name fun x _ => ?_
      exact .lastLine fun _ => .pure _
    · simp only [ht]
      exact .pure _
  · refine (h.function _ line t).bind fun f _ => ?_
    split
    · exact .note _ (.pure _)
    · exact .pure _

/-! ### Control flow -/

/-- A branch takes the word in front of it too. -/
theorem branch (h : level.Paired) {w : Word} {m : Nat} (hw : openAfter n [.word w] = some m) :
    PairsAt (.word w) n m level.branch := by
  refine .advance Token.noConfusion hw fun t => (h.anyExpr t).bind fun _ _ => ?_
  refine .expect Token.noConfusion rfl fun t => .lastLine fun _ => ?_
  exact (h.block t).bind fun _ _ => .pure _

theorem otherwise (h : level.Paired) (turns : Nat) : Pairs n n (level.otherwise turns) := by
  induction turns with
  | zero => exact fun _ => .pure []
  | succ turns ih =>
    intro t
    refine .peek ?_
    split
    · exact (h.branch rfl).bind fun branch t => (ih t).bind fun _ _ => .pure _
    · exact .advance Token.noConfusion rfl h.block
    · exact .pure []

theorem ifStat (h : level.Paired) (line : Nat) : PairsAt (.word .if) n n (level.ifStat line) := by
  refine (h.branch (m := n + 1) rfl).bind fun branch t => (h.otherwise _ t).bind fun _ _ => ?_
  exact .close Token.noConfusion rfl fun _ => .pure _

theorem whileStat (h : level.Paired) (line : Nat) :
    PairsAt (.word .while) n n (level.whileStat line) := by
  refine .advance Token.noConfusion rfl fun t => (h.usedExpr t).bind fun _ _ => .note _ ?_
  refine .expect (j := n + 1) Token.noConfusion rfl fun t => (h.block t).bind fun _ _ => ?_
  exact .close Token.noConfusion rfl fun _ => .note _ (.pure _)

theorem repeatStat (h : level.Paired) (line : Nat) :
    PairsAt (.word .repeat) n n (level.repeatStat line) := by
  refine .note _ (.note _ (.advance (j := n + 1) Token.noConfusion rfl fun t => ?_))
  refine (h.stats t).bind fun _ _ => .close Token.noConfusion rfl fun t => ?_
  exact (h.usedExpr t).bind fun _ _ => .note _ (.note _ (.pure _))

theorem loopState (count : Nat) : Pairs n n (Level.loopState count) := by
  induction count with
  | zero => exact fun _ => .pure _
  | succ count ih => exact fun t => .note _ (ih t)

/-- The body of a loop starts with a word that stays open. -/
theorem loopBody (h : level.Paired) (hidden count : Nat) :
    Pairs n (n + 1) (level.loopBody hidden count) := fun _ => by
  refine .note _ (.expect Token.noConfusion rfl fun t => .lastLine fun _ => ?_)
  exact .note _ (.note _ ((h.block t).bind fun _ _ => .note _ (.pure _)))

theorem moreNames (turns : Nat) (done : List Bytes) : Pairs n n (Level.moreNames turns done) := by
  induction turns generalizing done with
  | zero => exact fun _ => .pure done
  | succ turns ih =>
    intro t
    refine .skip Token.noConfusion rfl (fun _ => ?_) (.pure done)
    exact .name fun x t => .note _ (ih _ t)

theorem numericHeader (h : level.Paired) (x : Bytes) : Pairs n n (level.numericHeader x) := fun t => by
  refine (loopState 3 t).bind fun _ _ => .note _ (.expect Token.noConfusion rfl fun t => ?_)
  refine (h.usedExpr t).bind fun start _ => .expect Token.noConfusion rfl fun t => ?_
  refine (h.usedExpr t).bind fun stop t => .bind (j := n) ?_ fun _ _ => .pure _
  exact .skip Token.noConfusion rfl (fun t => (h.usedExpr t).bind fun _ _ => .pure _) (.pure _)

theorem genericHeader (h : level.Paired) (x : Bytes) : Pairs n n (level.genericHeader x) := fun t => by
  refine (loopState 4 t).bind fun _ t => .note _ ((moreNames _ _ t).bind fun names _ => ?_)
  refine .expect Token.noConfusion rfl fun t => .nextLine fun _ => ?_
  exact (h.exprs t).bind fun _ _ => .pure _

theorem header (h : level.Paired) : Pairs n n level.header := fun _ => by
  refine .name fun x t => .peek ?_
  split
  · exact h.numericHeader x _
  · exact h.genericHeader x _
  · exact h.genericHeader x _
  · exact .refuse _

theorem forStat (h : level.Paired) (line : Nat) : PairsAt (.word .for) n n (level.forStat line) := by
  rw [forStat_eq]
  refine .note _ (.advance Token.noConfusion rfl fun t => (h.header t).bind fun head t => ?_)
  refine (h.loopBody _ _ t).bind fun _ _ => ?_
  exact .close Token.noConfusion rfl fun _ => .note _ (.pure _)

/-! ### Statements -/

theorem blockEnds (loop : Bool) : Pairs n n (Level.blockEnds loop) := fun t => by
  refine .peek ?_
  split <;> exact .pure _

theorem empties (h : level.Paired) (turns : Nat) (done : List Stat) :
    Pairs n n (Level.labelStat.empties level turns done) := by
  induction turns generalizing done with
  | zero => exact fun _ => .pure done
  | succ turns ih =>
    intro t
    refine .peek ?_
    split
    · exact (h.stat n _).bind fun _ => ih _
    · exact (h.stat n _).bind fun _ => ih _
    · exact .pure done

theorem labelStat (h : level.Paired) (line : Nat) : Pairs n n (level.labelStat line) := fun _ => by
  refine .name fun x _ => .expect Token.noConfusion rfl fun t => (h.empties _ _ t).bind fun after t => ?_
  exact (blockEnds _ t).bind fun ends _ => .note _ (.pure _)

theorem returnStat (h : level.Paired) : Pairs n n level.returnStat := fun t => by
  have hend (values : List Expr) : Pairs n n (do
      let _ ← Parse.skip? (.mark .semicolon)
      return [Stat.return values]) := fun t =>
    (PairsAt.skip? Token.noConfusion rfl).bind fun _ _ => .pure _
  refine (blockEnds _ t).bind fun empty t => .peek ?_
  split
  · rw [pure_bind]
    exact hend [] t
  · exact (h.exprs t).bind fun values => hend values

theorem readStat (h : level.Paired) : Pairs n n level.readStat := fun t => by
  refine .nextLine fun line => .peek ?_
  split
  · exact .advance Token.noConfusion rfl fun _ => .pure _
  · exact h.ifStat line
  · exact h.whileStat line
  · refine .advance (j := n + 1) Token.noConfusion rfl fun t => (h.block t).bind fun _ _ => ?_
    exact .close Token.noConfusion rfl fun _ => .pure _
  · exact h.forStat line
  · exact h.repeatStat line
  · exact h.functionStat line
  · refine .advance Token.noConfusion rfl fun t => ?_
    exact .skip (j := n + 1) Token.noConfusion rfl h.localFunction (h.localStat t)
  · exact .advance Token.noConfusion rfl (h.labelStat line)
  · exact .advance Token.noConfusion rfl h.returnStat
  · exact .advance Token.noConfusion rfl fun _ => .note _ (.pure _)
  · refine .advance Token.noConfusion rfl fun _ => .nextLine fun _ => .name fun x _ => ?_
    exact .note _ (.pure _)
  · exact h.exprStat t

end Paired

/-- **Pairs.**  The rules of every level take tokens that are paired. -/
theorem paired_at (turns depth : Nat) : (Level.at turns depth).Paired := by
  induction depth with
  | zero => exact ⟨fun _ _ _ => .refuse _, fun _ _ => .refuse _⟩
  | succ depth ih => exact ⟨fun limit _ => ih.readExpr limit, fun _ => ih.readStat⟩

end Level

/-! ### Texts by themselves -/

/-- The statements of a text that is one complete block: nothing that is open in it can be closed after
it. -/
def closedBlock? (text : String) : Option Block := own? Level.stats text "end"

theorem IsMirrored.takes {rule : Level → Parse α} {alike : α → α → Prop} (h : IsMirrored rule alike)
    (turns depth : Nat) : Takes Mention.IsHeading 1 (rule (Level.at turns depth)) :=
  (h.mirrors default 0 _ _ (Level.mirrored_at (Nat.zero_le turns) (Nat.zero_le turns) depth depth)).takes

section

variable {text : String}

/-- The tokens of a text that a rule takes as a whole are paired. -/
theorem paired_of_own? {rule : Level → Parse α} {closer : String} {a : α} {kind : Mention → Prop} {c : Nat}
    (htakes : ∀ turns depth, Takes kind c (rule (Level.at turns depth)))
    (hpairs : ∀ turns depth, Pairs 0 0 (rule (Level.at turns depth))) (hc : IsCloser (bytesOf closer))
    {k : Token} (hk : ∀ line, tokensAt line (bytesOf closer) = [k, .eof])
    (h : own? rule text closer = some a) :
    IsLine (bytesOf text) ∧ Paired (lineTokens (bytesOf text)) := by
  rw [own?] at h
  generalize hlex : lex (bytesOf text ++ lineEnd (bytesOf closer)) = lexemes at h
  cases hrun : (rule (Level.at (lexemes.length + 1) maxDepth)).runOn { ahead := lexemes } with
  | mk outcome s =>
    cases outcome with
    | error e => simp [hrun] at h
    | ok b =>
      have hk₁ := hk 1
      rw [tokensAt, ← lex_eq_lexAt] at hk₁
      simp only [hrun, hk₁, Option.ite_none_right_eq_some] at h
      have hs : s.tokens = [k, .eof] := h.1
      obtain ⟨hsuffix, -⟩ := htakes _ _ _ b s hrun
      obtain ⟨hline, pre, e, e', rfl, hts, rfl, he⟩ := lex_lineEnd hc hk hlex hsuffix
        (show s.tokens.getLast? = _ by rw [hs]; rfl)
      have htokens : Reader.tokens { ahead := pre ++ [e, e'] } =
          lineTokens (bytesOf text) ++ [e.token, .eof] := by
        rw [Reader.tokens, List.map_append, hts, ← he]
        rfl
      obtain ⟨-, ts, hr, hj⟩ := hpairs _ _ _ _ b s (by rw [htokens, List.getLast?_append]; rfl) rfl hrun
      rw [htokens, hs, List.append_left_inj] at hr
      exact ⟨hline, hr ▸ hj⟩

theorem ownExpr?_paired {e : Expr} (h : ownExpr? text = some e) :
    IsLine (bytesOf text) ∧ Paired (lineTokens (bytesOf text)) :=
  paired_of_own? isMirrored_anyExpr.takes (fun turns depth => (Level.paired_at turns depth).anyExpr)
    (by decide +kernel) (fun _ => rfl) h

theorem ownHeader?_paired {hd : Header} (h : ownHeader? text = some hd) :
    IsLine (bytesOf text) ∧ Paired (lineTokens (bytesOf text)) :=
  paired_of_own? isMirrored_header.takes (fun turns depth => (Level.paired_at turns depth).header)
    (by decide +kernel) (fun _ => rfl) h

theorem closedBlock?_paired {b : Block} (h : closedBlock? text = some b) :
    IsLine (bytesOf text) ∧ Paired (lineTokens (bytesOf text)) :=
  paired_of_own? Level.takes_stats (fun turns depth => (Level.paired_at turns depth).stats)
    (by decide +kernel) (fun _ => rfl) h

end

end Stencil.Script
