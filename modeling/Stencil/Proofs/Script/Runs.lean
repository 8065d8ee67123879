import Stencil.Script.Grammar

/-!
# Runs of grammar rules

A rule of the grammar is a program that takes lexemes from a reader.  This file says what the small
rules do to a reader, so that the larger ones need not be unfolded down to the monad:

* `Parse.runOn` : the result of a rule and the reader it leaves.
* `Parse.Gives` : a rule succeeds, with a value and a reader.
* `Parse.Fails` : a rule refuses the script.
-/

namespace Stencil.Script

open Stencil.Text (Bytes bytesOf)

/-- The next lexeme of a reader. -/
def Reader.head (r : Reader) : Lexeme := r.ahead.headD ⟨.eof, r.line⟩

namespace Parse

variable {α β : Type}

/-- What comes of a rule. -/
def runOn (p : Parse α) (r : Reader) : Except Refusal α × Reader := p.run.run r

/-- A rule succeeds with a value and leaves a reader. -/
def Gives (p : Parse α) (r : Reader) (a : α) (r' : Reader) : Prop := p.runOn r = (.ok a, r')

/-- A rule refuses the script. -/
def Fails (p : Parse α) (r : Reader) : Prop := ∃ e r', p.runOn r = (.error e, r')

/-- A rule finds that the text is nested too deeply. -/
def TooDeep (p : Parse α) (r : Reader) : Prop :=
  ∃ e r', p.runOn r = (.error e, r') ∧ e.fault = .tooDeep

theorem runOn_bind (p : Parse α) (f : α → Parse β) (r : Reader) :
    (p >>= f).runOn r =
      match p.runOn r with
      | (.ok a, r') => (f a).runOn r'
      | (.error e, r') => (.error e, r') := by
  simp only [runOn]
  change (ExceptT.run (p >>= f)).run r = _
  rw [ExceptT.run_bind, StateT.run_bind]
  generalize StateT.run (ExceptT.run p) r = x
  rcases x with ⟨_ | _, _⟩ <;> rfl

section

variable {p : Parse α} {f : α → Parse β} {r r' r'' : Reader} {a : α} {b : β}

theorem Gives.bind (h : p.Gives r a r') (h' : (f a).Gives r' b r'') : (p >>= f).Gives r b r'' := by
  rw [Gives, runOn_bind, h]
  exact h'

theorem Gives.fails (h : p.Gives r a r') (h' : (f a).Fails r') : (p >>= f).Fails r := by
  obtain ⟨e, s, h'⟩ := h'
  exact ⟨e, s, by rw [runOn_bind, h]; exact h'⟩

theorem Gives.tooDeep (h : p.Gives r a r') (h' : (f a).TooDeep r') : (p >>= f).TooDeep r := by
  obtain ⟨e, s, h', hd⟩ := h'
  exact ⟨e, s, by rw [runOn_bind, h]; exact h', hd⟩

theorem Fails.bind (h : p.Fails r) : (p >>= f).Fails r := by
  obtain ⟨e, s, h⟩ := h
  exact ⟨e, s, by rw [runOn_bind, h]⟩

theorem TooDeep.bind (h : p.TooDeep r) : (p >>= f).TooDeep r := by
  obtain ⟨e, s, h, hd⟩ := h
  exact ⟨e, s, by rw [runOn_bind, h], hd⟩

theorem gives_bind_iff :
    (p >>= f).Gives r b r'' ↔ ∃ a r', p.Gives r a r' ∧ (f a).Gives r' b r'' := by
  constructor
  · intro h
    rw [Gives, runOn_bind] at h
    cases hp : p.runOn r with
    | mk o s =>
      cases o with
      | ok a => rw [hp] at h; exact ⟨a, s, hp, h⟩
      | error e => rw [hp] at h; cases h
  · rintro ⟨a, r', h, h'⟩
    exact h.bind h'

end

/-! ### Small rules -/

variable {r : Reader}

theorem gives_pure (a : α) : (pure a : Parse α).Gives r a r := rfl

theorem gives_peek : peek.Gives r r.head.token r := rfl

theorem gives_nextLine : nextLine.Gives r r.head.line r := rfl

theorem gives_lastLine : lastLine.Gives r r.line r := rfl

theorem gives_note (m : Mention) :
    (note m).Gives r () { r with mentions := (m, r.head) :: r.mentions } := rfl

theorem runOn_refuse (f : SyntaxFault) :
    (refuse f : Parse α).runOn r = (.error ⟨f, r.head⟩, r) := rfl

theorem fails_refuse (f : SyntaxFault) : (refuse f : Parse α).Fails r :=
  ⟨_, _, runOn_refuse f⟩

/-- Whether a token could be read. -/
def valid : Token → Bool
  | .invalid _ _ => false
  | _ => true

theorem look_gives (h : valid r.head.token) : look.Gives r () r := by
  rw [look]
  refine gives_peek.bind ?_
  split
  next f near heq => rw [heq] at h; cases h
  next => exact gives_pure ()

theorem look_fails (h : valid r.head.token = false) : look.Fails r := by
  rw [look]
  refine gives_peek.fails ?_
  split
  next => exact fails_refuse _
  next hne =>
    cases ht : r.head.token with
    | invalid f near => exact absurd ht (hne f near)
    | _ => rw [ht] at h; cases h

theorem runOn_look_snd : (look.runOn r).2 = r := by
  cases h : valid r.head.token with
  | true => rw [look_gives h]
  | false =>
    rw [look, runOn_bind, gives_peek]
    dsimp only
    split <;> rfl

theorem runOn_advance {l m : Lexeme} {rest : List Lexeme} (h : r.ahead = l :: m :: rest) :
    advance.runOn r = look.runOn { r with ahead := m :: rest, line := l.line } := by
  obtain ⟨ahead, line, mentions⟩ := r
  cases h
  rfl

theorem runOn_advance_last (h : r.ahead.length ≤ 1) :
    advance.runOn r = look.runOn { r with line := r.head.line } := by
  obtain ⟨ahead, line, mentions⟩ := r
  cases ahead with
  | nil => rfl
  | cons l rest =>
    cases rest with
    | nil => rfl
    | cons m rest => simp at h

theorem gives_advance {l m : Lexeme} {rest : List Lexeme} (h : r.ahead = l :: m :: rest)
    (hm : valid m.token) : advance.Gives r () { r with ahead := m :: rest, line := l.line } := by
  rw [Gives, runOn_advance h]
  exact look_gives hm

theorem fails_advance {l m : Lexeme} {rest : List Lexeme} (h : r.ahead = l :: m :: rest)
    (hm : valid m.token = false) : advance.Fails r := by
  rw [Fails, runOn_advance h]
  exact look_fails hm

theorem head_eq {l : Lexeme} {rest : List Lexeme} (h : r.ahead = l :: rest) : r.head = l := by
  simp [Reader.head, h]

theorem gives_skip_false {t : Token} (ht : r.head.token ≠ t) : (skip? t).Gives r false r := by
  rw [skip?]
  refine gives_peek.bind ?_
  rw [if_neg ht]
  exact gives_pure false

theorem fails_close {closing : Token} (ht : r.head.token ≠ closing) (opening : Token)
    (line : Nat) : (close closing opening line).Fails r := by
  refine (gives_skip_false ht).fails ?_
  rw [if_neg (by decide)]
  refine gives_nextLine.fails ?_
  split
  · exact fails_refuse _
  · exact fails_refuse _

theorem fails_name (h : ∀ x, r.head.token ≠ .name x) : name.Fails r := by
  rw [name]
  refine gives_peek.fails ?_
  split
  next x heq => exact absurd heq (h x)
  next => exact fails_refuse _

end Parse

end Stencil.Script
