import Stencil.Proofs.Script.Runs
import Stencil.Proofs.Script.Unlined

/-!
# Rules in two places

A part of a script is read in the same way by itself and inside a larger script: a rule sees one
lexeme further than it takes, so what comes after the part does not matter as long as the rule
stops before its end.  Lines differ between the two places, and so do the levels that are left; the
larger script may be refused because it is nested too deeply.

* `Takes` : what a rule does to its reader, whatever the place.
* `Mirrors` : a rule that succeeds by itself succeeds alike in the larger script.
* `Mirrors.bind`, `Mirrors.after`, `Mirrors.loop` : how rules are put together.

The rules of the grammar follow one by one, up to `Level.mirrored_at`.
-/

namespace Stencil.Script

open Stencil.Text (Bytes bytesOf)

/-! ### Mentions without lines -/

/-- A mention without its line. -/
def Mention.unlined : Mention → Mention
  | .openFunction _ => .openFunction 0
  | .jump target _ => .jump target 0
  | .label name _ atEnd => .label name 0 atEnd
  | m => m

/-- What can be mentioned inside a function, functions in it apart. -/
def Mention.IsInner : Mention → Prop
  | .openFunction _ | .closeFunction => False
  | _ => True

/-- What an expression mentions, functions in it apart. -/
def Mention.IsQuiet (m : Mention) : Prop := m = .dots

/-- What the header of a loop mentions, functions in it apart. -/
def Mention.IsHeading (m : Mention) : Prop := m = .dots ∨ ∃ name, m = .declare name .plain

theorem Mention.IsHeading.isInner {m : Mention} (h : m.IsHeading) : m.IsInner := by
  rcases h with rfl | ⟨name, rfl⟩
  · trivial
  · trivial

/-- Mentions in which every function that starts ends, and which outside of functions are of a
kind. -/
inductive Nested : (Mention → Prop) → List Mention → Prop
  | nil {kind : Mention → Prop} : Nested kind []
  | cons {kind : Mention → Prop} {m : Mention} {ms : List Mention} :
      kind m → Nested kind ms → Nested kind (m :: ms)
  | function {kind : Mention → Prop} {line : Nat} {body ms : List Mention} :
      Nested Mention.IsInner body → Nested kind ms →
      Nested kind (.openFunction line :: (body ++ .closeFunction :: ms))

theorem Nested.append {kind : Mention → Prop} {ms ms' : List Mention} (h : Nested kind ms)
    (h' : Nested kind ms') : Nested kind (ms ++ ms') := by
  induction h with
  | nil => exact h'
  | cons hm _ ih => exact .cons hm (ih h')
  | function hb _ _ ih =>
    rw [List.cons_append, List.append_assoc, List.cons_append]
    exact .function hb (ih h')

theorem Nested.widen {kind kind' : Mention → Prop} {ms : List Mention} (h : Nested kind ms)
    (hk : ∀ m, kind m → kind' m) : Nested kind' ms := by
  induction h with
  | nil => exact .nil
  | cons hm _ ih => exact .cons (hk _ hm) (ih hk)
  | function hb _ _ ih => exact .function hb (ih hk)

/-! ### One place -/

variable {α β δ : Type}

/-- What a rule that succeeds does to its reader: it takes lexemes from the front, at least `count`
of them unless only one is left, and what it notes down is of a kind. -/
def Takes (kind : Mention → Prop) (count : Nat) (p : Parse α) : Prop :=
  ∀ r a r', p.Gives r a r' →
    r'.ahead <:+ r.ahead ∧
    (r'.ahead.length + count ≤ r.ahead.length ∨ r'.ahead.length ≤ 1) ∧
    ∃ ms, r'.mentions = ms ++ r.mentions ∧ Nested kind (ms.map (·.1)).reverse

namespace Takes

variable {kind kind' : Mention → Prop} {count c c' : Nat} {p : Parse α} {f : α → Parse β}

theorem widen (h : Takes kind count p) (hk : ∀ m, kind m → kind' m) : Takes kind' count p := by
  intro r a r' hp
  obtain ⟨hs, hc, ms, hm, hn⟩ := h r a r' hp
  exact ⟨hs, hc, ms, hm, hn.widen hk⟩

theorem weaken (h : Takes kind c p) (hc : c' ≤ c) : Takes kind c' p := by
  intro r a r' hp
  obtain ⟨hs, hlen, hm⟩ := h r a r' hp
  exact ⟨hs, by omega, hm⟩

theorem bind (h : Takes kind c p) (h' : ∀ a, Takes kind c' (f a)) :
    Takes kind (c + c') (p >>= f) := by
  intro r b r'' hpf
  obtain ⟨a, r', hp, hf⟩ := Parse.gives_bind_iff.1 hpf
  obtain ⟨hs, hc, ms, hm, hn⟩ := h r a r' hp
  obtain ⟨hs', hc', ms', hm', hn'⟩ := h' a r' b r'' hf
  have hlen' := hs'.length_le
  refine ⟨hs'.trans hs, by omega, ms' ++ ms, by rw [hm', hm, List.append_assoc], ?_⟩
  rw [List.map_append, List.reverse_append]
  exact hn.append hn'

/-- Looking at a reader takes nothing from it. -/
theorem of_still (h : ∀ r, (p.runOn r).2 = r) : Takes kind 0 p := by
  intro r a r' hp
  have hr : r' = r := by rw [← h r, hp]
  subst hr
  exact ⟨List.suffix_refl _, .inl (Nat.le_refl _), [], rfl, .nil⟩

theorem pure (a : α) : Takes kind 0 (pure a : Parse α) := of_still fun _ => rfl

theorem refuse (fault : SyntaxFault) : Takes kind count (Parse.refuse fault : Parse α) := by
  intro r a r' hp
  cases hp

theorem advance : Takes kind 1 Parse.advance := by
  intro r a r' hp
  have hr : r' = (Parse.advance.runOn r).2 := by rw [hp]
  subst hr
  match h : r.ahead with
  | l :: m :: rest =>
    rw [Parse.runOn_advance h, Parse.runOn_look_snd]
    exact ⟨List.suffix_cons l _, .inl (Nat.le_refl _), [], rfl, .nil⟩
  | [] =>
    rw [Parse.runOn_advance_last (h ▸ Nat.zero_le 1), Parse.runOn_look_snd]
    exact ⟨h ▸ List.suffix_refl r.ahead, .inr (by simp [h]), [], rfl, .nil⟩
  | [l] =>
    rw [Parse.runOn_advance_last (h ▸ Nat.le_refl 1), Parse.runOn_look_snd]
    exact ⟨h ▸ List.suffix_refl r.ahead, .inr (by simp [h]), [], rfl, .nil⟩

theorem note {m : Mention} (hm : kind m) : Takes kind 0 (Parse.note m) := by
  intro r a r' hp
  cases hp
  exact ⟨List.suffix_refl _, .inl (Nat.le_refl _), [(m, r.head)], rfl, .cons hm .nil⟩

/-- A function, from its first mention to its last. -/
theorem function (h : Takes Mention.IsInner count p) (line : Nat) :
    Takes kind count (do
      Parse.note (.openFunction line)
      let a ← p
      Parse.note .closeFunction
      return a) := by
  intro r a r' hp
  obtain ⟨_, r₁, h₁, hp⟩ := Parse.gives_bind_iff.1 hp
  obtain ⟨b, r₂, h₂, hp⟩ := Parse.gives_bind_iff.1 hp
  obtain ⟨_, r₃, h₃, h₄⟩ := Parse.gives_bind_iff.1 hp
  cases h₁
  cases h₃
  cases h₄
  obtain ⟨hs, hc, ms, hm, hn⟩ := h _ _ _ h₂
  refine ⟨hs, hc, (.closeFunction, r₂.head) :: (ms ++ [(.openFunction line, r.head)]), ?_, ?_⟩
  · rw [List.cons_append, List.append_assoc]
    exact congrArg _ hm
  · have hfun := @Nested.function kind line _ [] hn .nil
    simpa using hfun

end Takes

/-! ### Two places -/

/-- A token that goes on with nothing that stands before it: a name, or a word that cannot stand inside
an expression or a header. -/
def Token.begins : Token → Bool
  | .name _ => true
  | .word .and | .word .or | .word .in => false
  | .word _ => true
  | _ => false

/-- What surrounds a part of a script in two places: the token that it ends with, what comes after that,
and what has been noted down before it. -/
structure Setting where
  /-- What the part ends with in the first place. -/
  edge : Token
  /-- What the part ends with in the second place. -/
  edge' : Token
  /-- What comes after it in the first place. -/
  rest : List Lexeme
  /-- What comes after it in the second place. -/
  rest' : List Lexeme
  /-- What has been noted down before it in the first place. -/
  noted : List (Mention × Lexeme)
  /-- What has been noted down before it in the second place. -/
  noted' : List (Mention × Lexeme)
  rest_ne_nil : rest ≠ []
  rest'_ne_nil : rest' ≠ []
  /-- The part ends alike, or with a statement in the first place and with something that begins anew
  in the second. -/
  edges : edge = edge' ∨ edge = .word .break ∧ edge'.begins

instance : Inhabited Setting where
  default := ⟨.eof, .eof, [⟨.eof, 0⟩], [⟨.eof, 0⟩], [], [], List.cons_ne_nil _ _,
    List.cons_ne_nil _ _, .inl rfl⟩

namespace Setting

variable (w : Setting)

/-- Two readers are at the same point of a part of a script. -/
def Beside (r r' : Reader) : Prop :=
  ∃ ls ls' c c' ms ms',
    r.ahead = ls ++ c :: w.rest ∧ r'.ahead = ls' ++ c' :: w.rest' ∧
    c.token = w.edge ∧ c'.token = w.edge' ∧ ls.map (·.token) = ls'.map (·.token) ∧
    r.mentions = ms ++ w.noted ∧ r'.mentions = ms' ++ w.noted' ∧
    (w.edge = w.edge' → ms.map (·.1.unlined) = ms'.map (·.1.unlined))

/-- A reader has not passed the end of the part. -/
def Inside (r : Reader) : Prop := w.rest.length < r.ahead.length

/-- The next tokens of two readers: the same one, or what the part ends with in the two places. -/
def Next (t t' : Token) : Prop := t = t' ∨ t = w.edge ∧ t' = w.edge'

instance : Std.Refl w.Next := ⟨fun _ => .inl rfl⟩

variable {w} {r r' : Reader}

theorem Inside.of_suffix (h : w.Inside r') (hs : r'.ahead <:+ r.ahead) : w.Inside r :=
  Nat.lt_of_lt_of_le h hs.length_le

/-- Two readers have the same lexeme before them, or they are at the end of the part. -/
theorem Beside.cases (h : w.Beside r r') :
    (∃ l ls l' ls', r.ahead = l :: ls ∧ r'.ahead = l' :: ls' ∧ l.token = l'.token ∧
      w.rest.length < ls.length ∧ w.Beside { r with ahead := ls } { r' with ahead := ls' }) ∨
    r.ahead.length = w.rest.length + 1 ∧ r.head.token = w.edge ∧ r'.head.token = w.edge' := by
  obtain ⟨ls, ls', c, c', ms, ms', ha, ha', hc, hc', ht, hm, hm', hu⟩ := h
  cases ls with
  | nil =>
    cases ls' with
    | nil => exact .inr ⟨by rw [ha]; rfl, by rw [Parse.head_eq ha, hc], by rw [Parse.head_eq ha', hc']⟩
    | cons l' ls' => cases ht
  | cons l ls =>
    cases ls' with
    | nil => cases ht
    | cons l' ls' =>
      rw [List.map_cons, List.map_cons, List.cons.injEq] at ht
      refine .inl ⟨l, ls ++ c :: w.rest, l', ls' ++ c' :: w.rest', ha, ha', ht.1, ?_,
        ls, ls', c, c', ms, ms', rfl, rfl, hc, hc', ht.2, hm, hm', hu⟩
      rw [List.length_append, List.length_cons]
      omega

theorem Beside.head (h : w.Beside r r') : w.Next r.head.token r'.head.token := by
  rcases h.cases with ⟨l, ls, l', ls', ha, ha', ht, -⟩ | ⟨-, hedge, hedge'⟩
  · exact .inl (by rw [Parse.head_eq ha, Parse.head_eq ha', ht])
  · exact .inr ⟨hedge, hedge'⟩

theorem Beside.length (h : w.Beside r r') :
    r.ahead.length + w.rest'.length = r'.ahead.length + w.rest.length := by
  obtain ⟨ls, ls', c, c', -, -, ha, ha', -, -, htokens, -⟩ := h
  have hlen : ls.length = ls'.length := by simpa using congrArg List.length htokens
  rw [ha, ha', List.length_append, List.length_append, List.length_cons, List.length_cons]
  omega

/-- Where there is a lexeme before one reader, there is one before the other. -/
theorem Beside.exists_cons (h : w.Beside r r') : ∃ l ls, r'.ahead = l :: ls := by
  obtain ⟨-, ls', -, c', -, -, -, ha', -⟩ := h
  cases ls' with
  | nil => exact ⟨_, _, ha'⟩
  | cons l ls => exact ⟨_, _, ha'⟩

/-- Where one of the next tokens can be read, so can the other. -/
theorem Next.valid {t t' : Token} (h : w.Next t t') (ht : Parse.valid t) : Parse.valid t' := by
  rcases h with rfl | ⟨rfl, rfl⟩
  · exact ht
  · rcases w.edges with heq | ⟨-, hbegins⟩
    · exact heq ▸ ht
    · cases hedge : w.edge' with
      | invalid f near =>
        rw [hedge] at hbegins
        cases hbegins
      | _ => rfl

end Setting

/-- A rule that succeeds in the first place without passing the end of the part succeeds alike in
the second one, or finds that the text is nested too deeply.  At most `size` lexemes of the part
are left. -/
structure Mirrors (w : Setting) (kind : Mention → Prop) (alike : α → α → Prop) (count size : Nat)
    (p q : Parse α) : Prop where
  takes : Takes kind count p
  mirrors : ∀ r r', w.Beside r r' → r.ahead.length ≤ size + w.rest.length →
    ∀ a s, p.Gives r a s → w.Inside s →
      (∃ b s', q.Gives r' b s' ∧ alike a b ∧ w.Beside s s') ∨ q.TooDeep r'

/-- Results that need not have anything in common. -/
def Unrelated (_ _ : α) : Prop := True

instance refl_eq : Std.Refl (@Eq α) := ⟨fun _ => rfl⟩

instance : Std.Refl (@Unrelated α) := ⟨fun _ => trivial⟩

namespace Mirrors

variable {w : Setting} {kind kind' : Mention → Prop} {alike : α → α → Prop}
  {alike' : β → β → Prop} {c c' n m : Nat} {p q : Parse α} {f g : α → Parse β}

theorem widen (h : Mirrors w kind alike c n p q) (hk : ∀ m, kind m → kind' m) :
    Mirrors w kind' alike c n p q :=
  ⟨h.takes.widen hk, h.mirrors⟩

theorem weaken (h : Mirrors w kind alike 1 n p q) : Mirrors w kind alike 0 n p q :=
  ⟨h.takes.weaken (Nat.zero_le 1), h.mirrors⟩

theorem less (h : Mirrors w kind alike c n p q) (hm : m ≤ n) : Mirrors w kind alike c m p q :=
  ⟨h.takes, fun r r' hb hlen => h.mirrors r r' hb (by omega)⟩

/-- Nothing is left of the part. -/
theorem zero (h : Takes kind c p) : Mirrors w kind alike c 0 p q := by
  refine ⟨h, fun r r' hb hlen a s hp hin => ?_⟩
  obtain ⟨hs, -⟩ := h r a s hp
  have hin := hin.of_suffix hs
  rw [Setting.Inside] at hin
  omega

/-- Two rules one after the other; what the first one takes is missing for the second one. -/
theorem chain [Std.Refl alike] (hp : Mirrors w kind alike c n p q)
    (hf : ∀ a b, alike a b → Mirrors w kind alike' c' (n - c) (f a) (g b)) :
    Mirrors w kind alike' (c + c') n (p >>= f) (q >>= g) := by
  have hf' (a : α) : Takes kind c' (f a) := (hf a a (Std.Refl.refl a)).takes
  refine ⟨hp.takes.bind hf', fun r r' hb hlen b s hpf hin => ?_⟩
  obtain ⟨a, r₁, hpa, hfa⟩ := Parse.gives_bind_iff.1 hpf
  have hin₁ : w.Inside r₁ := hin.of_suffix (hf' a r₁ b s hfa).1
  rcases hp.mirrors r r' hb hlen a r₁ hpa hin₁ with ⟨a', r₁', hqa, haa, hb₁⟩ | hdeep
  · have hlen₁ : r₁.ahead.length ≤ n - c + w.rest.length := by
      have hpos := List.length_pos_iff.2 w.rest_ne_nil
      have hc := (hp.takes r a r₁ hpa).2.1
      rw [Setting.Inside] at hin₁
      omega
    rcases (hf a a' haa).mirrors r₁ r₁' hb₁ hlen₁ b s hfa hin with ⟨b', s', hgb, hbb, hb₂⟩ | hdeep
    · exact .inl ⟨b', s', hqa.bind hgb, hbb, hb₂⟩
    · exact .inr (hqa.tooDeep hdeep)
  · exact .inr hdeep.bind

/-- A rule after one that may take nothing. -/
theorem bind [Std.Refl alike] (hp : Mirrors w kind alike 0 n p q)
    (hf : ∀ a b, alike a b → Mirrors w kind alike' c n (f a) (g b)) :
    Mirrors w kind alike' c n (p >>= f) (q >>= g) := by
  simpa using hp.chain hf

/-- A rule after one that takes a lexeme. -/
theorem after [Std.Refl alike] (hp : Mirrors w kind alike 1 n p q)
    (hf : ∀ a b, alike a b → Mirrors w kind alike' 0 (n - 1) (f a) (g b)) :
    Mirrors w kind alike' 1 n (p >>= f) (q >>= g) :=
  hp.chain hf

/-- A rule that tells both readers apart from nothing and leaves them where they are. -/
theorem of_still {φ ψ : Reader → α} (hp : ∀ r, p.runOn r = (.ok (φ r), r))
    (hq : ∀ r, q.runOn r = (.ok (ψ r), r))
    (h : ∀ r r', w.Beside r r' → w.Inside r → alike (φ r) (ψ r')) :
    Mirrors w kind alike 0 n p q := by
  refine ⟨.of_still fun r => by rw [hp], fun r r' hb hlen a s hpa hin => ?_⟩
  rw [Parse.Gives, hp] at hpa
  cases hpa
  exact .inl ⟨ψ r', r', hq r', h r r' hb hin, hb⟩

theorem pure {a b : α} (h : alike a b) :
    Mirrors w kind alike 0 n (pure a : Parse α) (pure b : Parse α) :=
  of_still (fun _ => rfl) (fun _ => rfl) fun _ _ _ _ => h

theorem refuse (fault : SyntaxFault) : Mirrors w kind alike c n (Parse.refuse fault) q :=
  ⟨.refuse fault, fun _ _ _ _ _ _ hp => by cases hp⟩

/-- There is no level left in the second place. -/
theorem tooDeep (h : Takes kind c p) (hq : ∀ r, q.TooDeep r) : Mirrors w kind alike c n p q :=
  ⟨h, fun _ r' _ _ _ _ _ _ => .inr (hq r')⟩

theorem peek : Mirrors w kind w.Next 0 n Parse.peek Parse.peek :=
  of_still (fun _ => rfl) (fun _ => rfl) fun _ _ hb _ => hb.head

/-- What takes a lexeme at the end of the part passes it. -/
theorem past (h : Takes kind 1 p) (hc : c ≤ 1) (hn : n ≤ 1) : Mirrors w kind alike c n p q := by
  refine ⟨h.weaken hc, fun r r' hb hlen a s hp hin => ?_⟩
  have hpos := List.length_pos_iff.2 w.rest_ne_nil
  have hcount := (h r a s hp).2.1
  rw [Setting.Inside] at hin
  omega

theorem nextLine : Mirrors w kind Unrelated 0 n Parse.nextLine Parse.nextLine :=
  of_still (fun _ => rfl) (fun _ => rfl) fun _ _ _ _ => trivial

theorem lastLine : Mirrors w kind Unrelated 0 n Parse.lastLine Parse.lastLine :=
  of_still (fun _ => rfl) (fun _ => rfl) fun _ _ _ _ => trivial

theorem note {k k' : Mention} (hk : kind k) (h : w.edge = w.edge' → k.unlined = k'.unlined) :
    Mirrors w kind Eq 0 n (Parse.note k) (Parse.note k') := by
  refine ⟨.note hk, fun r r' hb hlen a s hp hin => ?_⟩
  cases hp
  obtain ⟨ls, ls', c, c', ms, ms', ha, ha', hc, hc', ht, hm, hm', hu⟩ := hb
  refine .inl ⟨(), _, Parse.gives_note k', rfl, ls, ls', c, c', (k, r.head) :: ms,
    (k', r'.head) :: ms', ha, ha', hc, hc', ht, ?_, ?_, fun hedge => ?_⟩
  · exact congrArg _ hm
  · exact congrArg _ hm'
  · rw [List.map_cons, List.map_cons, hu hedge, h hedge]

theorem advance : Mirrors w kind Eq 1 n Parse.advance Parse.advance := by
  refine ⟨.advance, fun r r' hb hlen a s hp hin => ?_⟩
  have htakes : Takes kind 1 Parse.advance := .advance
  have hcount := (htakes r a s hp).2.1
  have hpos := List.length_pos_iff.2 w.rest_ne_nil
  rcases hb.cases with ⟨l, ls, l', ls', ha, ha', -, hlt, hb'⟩ | ⟨hlen, -⟩
  · obtain ⟨m, ms, rfl⟩ := List.exists_cons_of_length_pos (Nat.zero_lt_of_lt hlt)
    obtain ⟨m', ms', rfl⟩ : ∃ m' ms', ls' = m' :: ms' := hb'.exists_cons
    have hvalid : Parse.valid m.token := by
      cases hv : Parse.valid m.token with
      | true => rfl
      | false =>
        obtain ⟨e, r₁, hfail⟩ := Parse.fails_advance ha hv
        rw [Parse.Gives, hfail] at hp
        cases hp
    have hnext : w.Next m.token m'.token := hb'.head
    rw [Parse.Gives, Parse.gives_advance ha hvalid] at hp
    cases hp
    exact .inl ⟨(), _, Parse.gives_advance ha' (hnext.valid hvalid), rfl, hb'⟩
  · -- The lexeme that is taken would be the last one of the part.
    rw [Setting.Inside] at hin
    omega

/-! ### Small rules -/

/-- A choice by the next token.  At the end of the part the choice in the first place is made by a
statement, and in the second one by something that begins anew. -/
theorem look_at {F G : Token → Parse β} (h : ∀ t, Mirrors w kind alike' c n (F t) (G t))
    (hedge : ∀ t, t.begins → Mirrors w kind alike' c (min n 1) (F (.word .break)) (G t)) :
    Mirrors w kind alike' c n (Parse.peek >>= F) (Parse.peek >>= G) := by
  have htakes : Takes kind (0 + c) (Parse.peek >>= F) :=
    (Takes.of_still fun _ => rfl).bind fun t => (h t).takes
  refine ⟨by simpa using htakes, fun r r' hb hlen a s hp hin => ?_⟩
  have hrun (r : Reader) (F : Token → Parse β) :
      (Parse.peek >>= F).runOn r = (F r.head.token).runOn r := by
    rw [Parse.runOn_bind, Parse.gives_peek]
  simp only [Parse.Gives, Parse.TooDeep, hrun] at hp ⊢
  rcases hb.cases with ⟨l, ls, l', ls', ha, ha', ht, -⟩ | ⟨hone, hhead, hhead'⟩
  · have heq : r.head.token = r'.head.token := by
      rw [Parse.head_eq ha, Parse.head_eq ha', ht]
    rw [← heq]
    exact (h r.head.token).mirrors r r' hb hlen a s hp hin
  · rw [hhead] at hp
    rw [hhead']
    rcases w.edges with heq | ⟨hbreak, hbegins⟩
    · rw [← heq]
      exact (h w.edge).mirrors r r' hb hlen a s hp hin
    · rw [hbreak] at hp
      exact (hedge w.edge' hbegins).mirrors r r' hb (by omega) a s hp hin

/-- A choice by a token that is taken in any case. -/
theorem look_at_taken {F G : Token → Parse β} (h : ∀ t, Mirrors w kind alike' 1 n (F t) (G t)) :
    Mirrors w kind alike' 1 n (Parse.peek >>= F) (Parse.peek >>= G) :=
  look_at h fun _ _ => past (h (.word .break)).takes (Nat.le_refl 1) (Nat.min_le_right n 1)

/-- What comes after taking a lexeme. -/
theorem advance_then {p q : Parse β} (h : Mirrors w kind alike' 0 (n - 1) p q) :
    Mirrors w kind alike' 1 n (Parse.advance >>= fun _ => p) (Parse.advance >>= fun _ => q) :=
  advance.after fun _ _ _ => h

/-- What comes after a note. -/
theorem note_then {k k' : Mention} {p q : Parse β} (hk : kind k) (hu : k.unlined = k'.unlined)
    (h : Mirrors w kind alike' c n p q) :
    Mirrors w kind alike' c n (Parse.note k >>= fun _ => p) (Parse.note k' >>= fun _ => q) :=
  (note hk fun _ => hu).bind fun _ _ _ => h

/-- A choice that depends on whether a token could be taken.  It is a token that can only go on with
something, or something has to be taken without it. -/
theorem skip {t : Token} {f g : Bool → Parse β} (ht : Mirrors w kind alike' 0 (n - 1) (f true) (g true))
    (hf : Mirrors w kind alike' c n (f false) (g false)) (hc : c ≤ 1)
    (hedge : t.begins = false ∨ (0 < n → Takes kind 1 (f false))) :
    Mirrors w kind alike' c n (Parse.skip? t >>= f) (Parse.skip? t >>= g) := by
  rw [Parse.skip?, bind_assoc, bind_assoc]
  have htrue := advance_then ht
  refine look_at (fun u => ?_) fun u hu => ?_
  · by_cases hut : u = t
    · rw [if_pos hut, bind_assoc, bind_assoc]
      simp only [pure_bind]
      exact ⟨htrue.takes.weaken hc, htrue.mirrors⟩
    · rw [if_neg hut, pure_bind, pure_bind]
      exact hf
  · have hmin := Nat.min_le_right n 1
    by_cases hbreak : Token.word .break = t
    · rw [if_pos hbreak, bind_assoc]
      simp only [pure_bind]
      exact past htrue.takes hc hmin
    · rw [if_neg hbreak, pure_bind]
      rcases hedge with hedge | hedge
      · have hne : u ≠ t := fun heq => by rw [heq, hedge] at hu; cases hu
        rw [if_neg hne, pure_bind]
        exact hf.less (Nat.min_le_left n 1)
      · rcases Nat.eq_zero_or_pos n with rfl | hn
        · exact zero hf.takes
        · exact past (hedge hn) hc hmin

/-- A choice that depends on a token where something is taken in any case. -/
theorem skip_taken {t : Token} {f g : Bool → Parse β}
    (ht : Mirrors w kind alike' 0 (n - 1) (f true) (g true))
    (hf : Mirrors w kind alike' 1 n (f false) (g false)) :
    Mirrors w kind alike' 1 n (Parse.skip? t >>= f) (Parse.skip? t >>= g) :=
  skip ht hf (Nat.le_refl 1) (.inr fun _ => hf.takes)

/-- Both readers take a token, or both leave it. -/
theorem skip? {t : Token} (ht : t.begins = false) :
    Mirrors w kind Eq 0 n (Parse.skip? t) (Parse.skip? t) := by
  have h : Mirrors w kind Eq 0 n (Parse.skip? t >>= Pure.pure) (Parse.skip? t >>= Pure.pure) :=
    skip (pure rfl) (pure rfl) (Nat.zero_le 1) (.inl ht)
  simpa using h

theorem expect (t : Token) : Mirrors w kind Eq 1 n (Parse.expect t) (Parse.expect t) := by
  refine skip_taken ?_ ?_
  · exact pure rfl
  · exact refuse _

theorem expect_then {t : Token} {p q : Parse β} (h : Mirrors w kind alike' 0 (n - 1) p q) :
    Mirrors w kind alike' 1 n (Parse.expect t >>= fun _ => p) (Parse.expect t >>= fun _ => q) :=
  (expect t).after fun _ _ _ => h

theorem close (closing opening : Token) (line line' : Nat) :
    Mirrors w kind Eq 1 n (Parse.close closing opening line)
      (Parse.close closing opening line') := by
  refine skip_taken ?_ ?_
  · exact pure rfl
  · refine nextLine.bind fun here _ _ => ?_
    by_cases hline : here = line
    · rw [if_pos hline]
      exact refuse _
    · rw [if_neg hline]
      exact refuse _

theorem name : Mirrors w kind Eq 1 n Parse.name Parse.name := by
  refine look_at_taken fun t => ?_
  split
  · exact advance_then (pure rfl)
  · exact refuse _

/-- A loop that takes a lexeme each time it goes round, with enough turns in both places. -/
theorem loop (same : δ → δ → Prop) {f g : Nat → δ → Parse β} {n : Nat}
    (h₀ : ∀ d d', same d d' → Takes kind 0 (f 0 d))
    (h : ∀ m t t', m ≤ n →
      (∀ d d', same d d' → Mirrors w kind alike' 0 (m - 1) (f t d) (g t' d')) →
      ∀ d d', same d d' → Mirrors w kind alike' 0 m (f (t + 1) d) (g (t' + 1) d'))
    {t t' : Nat} (ht : n ≤ t) (ht' : n ≤ t') {d d' : δ} (hd : same d d') :
    Mirrors w kind alike' 0 n (f t d) (g t' d') := by
  suffices hm : ∀ t t' m, m ≤ n → m ≤ t → m ≤ t' → ∀ d d', same d d' →
      Mirrors w kind alike' 0 m (f t d) (g t' d') from
    hm t t' n (Nat.le_refl n) ht ht' d d' hd
  intro t
  induction t with
  | zero =>
    intro t' m hm ht ht' d d' hd
    rw [Nat.le_zero.1 ht]
    exact zero (h₀ d d' hd)
  | succ t ih =>
    intro t' m hm ht ht' d d' hd
    cases m with
    | zero =>
      have hround := h 0 t t hm (ih t 0 hm (Nat.zero_le t) (Nat.zero_le t)) d d' hd
      exact zero hround.takes
    | succ m =>
      cases t' with
      | zero => exact absurd ht' (Nat.not_succ_le_zero m)
      | succ t' =>
        exact h (m + 1) t t' hm
          (ih t' m (Nat.le_of_succ_le hm) (Nat.le_of_succ_le_succ ht) (Nat.le_of_succ_le_succ ht'))
          d d' hd

/-- A function, from its first mention to its last. -/
theorem function [Std.Refl alike] (h : Mirrors w Mention.IsInner alike c n p q) (line line' : Nat) :
    Mirrors w kind alike c n
      (do
        Parse.note (.openFunction line)
        let a ← p
        Parse.note .closeFunction
        return a)
      (do
        Parse.note (.openFunction line')
        let a ← q
        Parse.note .closeFunction
        return a) := by
  have hall : Mirrors w (fun _ => True) alike c n
      (do
        Parse.note (.openFunction line)
        let a ← p
        Parse.note .closeFunction
        return a)
      (do
        Parse.note (.openFunction line')
        let a ← q
        Parse.note .closeFunction
        return a) :=
    note_then trivial rfl ((h.widen fun _ _ => trivial).chain fun _ _ ha =>
      note_then trivial rfl (pure ha))
  exact ⟨h.takes.function line, hall.mirrors⟩

end Mirrors

end Stencil.Script
