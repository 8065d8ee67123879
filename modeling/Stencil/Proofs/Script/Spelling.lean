import Stencil.Proofs.Script.LineEnd

/-!
# Spelling

The text that stands for some tokens, whatever comes before it and after it: `Spells`.  Names, words
and marks are put together with `Spells.append`, and a text before a line break is a piece of its
own (`spells_lineEnd`).  Lines do not matter here.
-/

namespace Stencil.Script

open Stencil.Text (Bytes bytesOf)

/-- The tokens of a text that starts on a line. -/
def tokensAt (line : Nat) (s : Bytes) : List Token := (lexAt line s).map (·.token)

/-- A text stands for some tokens in front of another text. -/
def Spells (s : Bytes) (ts : List Token) (t : Bytes) : Prop :=
  ∀ line, ∃ line', tokensAt line (s ++ t) = ts ++ tokensAt line' t

namespace Spells

variable {s s' t : Bytes} {ts ts' : List Token}

theorem nil : Spells [] [] t := fun line => ⟨line, rfl⟩

theorem append (h : Spells s ts (s' ++ t)) (h' : Spells s' ts' t) :
    Spells (s ++ s') (ts ++ ts') t := by
  intro line
  obtain ⟨line', h⟩ := h line
  obtain ⟨line'', h'⟩ := h' line'
  exact ⟨line'', by rw [List.append_assoc, h, h', List.append_assoc]⟩

/-- A text that starts with one token. -/
theorem of_token {b : UInt8} {tok : Token}
    (h : ∀ line, startAt line b (s ++ t) = .token tok 0 t) : Spells (b :: s) [tok] t := by
  intro line
  refine ⟨line, ?_⟩
  rw [tokensAt, List.cons_append, lexAt_cons, h]
  rfl

/-- A blank. -/
theorem blank {b : UInt8} (hb : isBreak b = false) (hblank : Number.isBlankByte b) :
    Spells [b] [] t := by
  intro line
  refine ⟨line, ?_⟩
  have hstart : startAt line b t = .skip 0 t := by
    rw [startAt, start.eq_def, hb, if_neg (by decide), if_pos hblank]
  rw [tokensAt, List.cons_append, List.nil_append, lexAt_cons, hstart]
  rfl

theorem space (h : Spells s ts t) : Spells (bytesOf " " ++ s) ts t :=
  append (blank (b := byte ' ') (by decide) (by decide)) h

end Spells

/-! ### Names and words -/

/-- A property of bytes can be checked byte by byte. -/
theorem forall_byte {p : UInt8 → Prop} (h : ∀ n < 256, p (UInt8.ofNat n)) (b : UInt8) : p b := by
  have hb := h b.toNat b.toNat_lt
  rwa [UInt8.ofNat_toNat] at hb

theorem isNameStart_apart (b : UInt8) (hb : isNameStart b) :
    isBreak b = false ∧ Number.isBlankByte b = false ∧ b ≠ byte '-' ∧ b ≠ byte '[' ∧
      b ≠ byte '"' ∧ b ≠ byte '\'' ∧ isDigit b = false ∧ isNamePart b := by
  revert b
  exact forall_byte (by decide +kernel)

/-- A name or a reserved word. -/
def IsNameLike (x : Bytes) : Prop := x.head?.any isNameStart ∧ x.all isNamePart

instance (x : Bytes) : Decidable (IsNameLike x) := inferInstanceAs (Decidable (_ ∧ _))

/-- The token of a name or a reserved word. -/
def nameToken (x : Bytes) : Token :=
  match Word.ofBytes? x with
  | some w => .word w
  | none => .name x

theorem readName_eq {x t : Bytes} (hx : x.all isNamePart) (ht : t.head?.any isNamePart = false) :
    readName (x ++ t) = .token (nameToken x) 0 t := by
  have hx' : ∀ b ∈ x, isNamePart b := List.all_eq_true.1 hx
  have ht' : t.takeWhile isNamePart = [] ∧ t.dropWhile isNamePart = t := by
    cases t with
    | nil => exact ⟨rfl, rfl⟩
    | cons b t =>
      have hb : ¬ isNamePart b := by simpa using ht
      exact ⟨List.takeWhile_cons_of_neg hb, List.dropWhile_cons_of_neg hb⟩
  have htake : (x ++ t).takeWhile isNamePart = x := by
    rw [List.takeWhile_append_of_pos hx', ht'.1, List.append_nil]
  have hdrop : (x ++ t).dropWhile isNamePart = t := by
    rw [List.dropWhile_append_of_pos hx', ht'.2]
  rw [readName, htake, hdrop, nameToken]
  cases Word.ofBytes? x <;> rfl

theorem Spells.nameLike {x t : Bytes} (hx : IsNameLike x) (ht : t.head?.any isNamePart = false) :
    Spells x [nameToken x] t := by
  obtain ⟨hstart, hall⟩ := hx
  cases x with
  | nil => cases hstart
  | cons b s =>
    have hb : isNameStart b := by simpa using hstart
    obtain ⟨hbreak, hblank, hdash, hbracket, hdouble, hsingle, hdigit, -⟩ :=
      isNameStart_apart b hb
    refine of_token fun line => ?_
    rw [startAt, start.eq_def, hbreak, if_neg (by decide), hblank, if_neg (by decide),
      if_neg (fun h => hdash h.1), if_neg hbracket, if_neg (by simp [hdouble, hsingle]), hdigit,
      if_neg (by decide), if_pos hb]
    exact readName_eq hall ht

/-! ### Marks -/

/-- Marks of one byte that no other mark starts with. -/
def Mark.IsLone (m : Mark) : Prop :=
  m = .openParen ∨ m = .closeParen ∨ m = .semicolon ∨ m = .comma

theorem Spells.mark {m : Mark} (hm : m.IsLone) {t : Bytes} :
    Spells (bytesOf m.text) [.mark m] t := by
  rcases hm with rfl | rfl | rfl | rfl
  all_goals
    refine of_token (s := []) fun line => ?_
    cases t <;> rfl

/-! ### Lines -/

/-- The token that a text starts with, if it starts with one. -/
def Start.tokens : Start → List Token
  | .token t _ _ => [t]
  | .skip _ _ | .fault _ _ _ => []

/-- A line break stands for nothing, also where another one after it is a part of it. -/
theorem tokensAt_break {b : UInt8} (hb : isBreak b) (line : Nat) (s : Bytes) :
    ∃ line', line ≤ line' ∧ tokensAt line (b :: s) = tokensAt line' s := by
  induction hn : s.length using Nat.strong_induction_on generalizing b line s with
  | _ n ih =>
    subst hn
    have hstep {c : UInt8} (hc : isBreak c) (line : Nat) (s : Bytes) :
        tokensAt line (c :: s) = tokensAt (line + 1) (afterBreak c s) := by
      rw [tokensAt, lexAt_cons, startAt_eq, if_pos hc]
      rfl
    have hafter (c : UInt8) (s : Bytes) : afterBreak c s = s ∨
        ∃ d t, s = d :: t ∧ isBreak d ∧ afterBreak c s = t := by
      cases s with
      | nil => exact .inl rfl
      | cons d t =>
        rw [afterBreak]
        split
        next h => exact .inr ⟨d, t, rfl, (Bool.and_eq_true_iff.1 h).1, rfl⟩
        next => exact .inl rfl
    rw [hstep hb]
    rcases hafter b s with h | ⟨c, t, rfl, hc, h⟩
    · exact ⟨line + 1, Nat.le_succ line, by rw [h]⟩
    · -- the second break is read on its own now, and it may take a third one with it
      rw [h]
      rcases hafter c t with h' | ⟨d, t', rfl, hd, h'⟩
      · exact ⟨line, le_rfl, by rw [hstep hc, h']⟩
      · obtain ⟨line', hle, h''⟩ := ih t'.length (by simp only [List.length_cons]; omega) hd
          (line + 1) t' rfl
        refine ⟨line' - 1, by omega, ?_⟩
        rw [hstep hc, h', h'', Nat.sub_add_cancel (by omega)]

theorem Spells.lineBreak {b : UInt8} (hb : isBreak b) {t : Bytes} : Spells [b] [] t := fun line =>
  have ⟨line', _, h⟩ := tokensAt_break hb line t
  ⟨line', h⟩

variable {after u t : Bytes}

/-- A text before a line break, from its first token on. -/
theorem Spells.of_start {b : UInt8} {x : Start} {r : Bytes} {ts : List Token}
    (hx : x.rest? = some r)
    (h : ∀ line, startAt line b (u ++ lineEnd t) = x.append (lineEnd t))
    (hr : Spells (r ++ [byte '\n']) ts t) :
    Spells (b :: u ++ [byte '\n']) (x.tokens ++ ts) t := by
  intro line
  have hline (u : Bytes) : u ++ [byte '\n'] ++ t = u ++ lineEnd t := by
    rw [List.append_assoc]
    rfl
  rw [hline, List.cons_append, tokensAt, lexAt_cons, h]
  cases x with
  | fault f near lines => cases hx
  | skip lines rest =>
    obtain rfl : rest = r := Option.some.inj hx
    obtain ⟨line', hr⟩ := hr (line + lines)
    rw [hline] at hr
    exact ⟨line', hr⟩
  | token tok lines rest =>
    obtain rfl : rest = r := Option.some.inj hx
    obtain ⟨line', hr⟩ := hr (line + lines)
    rw [hline] at hr
    exact ⟨line', congrArg (tok :: ·) hr⟩

theorem lexFrom_ne_nil (steps line : Nat) (s : Bytes) : lexFrom steps line s ≠ [] := by
  induction steps generalizing line s with
  | zero => cases s <;> simp [lexFrom]
  | succ steps ih =>
    cases s with
    | nil => simp [lexFrom]
    | cons b s =>
      rw [lexFrom]
      split
      · exact ih _ _
      · simp
      · simp

theorem tokensAt_ne_nil (line : Nat) (s : Bytes) : tokensAt line s ≠ [] := fun h =>
  lexFrom_ne_nil _ line s (List.map_eq_nil_iff.1 h)

/-- The first token of a text that can be lexed up to its end, and the tokens after it. -/
theorem start_of_eof {b : UInt8} {line : Nat} {s : Bytes}
    (h : (tokensAt line (b :: s)).getLast? = some .eof) :
    ∃ r line', (startAt line b s).rest? = some r ∧ (tokensAt line' r).getLast? = some .eof ∧
      tokensAt line (b :: s) = (startAt line b s).tokens ++ tokensAt line' r := by
  have hcons := lexAt_cons line b s
  cases hstart : startAt line b s with
  | fault f near lines =>
    rw [hstart] at hcons
    rw [tokensAt, hcons] at h
    cases h
  | skip lines rest =>
    rw [hstart] at hcons
    rw [tokensAt, hcons] at h ⊢
    exact ⟨rest, line + lines, rfl, h, rfl⟩
  | token tok lines rest =>
    rw [hstart] at hcons
    rw [tokensAt, hcons] at h ⊢
    refine ⟨rest, line + lines, rfl, ?_, rfl⟩
    obtain ⟨t, ts, hrest⟩ := List.exists_cons_of_ne_nil (tokensAt_ne_nil (line + lines) rest)
    rw [tokensAt] at hrest
    rw [List.map_cons, hrest, List.getLast?_cons_cons] at h
    rw [tokensAt, hrest]
    exact h

/-- **Lexing up to a line break.**  A text before a line break is a piece of its own, unless it is at
fault when it is followed by a closer only. -/
theorem spells_lineEnd (hc : IsCloser after) {line : Nat}
    (heof : (tokensAt line (u ++ lineEnd after)).getLast? = some .eof) :
    ∃ ts, ∀ t, Spells (u ++ [byte '\n']) ts t := by
  induction hn : u.length using Nat.strong_induction_on generalizing u line with
  | _ n ih =>
    subst hn
    cases u with
    | nil => exact ⟨[], fun t => .lineBreak (by decide)⟩
    | cons b u =>
      rw [List.cons_append] at heof
      obtain ⟨r, line', hr, heof', -⟩ := start_of_eof heof
      rcases startAt_lineEnd hc b u with ⟨rfl, h⟩ | h | ⟨x, u', hx, hlen, h⟩
      · -- the text ends with the first half of a line break
        refine ⟨[], fun t line => ⟨line + 1, ?_⟩⟩
        change tokensAt line (b :: lineEnd t) = _
        rw [tokensAt, lexAt_cons, h]
        rfl
      · obtain ⟨f, near, lines, h⟩ := h line
        dsimp only at h
        rw [h] at hr
        cases hr
      · dsimp only at h
        have hr' : r = u' ++ lineEnd after := by
          rw [h] at hr
          cases x with
          | fault f near lines => cases hx
          | skip lines rest => cases hx; cases hr; rfl
          | token tok lines rest => cases hx; cases hr; rfl
        rw [hr'] at heof'
        obtain ⟨ts, hts⟩ := ih u'.length (by simp only [List.length_cons]; omega) heof' rfl
        exact ⟨x.tokens ++ ts, fun t => .of_start hx (fun line => h line t) (hts t)⟩

/-- The tokens of a text before a line break. -/
def lineTokens (u : Bytes) : List Token := (tokensAt 1 (u ++ [byte '\n'])).dropLast

/-- A text can be lexed up to a line break after it. -/
def IsLine (u : Bytes) : Prop := (tokensAt 1 (u ++ [byte '\n'])).getLast? = some .eof

instance (u : Bytes) : Decidable (IsLine u) := inferInstanceAs (Decidable (_ = _))

theorem tokensAt_nil (line : Nat) : tokensAt line [] = [.eof] := rfl

theorem lineTokens_eq {ts : List Token} (h : Spells (u ++ [byte '\n']) ts []) :
    IsLine u ∧ lineTokens u = ts := by
  obtain ⟨line, h⟩ := h 1
  rw [List.append_nil, tokensAt_nil] at h
  exact ⟨by rw [IsLine, h, List.getLast?_concat], by rw [lineTokens, h, List.dropLast_concat]⟩

theorem spells_line (h : IsLine u) : Spells (u ++ [byte '\n']) (lineTokens u) t := by
  have hc : IsCloser [] := fun _ hb => absurd hb List.not_mem_nil
  obtain ⟨ts, hts⟩ := spells_lineEnd hc h
  rw [(lineTokens_eq (hts [])).2]
  exact hts t

end Stencil.Script
