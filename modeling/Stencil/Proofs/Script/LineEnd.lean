import Stencil.Proofs.Script.Steps

/-!
# Lexing up to a line break

A text that is put on lines of its own inside a script is lexed there as it is by itself.  The only
way in which it can reach past its last line is a string or a comment that it leaves open, and then
it cannot be lexed by itself either: `startAt_lineEnd`, for the token that it starts with.

To be by itself means to be followed by a line break and something that no string or comment can
take for its end (`IsCloser`), such as the parenthesis after an expression.
-/

namespace Stencil.Script

open Stencil.Text (Bytes bytesOf)

/-- A line break and what stands on the lines after it. -/
def lineEnd (t : Bytes) : Bytes := byte '\n' :: t

/-- Bytes that are neither blank nor part of the end of a string or a long bracket. -/
def IsCloser (c : Bytes) : Prop :=
  ∀ b ∈ c, isBreak b = false ∧ Number.isBlankByte b = false ∧
    b ≠ byte '"' ∧ b ≠ byte '\'' ∧ b ≠ byte '\\' ∧ b ≠ byte ']'

instance (c : Bytes) : Decidable (IsCloser c) := inferInstanceAs (Decidable (∀ b ∈ c, _))

variable {after : Bytes}

/-! ### Escapes -/

theorem IsCloser.afterBreak (hc : IsCloser after) (b : UInt8) : afterBreak b after = after := by
  cases after with
  | nil => rfl
  | cons a t => rw [Script.afterBreak, (hc a (List.mem_cons_self ..)).1, Bool.false_and, if_neg (by decide)]

theorem IsCloser.tail {b : UInt8} {t : Bytes} (hc : IsCloser (b :: t)) : IsCloser t :=
  fun a ha => hc a (List.mem_cons_of_mem b ha)

theorem afterBreak_lineEnd (b : UInt8) (u : Bytes) :
    (u = [] ∧ ∀ t, afterBreak b (u ++ lineEnd t) = t) ∨
    ∃ r, r.length ≤ u.length ∧ ∀ t, afterBreak b (u ++ lineEnd t) = r ++ lineEnd t := by
  cases u with
  | nil =>
    by_cases hb : byte '\n' = b
    · exact .inr ⟨[], le_rfl, fun t => by subst hb; rfl⟩
    · refine .inl ⟨rfl, fun t => ?_⟩
      simp only [List.nil_append, lineEnd, afterBreak]
      rw [if_pos (by simp [isBreak, hb])]
  | cons c u =>
    refine .inr ?_
    by_cases hc : isBreak c && c != b
    · exact ⟨u, by simp, fun t => by simp [afterBreak, hc]⟩
    · exact ⟨c :: u, by simp, fun t => by simp [afterBreak, hc]⟩

theorem passBlanks_cons (b : UInt8) (s : Bytes) :
    passBlanks (b :: s) =
      if isBreak b then ((passBlanks (afterBreak b s)).1 + 1, (passBlanks (afterBreak b s)).2)
      else if Number.isBlankByte b then passBlanks s else (0, b :: s) := by
  cases s with
  | nil =>
    simp only [passBlanks, afterBreak]
  | cons c s =>
    rw [passBlanks, afterBreak]
    split
    · split <;> rfl
    · rfl

theorem passBlanks_closer (hafter : IsCloser after) : passBlanks after = (0, after) := by
  cases after with
  | nil => rfl
  | cons b t =>
    obtain ⟨hbreak, hblank, -⟩ := hafter b (List.mem_cons_self ..)
    rw [passBlanks_cons, if_neg (by simp [hbreak]), if_neg (by simp [hblank])]

theorem passBlanks_lineEnd (hc : IsCloser after) (u : Bytes) :
    (∃ m, passBlanks (u ++ lineEnd after) = (m, after)) ∨
    ∃ m r, r.length ≤ u.length ∧ ∀ t, passBlanks (u ++ lineEnd t) = (m, r ++ lineEnd t) := by
  induction hn : u.length using Nat.strong_induction_on generalizing u with
  | _ n ih =>
    subst hn
    match u with
    | [] =>
      refine .inl ⟨1, ?_⟩
      rw [List.nil_append, lineEnd, passBlanks_cons, if_pos (by decide), hc.afterBreak,
        passBlanks_closer hc]
    | b :: u =>
      by_cases hb : isBreak b
      · rcases afterBreak_lineEnd b u with ⟨rfl, hafter⟩ | ⟨r, hr, hafter⟩
        · refine .inl ⟨1, ?_⟩
          rw [List.cons_append, passBlanks_cons, if_pos hb, hafter, passBlanks_closer hc]
        · rcases ih r.length (by simp; omega) r rfl with ⟨m, hm⟩ | ⟨m, r', hr', hm⟩
          · refine .inl ⟨m + 1, ?_⟩
            rw [List.cons_append, passBlanks_cons, if_pos hb, hafter, hm]
          · refine .inr ⟨m + 1, r', by simp; omega, fun t => ?_⟩
            rw [List.cons_append, passBlanks_cons, if_pos hb, hafter, hm]
      · by_cases hblank : Number.isBlankByte b
        · rcases ih u.length (by simp) u rfl with ⟨m, hm⟩ | ⟨m, r', hr', hm⟩
          · refine .inl ⟨m, ?_⟩
            rw [List.cons_append, passBlanks_cons, if_neg hb, if_pos hblank, hm]
          · refine .inr ⟨m, r', by simp; omega, fun t => ?_⟩
            rw [List.cons_append, passBlanks_cons, if_neg hb, if_pos hblank, hm]
        · refine .inr ⟨0, b :: u, le_rfl, fun t => ?_⟩
          rw [List.cons_append, passBlanks_cons, if_neg hb, if_neg hblank]

theorem hexValue?_newline : hexValue? (byte '\n') = none := by decide

/-- What an escape is in a text before a line break: the same whatever comes after, or a fault, or
something that goes on up to the parenthesis. -/
def Escape.EndsIn (after u : Bytes) (escape : Bytes → Escape) : Prop :=
  (∃ f spelled, escape (lineEnd after) = .fault f spelled) ∨
  (∃ value lines, escape (lineEnd after) = .bytes value lines after) ∨
  ∃ value lines r, r.length ≤ u.length ∧
    ∀ t, escape (lineEnd t) = .bytes value lines (r ++ lineEnd t)

theorem Escape.EndsIn.mono {u v : Bytes} {escape : Bytes → Escape} (h : Escape.EndsIn after u escape)
    (hlen : u.length ≤ v.length) : Escape.EndsIn after v escape := by
  rcases h with h | h | ⟨value, lines, r, hr, h⟩
  · exact .inl h
  · exact .inr (.inl h)
  · exact .inr (.inr ⟨value, lines, r, hr.trans hlen, h⟩)

theorem hexEscape_lineEnd (spelled u : Bytes) :
    Escape.EndsIn after u fun t => hexEscape spelled (u ++ t) := by
  cases u with
  | nil =>
    refine .inl ⟨.hexExpected, spelled ++ [byte '\n'], ?_⟩
    simp [hexEscape, lineEnd, hexValue?_newline]
  | cons a u =>
    cases ha : hexValue? a with
    | none => exact .inl ⟨.hexExpected, spelled ++ [a], by simp [hexEscape, ha]⟩
    | some high =>
      cases u with
      | nil =>
        refine .inl ⟨.hexExpected, spelled ++ [a, byte '\n'], ?_⟩
        simp [hexEscape, ha, lineEnd, hexValue?_newline]
      | cons b u =>
        cases hb : hexValue? b with
        | none => exact .inl ⟨.hexExpected, spelled ++ [a, b], by simp [hexEscape, ha, hb]⟩
        | some low =>
          refine .inr (.inr ⟨[UInt8.ofNat (16 * high + low)], 0, u, by simp; omega, fun t => ?_⟩)
          simp [hexEscape, ha, hb]

theorem codePointDigits_lineEnd (spelled u : Bytes) (n : Nat) :
    Escape.EndsIn after u fun t => codePointDigits spelled n (u ++ t) := by
  induction u generalizing spelled n with
  | nil =>
    refine .inl ⟨.missingClose, spelled ++ [byte '\n'], ?_⟩
    simp only [lineEnd, List.nil_append, codePointDigits, hexValue?_newline]
    rw [if_neg (by decide)]
  | cons b u ih =>
    cases hb : hexValue? b with
    | some d =>
      by_cases hn : n ≤ 0x7FFFFFF
      · have := ih (spelled ++ [b]) (16 * n + d)
        simp only [Escape.EndsIn, List.cons_append, codePointDigits, hb, if_pos hn] at this ⊢
        rcases this with h | h | ⟨value, lines, r, hr, h⟩
        · exact .inl h
        · exact .inr (.inl h)
        · exact .inr (.inr ⟨value, lines, r, by simp; omega, h⟩)
      · refine .inl ⟨.codePointTooLarge, spelled ++ [b], ?_⟩
        simp only [List.cons_append, codePointDigits, hb, if_neg hn]
    | none =>
      by_cases hclose : b = byte '\x7d'
      · refine .inr (.inr ⟨codePointBytes n, 0, u, by simp, fun t => ?_⟩)
        simp only [List.cons_append, codePointDigits, hb, if_pos hclose]
      · refine .inl ⟨.missingClose, spelled ++ [b], ?_⟩
        simp only [List.cons_append, codePointDigits, hb, if_neg hclose]

theorem codePointEscape_lineEnd (spelled u : Bytes) :
    Escape.EndsIn after u fun t => codePointEscape spelled (u ++ t) := by
  cases u with
  | nil =>
    refine .inl ⟨.missingOpen, spelled ++ [byte '\n'], ?_⟩
    simp only [lineEnd, List.nil_append, codePointEscape]
    rw [if_pos (by decide)]
  | cons a u =>
    by_cases ha : a != byte '\x7b'
    · refine .inl ⟨.missingOpen, spelled ++ [a], ?_⟩
      simp only [List.cons_append, codePointEscape, if_pos ha]
    · cases u with
      | nil =>
        refine .inl ⟨.hexExpected, spelled ++ [a] ++ [byte '\n'], ?_⟩
        simp only [lineEnd, List.cons_append, List.nil_append, codePointEscape, if_neg ha,
          hexValue?_newline]
      | cons b u =>
        cases hb : hexValue? b with
        | none =>
          refine .inl ⟨.hexExpected, spelled ++ [a] ++ [b], ?_⟩
          simp only [List.cons_append, codePointEscape, if_neg ha, hb]
        | some d =>
          have : Escape.EndsIn after u
              fun t => codePointDigits (spelled ++ [a] ++ [b]) d (u ++ t) :=
            codePointDigits_lineEnd _ u d
          simp only [Escape.EndsIn, List.cons_append, codePointEscape, if_neg ha, hb] at this ⊢
          rcases this with h | h | ⟨value, lines, r, hr, h⟩
          · exact .inl h
          · exact .inr (.inl h)
          · exact .inr (.inr ⟨value, lines, r, by simp; omega, h⟩)

theorem takeWhile_take_lineEnd {p : UInt8 → Bool} (hp : p (byte '\n') = false) (n : Nat)
    (u t : Bytes) : ((u ++ lineEnd t).take n).takeWhile p = (u.take n).takeWhile p := by
  induction u generalizing n with
  | nil => cases n <;> simp [lineEnd, hp]
  | cons b u ih =>
    cases n with
    | zero => rfl
    | succ n => simp only [List.cons_append, List.take_succ_cons, List.takeWhile_cons, ih]

theorem decimalEscape_lineEnd (spelled u : Bytes) :
    Escape.EndsIn after u fun t => decimalEscape spelled (u ++ t) := by
  set digits := (u.take 3).takeWhile isDigit with hd
  have hdigits : ∀ t, ((u ++ lineEnd t).take 3).takeWhile isDigit = digits :=
    takeWhile_take_lineEnd (by decide) 3 u
  have hlen : digits.length ≤ u.length :=
    (List.takeWhile_prefix _).length_le.trans (by rw [List.length_take]; omega)
  set value := digits.foldl (fun n d => 10 * n + (d.toNat - '0'.toNat)) 0 with hv
  by_cases hvalue : value ≤ 255
  · refine .inr (.inr ⟨[UInt8.ofNat value], 0, u.drop digits.length, by simp, fun t => ?_⟩)
    simp only [decimalEscape, hdigits, ← hv, if_pos hvalue]
    rw [List.drop_append_of_le_length hlen]
  · refine .inl ⟨.decimalTooLarge, spelled ++ digits ++
      ((u ++ lineEnd after).drop digits.length).take 1, ?_⟩
    simp only [decimalEscape, hdigits, ← hv, if_neg hvalue]

theorem readEscape_cons (b : UInt8) (s : Bytes) :
    readEscape (b :: s) =
      match letterEscape? b with
      | some value => .bytes [value] 0 s
      | none =>
        if isBreak b then .bytes [byte '\n'] 1 (afterBreak b s)
        else if b = byte 'x' then hexEscape [byte '\\', b] s
        else if b = byte 'u' then codePointEscape [byte '\\', b] s
        else if b = byte 'z' then .bytes [] (passBlanks s).1 (passBlanks s).2
        else if isDigit b then decimalEscape [byte '\\'] (b :: s)
        else .fault .invalidEscape [byte '\\', b] := rfl

theorem readEscape_lineEnd (hc : IsCloser after) (u : Bytes) :
    Escape.EndsIn after u fun t => readEscape (u ++ t) := by
  cases u with
  | nil => exact .inr (.inl ⟨[byte '\n'], 1, congrArg _ (hc.afterBreak _)⟩)
  | cons b u =>
    simp only [List.cons_append, readEscape_cons]
    cases letterEscape? b with
    | some value => exact .inr (.inr ⟨[value], 0, u, by simp, fun t => rfl⟩)
    | none =>
      dsimp only
      split
      · rcases afterBreak_lineEnd b u with ⟨rfl, h⟩ | ⟨r, hr, h⟩
        · exact .inr (.inl ⟨[byte '\n'], 1, congrArg _ (h _)⟩)
        · exact .inr (.inr ⟨[byte '\n'], 1, r, by simp; omega, fun t => congrArg _ (h t)⟩)
      · split
        · exact (hexEscape_lineEnd _ _).mono (Nat.le_succ _)
        · split
          · exact (codePointEscape_lineEnd _ _).mono (Nat.le_succ _)
          · split
            · rcases passBlanks_lineEnd hc u with ⟨m, h⟩ | ⟨m, r, hr, h⟩
              · exact .inr (.inl ⟨[], m, by simp only [h]⟩)
              · exact .inr (.inr ⟨[], m, r, by simp; omega, fun t => by simp only [h]⟩)
            · split
              · exact decimalEscape_lineEnd _ (b :: u)
              · exact .inl ⟨_, _, rfl⟩

/-! ### Tokens -/

/-- What a text starts with, with more text after it. -/
def Start.append (x : Start) (t : Bytes) : Start :=
  match x with
  | .skip lines rest => .skip lines (rest ++ t)
  | .token tok lines rest => .token tok lines (rest ++ t)
  | .fault f near lines => .fault f near lines

/-- What a text before a line break starts with, on any line: the same whatever comes after, or a
fault. -/
def Start.EndsIn (after u : Bytes) (read : Nat → Bytes → Start) : Prop :=
  (∀ line, ∃ f near lines, read line (lineEnd after) = .fault f near lines) ∨
  ∃ x r, Start.rest? x = some r ∧ r.length ≤ u.length ∧
    ∀ line t, read line (lineEnd t) = x.append (lineEnd t)

theorem Start.EndsIn.mono {u v : Bytes} {read : Nat → Bytes → Start} (h : Start.EndsIn after u read)
    (hlen : u.length ≤ v.length) : Start.EndsIn after v read := by
  rcases h with h | ⟨x, r, hx, hr, h⟩
  · exact .inl h
  · exact .inr ⟨x, r, hx, hr.trans hlen, h⟩

theorem readString_closer (hc : IsCloser after) {n : Nat} {d : UInt8}
    (hd : d = byte '"' ∨ d = byte '\'') (value : Bytes) (lines : Nat) :
    ∃ f near more, readString n d value lines after = .fault f near more := by
  induction after generalizing n value with
  | nil => cases n <;> exact ⟨_, _, _, rfl⟩
  | cons b t ih =>
    cases n with
    | zero => exact ⟨_, _, _, rfl⟩
    | succ n =>
      obtain ⟨hbreak, -, hdouble, hsingle, hslash, -⟩ := hc b (List.mem_cons_self ..)
      have hne : b ≠ d := by rcases hd with rfl | rfl <;> assumption
      rw [readString, if_neg hne, hbreak, if_neg (by decide), if_neg hslash]
      exact ih hc.tail (b :: value)

theorem readString_cons (d b : UInt8) (value : Bytes) (lines : Nat) (s : Bytes) :
    readString ((b :: s).length + 1) d value lines (b :: s) =
      if b = d then .token (.string value.reverse (soFar d value ++ [d])) lines s
      else if isBreak b then .fault .unfinishedString (some (soFar d value)) lines
      else if b = byte '\\' then
        match readEscape s with
        | .bytes bs more rest =>
          readString (rest.length + 1) d (bs.reverse ++ value) (lines + more) rest
        | .fault f spelled => .fault f (some (soFar d value ++ spelled)) lines
      else readString (s.length + 1) d (b :: value) lines s := by
  rw [readString, List.length_cons]
  split
  · rfl
  · split
    · rfl
    · split
      · cases hesc : readEscape s with
        | bytes bs more rest =>
          have := readEscape_length hesc
          exact readString_steps (by omega) (by omega)
        | fault f spelled => rfl
      · rfl

theorem readString_lineEnd (hc : IsCloser after) (u : Bytes) {d : UInt8}
    (hd : d = byte '"' ∨ d = byte '\'') (value : Bytes) (lines : Nat) :
    Start.EndsIn after u fun _ t => readString ((u ++ t).length + 1) d value lines (u ++ t) := by
  have hline : ¬ byte '\n' = d := by rcases hd with rfl | rfl <;> decide
  induction hn : u.length using Nat.strong_induction_on generalizing u value lines with
  | _ n ih =>
    subst hn
    cases u with
    | nil =>
      refine .inl fun _ => ⟨.unfinishedString, some (soFar d value), lines, ?_⟩
      change readString _ d value lines (byte '\n' :: after) = _
      rw [readString, if_neg hline, if_pos (by decide)]
    | cons b u =>
      simp only [List.cons_append, readString_cons]
      split
      · exact .inr ⟨.token _ lines u, u, rfl, by simp, fun _ t => rfl⟩
      · split
        · exact .inl fun _ => ⟨_, _, _, rfl⟩
        · split
          · rcases readEscape_lineEnd hc u with ⟨f, spelled, h⟩ | ⟨bs, more, h⟩ | ⟨bs, more, r, hr, h⟩
            · exact .inl fun _ => ⟨f, some (soFar d value ++ spelled), lines, by simp only [h]⟩
            · refine .inl fun _ => ?_
              simp only [h]
              exact readString_closer hc hd _ _
            · simp only [Start.EndsIn, h]
              exact (ih r.length (by simp; omega) r (bs.reverse ++ value) (lines + more) rfl).mono
                (Nat.le_succ_of_le hr)
          · exact (ih u.length (by simp) u (b :: value) lines rfl).mono (Nat.le_succ _)

theorem isPrefixOf_append_lineEnd {close : Bytes} (hc : byte '\n' ∉ close) (u t : Bytes) :
    close.isPrefixOf (u ++ lineEnd t) = close.isPrefixOf u := by
  induction u generalizing close with
  | nil =>
    cases close with
    | nil => rfl
    | cons c close =>
      have hne : c ≠ byte '\n' := fun h => hc (by simp [h])
      simp [lineEnd, List.isPrefixOf, hne]
  | cons b u ih =>
    cases close with
    | nil => rfl
    | cons c close =>
      rw [List.cons_append, List.isPrefixOf, List.isPrefixOf, ih fun h => hc (by simp [h])]

theorem drop_append_lineEnd {close u : Bytes} (h : close.isPrefixOf u) (t : Bytes) :
    (u ++ lineEnd t).drop close.length = u.drop close.length ++ lineEnd t :=
  List.drop_append_of_le_length (List.isPrefixOf_iff_prefix.1 h).length_le

theorem readLongFrom_cons {close : Bytes} (hc : 2 ≤ close.length) (value : Bytes) (lines : Nat)
    (b : UInt8) (s : Bytes) :
    readLongFrom close value lines (b :: s) =
      if close.isPrefixOf (b :: s) then ⟨value.reverse, lines, some ((b :: s).drop close.length)⟩
      else if isBreak b then readLongFrom close (byte '\n' :: value) (lines + 1) (afterBreak b s)
      else readLongFrom close (b :: value) lines s := by
  cases s with
  | nil =>
    have hne : ¬ close.isPrefixOf [b] = true := by
      intro h
      have := (List.isPrefixOf_iff_prefix.1 h).length_le
      simp at this
      omega
    simp only [if_neg hne, readLongFrom, afterBreak]
  | cons c s =>
    rw [readLongFrom, afterBreak]
    split
    · rfl
    · split
      · split <;> rfl
      · rfl

/-- The bracket that closes a long text. -/
def longClose (level : Nat) : Bytes := [byte ']'] ++ levelMarks level ++ [byte ']']

theorem newline_not_mem_longClose (level : Nat) : byte '\n' ∉ longClose level := by
  simp only [longClose, levelMarks, List.mem_append, List.mem_singleton, List.mem_replicate, not_or]
  exact ⟨⟨by decide, fun h => absurd h.2 (by decide)⟩, by decide⟩

theorem two_le_length_longClose (level : Nat) : 2 ≤ (longClose level).length := by
  simp [longClose]

theorem readLongFrom_closer (hc : IsCloser after) (level : Nat) (value : Bytes) (lines : Nat) :
    (readLongFrom (longClose level) value lines after).rest = none := by
  have hlen := two_le_length_longClose level
  induction after generalizing value lines with
  | nil => rfl
  | cons b t ih =>
    obtain ⟨hbreak, -, -, -, -, hne⟩ := hc b (List.mem_cons_self ..)
    have hpre : ¬ (longClose level).isPrefixOf (b :: t) = true := by
      intro h
      rw [longClose, List.cons_append, List.cons_append, List.isPrefixOf_cons_cons, Bool.and_eq_true,
        beq_iff_eq] at h
      exact hne h.1.symm
    rw [readLongFrom_cons hlen, if_neg hpre, hbreak, if_neg (by decide)]
    exact ih hc.tail (b :: value) lines

theorem readLongFrom_lineEnd (hc : IsCloser after) (level : Nat) (u value : Bytes) (lines : Nat) :
    (readLongFrom (longClose level) value lines (u ++ lineEnd after)).rest = none ∨
    ∃ v l r, r.length ≤ u.length ∧
      ∀ t, readLongFrom (longClose level) value lines (u ++ lineEnd t) =
        ⟨v, l, some (r ++ lineEnd t)⟩ := by
  induction hn : u.length using Nat.strong_induction_on generalizing u value lines with
  | _ n ih =>
    subst hn
    have hpre := isPrefixOf_append_lineEnd (newline_not_mem_longClose level) u
    have hlen := two_le_length_longClose level
    match u with
    | [] =>
      refine .inl ?_
      have hne : ¬ (longClose level).isPrefixOf (byte '\n' :: after) = true := by
        rw [← lineEnd, ← List.nil_append (lineEnd _), hpre]
        simp [longClose]
      rw [List.nil_append, lineEnd, readLongFrom_cons hlen, if_neg hne,
        if_pos (by decide), hc.afterBreak]
      exact readLongFrom_closer hc level _ _
    | b :: u =>
      have hread : ∀ t, readLongFrom (longClose level) value lines (b :: u ++ lineEnd t) =
          if (longClose level).isPrefixOf (b :: u) then
            ⟨value.reverse, lines, some ((b :: u ++ lineEnd t).drop (longClose level).length)⟩
          else if isBreak b then
            readLongFrom (longClose level) (byte '\n' :: value) (lines + 1)
              (afterBreak b (u ++ lineEnd t))
          else readLongFrom (longClose level) (b :: value) lines (u ++ lineEnd t) := by
        intro t
        rw [← hpre t, List.cons_append, readLongFrom_cons hlen]
      simp only [hread]
      by_cases hclose : (longClose level).isPrefixOf (b :: u)
      · refine .inr ⟨value.reverse, lines, (b :: u).drop (longClose level).length, ?_, fun t => ?_⟩
        · rw [List.length_drop]; omega
        · rw [if_pos hclose, drop_append_lineEnd hclose]
      · simp only [if_neg hclose]
        by_cases hb : isBreak b
        · simp only [if_pos hb]
          rcases afterBreak_lineEnd b u with ⟨rfl, h⟩ | ⟨r, hr, h⟩
          · simp only [h]
            exact .inl (readLongFrom_closer hc level _ _)
          · simp only [h]
            rcases ih r.length (by simp; omega) r (byte '\n' :: value) (lines + 1) rfl with
              h' | ⟨v, l, r', hr', h'⟩
            · exact .inl h'
            · exact .inr ⟨v, l, r', by simp; omega, h'⟩
        · simp only [if_neg hb]
          rcases ih u.length (by simp) u (b :: value) lines rfl with h' | ⟨v, l, r', hr', h'⟩
          · exact .inl h'
          · exact .inr ⟨v, l, r', by simp; omega, h'⟩

theorem readLong_lineEnd (hc : IsCloser after) (level : Nat) (u : Bytes) :
    (readLong level (u ++ lineEnd after)).rest = none ∨
    ∃ v l r, r.length ≤ u.length ∧
      ∀ t, readLong level (u ++ lineEnd t) = ⟨v, l, some (r ++ lineEnd t)⟩ := by
  cases u with
  | nil =>
    refine .inl ?_
    change (readLong level (byte '\n' :: after)).rest = none
    simp only [readLong]
    rw [if_pos (by decide), hc.afterBreak]
    exact readLongFrom_closer hc level [] 1
  | cons b u =>
    have hread : ∀ t, readLong level (b :: u ++ t) =
        if isBreak b then readLongFrom (longClose level) [] 1 (afterBreak b (u ++ t))
        else readLongFrom (longClose level) [] 0 (b :: u ++ t) := fun t => rfl
    simp only [hread]
    by_cases hb : isBreak b
    · simp only [if_pos hb]
      rcases afterBreak_lineEnd b u with ⟨rfl, h⟩ | ⟨r, hr, h⟩
      · simp only [h]
        exact .inl (readLongFrom_closer hc level [] 1)
      · simp only [h]
        rcases readLongFrom_lineEnd hc level r [] 1 with h' | ⟨v, l, r', hr', h'⟩
        · exact .inl h'
        · exact .inr ⟨v, l, r', by simp; omega, h'⟩
    · simp only [if_neg hb]
      exact readLongFrom_lineEnd hc level (b :: u) [] 0

theorem takeWhile_lineEnd {p : UInt8 → Bool} (hp : p (byte '\n') = false) (u t : Bytes) :
    (u ++ lineEnd t).takeWhile p = u.takeWhile p := by
  induction u with
  | nil => simp [lineEnd, hp]
  | cons b u ih => simp only [List.cons_append, List.takeWhile_cons, ih]

theorem dropWhile_lineEnd {p : UInt8 → Bool} (hp : p (byte '\n') = false) (u t : Bytes) :
    (u ++ lineEnd t).dropWhile p = u.dropWhile p ++ lineEnd t := by
  induction u with
  | nil => simp [lineEnd, hp]
  | cons b u ih =>
    simp only [List.cons_append, List.dropWhile_cons, ih]
    split <;> rfl

theorem longBracket_lineEnd (u t : Bytes) :
    longBracket (u ++ lineEnd t) = ((longBracket u).1, (longBracket u).2.map (· ++ lineEnd t)) := by
  have hmarks : (u ++ lineEnd t).takeWhile (· == byte '=') = u.takeWhile (· == byte '=') :=
    takeWhile_lineEnd (by decide) u t
  have hlen : (u.takeWhile (· == byte '=')).length ≤ u.length :=
    (List.takeWhile_prefix _).length_le
  simp only [longBracket, hmarks, List.drop_append_of_le_length hlen]
  cases u.drop (u.takeWhile (· == byte '=')).length with
  | nil => rfl
  | cons b r =>
    simp only [List.cons_append]
    split <;> rfl

theorem readBracket_lineEnd (hc : IsCloser after) (u : Bytes) :
    Start.EndsIn after u fun line t => readBracket line (u ++ t) := by
  have hopen := longBracket_lineEnd u
  cases h : longBracket u with
  | mk level inside =>
    rw [h] at hopen
    cases inside with
    | none =>
      cases level with
      | zero =>
        exact .inr ⟨.token (.mark .openBracket) 0 u, u, rfl, le_rfl, fun line t => by
          simp only [readBracket, hopen]; rfl⟩
      | succ level =>
        exact .inl fun line => ⟨.longDelimiter, some (byte '[' :: levelMarks (level + 1)), 0, by
          simp only [readBracket, hopen]; rfl⟩
    | some inside =>
      have hlen := longBracket_length h
      rcases readLong_lineEnd hc level inside with h' | ⟨v, l, r, hr, h'⟩
      · refine .inl fun line => ⟨.unfinishedLong "string" line, none,
          (readLong level (inside ++ lineEnd after)).lines, ?_⟩
        simp only [readBracket, hopen, Option.map_some, h']
      · refine .inr ⟨.token (.string v ([byte '['] ++ levelMarks level ++ [byte '['] ++ v ++
          [byte ']'] ++ levelMarks level ++ [byte ']'])) l r, r, rfl, hr.trans hlen,
          fun line t => ?_⟩
        simp only [readBracket, hopen, Option.map_some, h']
        rfl

theorem readComment_cons (line : Nat) (b : UInt8) (s : Bytes) :
    readComment line (b :: s) =
      if b = byte '[' then
        match longBracket s with
        | (level, some inside) =>
          match (readLong level inside).rest with
          | some rest => .skip (readLong level inside).lines rest
          | none => .fault (.unfinishedLong "comment" line) none (readLong level inside).lines
        | (_, none) => .skip 0 ((b :: s).dropWhile fun b => !isBreak b)
      else .skip 0 ((b :: s).dropWhile fun b => !isBreak b) := rfl

theorem readComment_lineEnd (hc : IsCloser after) (u : Bytes) :
    Start.EndsIn after u fun line t => readComment line (u ++ t) := by
  have hshort : ∀ t, ((u ++ lineEnd t).dropWhile fun b => !isBreak b) =
      (u.dropWhile fun b => !isBreak b) ++ lineEnd t := dropWhile_lineEnd (by decide) u
  have hlen : (u.dropWhile fun b => !isBreak b).length ≤ u.length :=
    (List.dropWhile_suffix _).length_le
  cases u with
  | nil => exact .inr ⟨.skip 0 [], [], rfl, le_rfl, fun line t => rfl⟩
  | cons b u =>
    simp only [List.cons_append, readComment_cons] at hshort ⊢
    by_cases hb : b = byte '['
    · simp only [if_pos hb]
      have hopen := longBracket_lineEnd u
      cases h : longBracket u with
      | mk level inside =>
        rw [h] at hopen
        cases inside with
        | none =>
          refine .inr ⟨.skip 0 ((b :: u).dropWhile fun b => !isBreak b), _, rfl, hlen,
            fun _ t => ?_⟩
          simp only [hopen, hshort]
          rfl
        | some inside =>
          have hinside := longBracket_length h
          rcases readLong_lineEnd hc level inside with h' | ⟨v, l, r, hr, h'⟩
          · refine .inl fun line => ⟨.unfinishedLong "comment" line, none,
              (readLong level (inside ++ lineEnd after)).lines, ?_⟩
            simp only [hopen, Option.map_some, h']
          · refine .inr ⟨.skip l r, r, rfl, by simp only [List.length_cons]; omega,
              fun _ t => ?_⟩
            simp only [hopen, Option.map_some, h']
            rfl
    · simp only [if_neg hb]
      refine .inr ⟨.skip 0 ((b :: u).dropWhile fun b => !isBreak b), _, rfl, hlen, fun _ t => ?_⟩
      simp only [hshort]
      rfl

theorem splitNumeral_lineEnd (hexadecimal : Bool) (u t : Bytes) :
    splitNumeral hexadecimal (u ++ lineEnd t) =
      ((splitNumeral hexadecimal u).1, (splitNumeral hexadecimal u).2 ++ lineEnd t) := by
  have hstop : isExponentMark hexadecimal (byte '\n') = false ∧
      isNumeralPart (byte '\n') = false := by
    cases hexadecimal <;> decide
  have hsign : isSign (byte '\n') = false := by decide
  have hempty : splitNumeral hexadecimal (lineEnd t) = ([], lineEnd t) := by
    cases t <;> simp [lineEnd, splitNumeral, hstop]
  induction hn : u.length using Nat.strong_induction_on generalizing u with
  | _ n ih =>
    subst hn
    match u with
    | [] => exact hempty
    | [b] =>
      change splitNumeral hexadecimal (b :: byte '\n' :: t) = _
      rw [splitNumeral, splitNumeral, hsign, Bool.and_false, if_neg (by decide)]
      split
      · rw [show byte '\n' :: t = lineEnd t from rfl, hempty]
        rfl
      · rfl
    | b :: c :: u =>
      have hcons (s : Bytes) : splitNumeral hexadecimal (b :: c :: s) =
          if isExponentMark hexadecimal b && isSign c then
            (b :: c :: (splitNumeral hexadecimal s).1, (splitNumeral hexadecimal s).2)
          else if isExponentMark hexadecimal b || isNumeralPart b then
            (b :: (splitNumeral hexadecimal (c :: s)).1, (splitNumeral hexadecimal (c :: s)).2)
          else ([], b :: c :: s) := rfl
      rw [List.cons_append, List.cons_append, hcons, hcons]
      split
      · rw [ih u.length (by simp only [List.length_cons]; omega) u rfl]
      · split
        · rw [← List.cons_append, ih (c :: u).length (by simp) (c :: u) rfl]
        · rfl

theorem head?_lineEnd {b : UInt8} (hb : b ≠ byte '\n') (u t : Bytes) :
    (u ++ lineEnd t).head? = some b ↔ u.head? = some b := by
  cases u with
  | nil => simp [lineEnd, hb.symm]
  | cons c u => rfl

theorem readNumeral_lineEnd (start u t : Bytes) :
    readNumeral start (u ++ lineEnd t) = (readNumeral start u).append (lineEnd t) := by
  have hhead {b : UInt8} (hb : b ≠ byte '\n') :
      ((u ++ lineEnd t).head? == some b) = (u.head? == some b) := by
    rw [Bool.eq_iff_iff, beq_iff_eq, beq_iff_eq, head?_lineEnd hb]
  have htouching (r : Bytes) :
      ((r ++ lineEnd t).take 1).filter isNameStart = (r.take 1).filter isNameStart := by
    cases r <;> rfl
  simp only [readNumeral, hhead (b := byte 'x') (by decide), hhead (b := byte 'X') (by decide)]
  generalize hhex : (start.getLast? == some (byte '0') &&
    (u.head? == some (byte 'x') || u.head? == some (byte 'X'))) = hexadecimal
  -- the mark of a hexadecimal numeral is not the line break
  have hmark : (if hexadecimal then (u ++ lineEnd t).take 1 else []) =
      if hexadecimal then u.take 1 else [] := by
    cases u with
    | nil => subst hhex; simp
    | cons b u => rfl
  rw [hmark]
  generalize hmark' : (if hexadecimal then u.take 1 else []) = mark
  have hlen : mark.length ≤ u.length := by
    subst hmark'
    split
    · rw [List.length_take]; omega
    · exact Nat.zero_le _
  rw [List.drop_append_of_le_length hlen, splitNumeral_lineEnd]
  simp only [htouching]
  split <;> rfl

theorem readName_lineEnd (s t : Bytes) :
    readName (s ++ lineEnd t) = (readName s).append (lineEnd t) := by
  simp only [readName, takeWhile_lineEnd (p := isNamePart) (by decide) s t,
    dropWhile_lineEnd (p := isNamePart) (by decide) s t]
  split <;> rfl

theorem newline_not_mem_mark (m : Mark) : byte '\n' ∉ bytesOf m.text := by
  cases m <;> decide

theorem length_bytesOf_mark (m : Mark) : (bytesOf m.text).length = m.text.length := by
  cases m <;> decide

theorem readMark_lineEnd (b : UInt8) (u t : Bytes) :
    readMark b (u ++ lineEnd t) = (readMark b u).append (lineEnd t) := by
  have hpre (m : Mark) : (bytesOf m.text).isPrefixOf (b :: (u ++ lineEnd t)) =
      (bytesOf m.text).isPrefixOf (b :: u) :=
    isPrefixOf_append_lineEnd (newline_not_mem_mark m) (b :: u) t
  simp only [readMark, hpre]
  split
  next m hm =>
    have hprefix := List.find?_some hm
    have hle := (List.isPrefixOf_iff_prefix.1 hprefix).length_le
    rw [length_bytesOf_mark] at hle
    rw [← List.cons_append, List.drop_append_of_le_length hle]
    rfl
  next => rfl

/-- A token that is read in the same way before every line break. -/
theorem Start.EndsIn.of_append {u : Bytes} {read : Nat → Bytes → Start} {x : Start}
    (hlen : ∀ r, x.rest? = some r → r.length ≤ u.length)
    (h : ∀ line t, read line (lineEnd t) = x.append (lineEnd t)) : Start.EndsIn after u read := by
  cases hx : x.rest? with
  | some r => exact .inr ⟨x, r, hx, hlen r hx, h⟩
  | none =>
    cases x with
    | fault f near lines => exact .inl fun line => ⟨f, near, lines, h line after⟩
    | skip lines rest => cases hx
    | token tok lines rest => cases hx

theorem startAt_eq (line : Nat) (b : UInt8) (s : Bytes) :
    startAt line b s =
      if isBreak b then .skip 1 (afterBreak b s)
      else if Number.isBlankByte b then .skip 0 s
      else if b = byte '-' ∧ s.head? = some (byte '-') then readComment line s.tail
      else if b = byte '[' then readBracket line s
      else if b = byte '"' ∨ b = byte '\'' then readString (s.length + 1) b [] 0 s
      else if isDigit b then readNumeral [b] s
      else if isNameStart b then readName (b :: s)
      else
        match s with
        | c :: after =>
          if b = byte '.' ∧ isDigit c then readNumeral [b, c] after else readMark b s
        | [] => readMark b s := rfl

/-- Numerals, names and marks: they are read in the same way before every line break, and at the
end of a text. -/
theorem startAt_plain {b : UInt8} {u : Bytes} (hbreak : ¬ isBreak b)
    (hblank : ¬ Number.isBlankByte b) (hdash : ¬ (b = byte '-' ∧ u.head? = some (byte '-')))
    (hbracket : b ≠ byte '[') (hquote : ¬ (b = byte '"' ∨ b = byte '\'')) :
    ∃ x, ∀ line, startAt line b u = x ∧
      ∀ t, startAt line b (u ++ lineEnd t) = x.append (lineEnd t) := by
  have hdash' (t : Bytes) : ¬ (b = byte '-' ∧ (u ++ lineEnd t).head? = some (byte '-')) := by
    rwa [head?_lineEnd (by decide)]
  simp only [startAt_eq, if_neg hbreak, if_neg hblank, if_neg hdash, if_neg (hdash' _),
    if_neg hbracket, if_neg hquote]
  split
  · exact ⟨_, fun _ => ⟨rfl, readNumeral_lineEnd [b] u⟩⟩
  · split
    · exact ⟨_, fun _ => ⟨rfl, readName_lineEnd (b :: u)⟩⟩
    · cases u with
      | nil =>
        have hnl : ¬ (b = byte '.' ∧ isDigit (byte '\n')) := by
          rintro ⟨-, h⟩
          exact absurd h (by decide)
        refine ⟨_, fun _ => ⟨rfl, fun t => ?_⟩⟩
        rw [List.nil_append, lineEnd]
        simp only [if_neg hnl]
        exact readMark_lineEnd b [] t
      | cons c u =>
        simp only [List.cons_append]
        split
        · exact ⟨_, fun _ => ⟨rfl, readNumeral_lineEnd [b, c] u⟩⟩
        · exact ⟨_, fun _ => ⟨rfl, readMark_lineEnd b (c :: u)⟩⟩

theorem Start.EndsIn.congr {u v : Bytes} {read read' : Nat → Bytes → Start}
    (h : Start.EndsIn after u read) (hlen : u.length ≤ v.length)
    (heq : ∀ line t, read' line (lineEnd t) = read line (lineEnd t)) :
    Start.EndsIn after v read' := by
  rcases h.mono hlen with h | ⟨x, r, hx, hr, h⟩
  · exact .inl fun line => by rw [heq]; exact h line
  · exact .inr ⟨x, r, hx, hr, fun line t => by rw [heq]; exact h line t⟩

/-- **Tokens up to a line break.**  A text before a line break starts with the same token on any line
and whatever comes after the break, or it is at fault if it is followed by a closer only. -/
theorem startAt_lineEnd (hc : IsCloser after) (b : UInt8) (u : Bytes) :
    (u = [] ∧ ∀ line t, startAt line b (lineEnd t) = .skip 1 t) ∨
    Start.EndsIn after u fun line t => startAt line b (u ++ t) := by
  by_cases hbreak : isBreak b
  · have hskip (line : Nat) (s : Bytes) : startAt line b s = .skip 1 (afterBreak b s) := by
      rw [startAt_eq, if_pos hbreak]
    rcases afterBreak_lineEnd b u with ⟨rfl, h⟩ | ⟨r, hr, h⟩
    · exact .inl ⟨rfl, fun line t => (hskip line _).trans (congrArg _ (h t))⟩
    · exact .inr (.inr ⟨.skip 1 r, r, rfl, hr, fun line t =>
        (hskip line _).trans (congrArg _ (h t))⟩)
  refine .inr ?_
  by_cases hblank : Number.isBlankByte b
  · refine .of_append (x := .skip 0 u) (by rintro _ ⟨⟩; exact le_rfl) fun line t => ?_
    exact (startAt_eq line b _).trans (by rw [if_neg hbreak, if_pos hblank]; rfl)
  by_cases hdash : b = byte '-' ∧ u.head? = some (byte '-')
  · obtain ⟨rfl, hhead⟩ := hdash
    obtain ⟨u, rfl⟩ := List.head?_eq_some_iff.1 hhead
    exact (readComment_lineEnd hc u).congr (by simp) fun _ _ => rfl
  by_cases hbracket : b = byte '['
  · subst hbracket
    exact (readBracket_lineEnd hc u).congr le_rfl fun _ _ => rfl
  by_cases hquote : b = byte '"' ∨ b = byte '\''
  · refine (readString_lineEnd hc u hquote [] 0).congr le_rfl fun line t => ?_
    rcases hquote with rfl | rfl <;> rfl
  obtain ⟨x, hx⟩ := startAt_plain hbreak hblank hdash hbracket hquote
  refine .of_append (fun r hr => start_length ((congrArg Start.rest? (hx 1).1).trans hr))
    fun line t => (hx line).2 t

end Stencil.Script
