import Stencil.Proofs.Script.Spelling

/-!
# Texts that are complete by themselves

A text whose own lexemes go on to its end leaves no string, no long bracket and no long comment open.
So whatever reads a token of it reads the same token before a line break, and the text has the same
tokens on lines of its own as it has by itself: `spells_alone`.  A comment at its end is cut off by the
line break.
-/

namespace Stencil.Script

open Stencil.Text (Bytes bytesOf)

variable {u r : Bytes}

/-! ### Escapes -/

theorem afterBreak_append (b : UInt8) (hu : u ≠ []) (t : Bytes) :
    afterBreak b (u ++ t) = afterBreak b u ++ t := by
  cases u with
  | nil => exact absurd rfl hu
  | cons c u =>
    rw [List.cons_append, afterBreak, afterBreak]
    split <;> rfl

theorem passBlanks_append (u t : Bytes) (h : (passBlanks u).2 ≠ []) :
    passBlanks (u ++ t) = ((passBlanks u).1, (passBlanks u).2 ++ t) := by
  induction hn : u.length using Nat.strong_induction_on generalizing u with
  | _ n ih =>
    subst hn
    cases u with
    | nil => exact absurd rfl h
    | cons b u =>
      rw [passBlanks_cons] at h
      rw [List.cons_append, passBlanks_cons, passBlanks_cons]
      by_cases hb : isBreak b
      · rw [if_pos hb] at h
        have hu : u ≠ [] := by
          rintro rfl
          exact h rfl
        have hlen := afterBreak_length b u
        rw [if_pos hb, if_pos hb, afterBreak_append b hu,
          ih (afterBreak b u).length (by simp only [List.length_cons]; omega) _ h rfl]
      · rw [if_neg hb] at h
        rw [if_neg hb, if_neg hb]
        by_cases hblank : Number.isBlankByte b
        · rw [if_pos hblank] at h
          rw [if_pos hblank, if_pos hblank, ih u.length (by simp) _ h rfl]
        · rw [if_neg hblank, if_neg hblank]
          rfl

variable {spelled value : Bytes} {lines : Nat}

theorem hexEscape_append (h : hexEscape spelled u = .bytes value lines r) (t : Bytes) :
    hexEscape spelled (u ++ t) = .bytes value lines (r ++ t) := by
  cases u with
  | nil => cases h
  | cons a u =>
    cases ha : hexValue? a with
    | none => simp [hexEscape, ha] at h
    | some high =>
      cases u with
      | nil => simp [hexEscape, ha] at h
      | cons b u =>
        cases hb : hexValue? b with
        | none => simp [hexEscape, ha, hb] at h
        | some low =>
          simp only [List.cons_append, hexEscape, ha, hb] at h ⊢
          cases h
          rfl

theorem codePointDigits_append {n : Nat} (h : codePointDigits spelled n u = .bytes value lines r)
    (t : Bytes) : codePointDigits spelled n (u ++ t) = .bytes value lines (r ++ t) := by
  induction u generalizing spelled n with
  | nil => cases h
  | cons b u ih =>
    simp only [List.cons_append, codePointDigits] at h ⊢
    split at h
    · split at h
      next hn => rw [if_pos hn, ih h]
      · cases h
    · split at h
      next hclose => cases h; rw [if_pos hclose]
      · cases h

theorem codePointEscape_append (h : codePointEscape spelled u = .bytes value lines r) (t : Bytes) :
    codePointEscape spelled (u ++ t) = .bytes value lines (r ++ t) := by
  cases u with
  | nil => cases h
  | cons a u =>
    simp only [List.cons_append, codePointEscape] at h ⊢
    split at h
    · cases h
    next ha =>
      rw [if_neg ha]
      cases u with
      | nil => cases h
      | cons b u =>
        dsimp only [List.cons_append] at h ⊢
        split at h
        · exact codePointDigits_append h t
        · cases h

theorem decimalEscape_append (h : decimalEscape spelled u = .bytes value lines r) (t : Bytes) :
    decimalEscape spelled (u ++ lineEnd t) = .bytes value lines (r ++ lineEnd t) := by
  have hdigits : ((u ++ lineEnd t).take 3).takeWhile isDigit = (u.take 3).takeWhile isDigit :=
    takeWhile_take_lineEnd (by decide) 3 u t
  have hlen : ((u.take 3).takeWhile isDigit).length ≤ u.length :=
    (List.takeWhile_prefix _).length_le.trans (by rw [List.length_take]; omega)
  simp only [decimalEscape, hdigits, List.drop_append_of_le_length hlen] at h ⊢
  split at h
  next hvalue => cases h; rw [if_pos hvalue]
  · cases h

/-- An escape that leaves something to be read is the same before a line break. -/
theorem readEscape_append (h : readEscape u = .bytes value lines r) (hr : r ≠ []) (t : Bytes) :
    readEscape (u ++ lineEnd t) = .bytes value lines (r ++ lineEnd t) := by
  cases u with
  | nil => cases h; exact absurd rfl hr
  | cons b u =>
    rw [readEscape_cons] at h
    rw [List.cons_append, readEscape_cons]
    cases hletter : letterEscape? b with
    | some value =>
      rw [hletter] at h
      cases h
      rfl
    | none =>
      rw [hletter] at h
      dsimp only at h ⊢
      split at h
      next hb =>
        cases h
        rw [if_pos hb, afterBreak_append b (by rintro rfl; exact hr rfl)]
      next hb =>
        rw [if_neg hb]
        split at h
        next hx => rw [if_pos hx, hexEscape_append h]
        next hx =>
          rw [if_neg hx]
          split at h
          next hcode => rw [if_pos hcode, codePointEscape_append h]
          next hcode =>
            rw [if_neg hcode]
            split at h
            next hblanks =>
              cases h
              rw [if_pos hblanks, passBlanks_append u _ hr]
            next hblanks =>
              rw [if_neg hblanks]
              split at h
              next hdigit => rw [if_pos hdigit]; exact decimalEscape_append h t
              · cases h

/-! ### Strings and comments -/

theorem readString_append {d : UInt8} (h : (readString (u.length + 1) d value lines u).rest? = some r)
    (t : Bytes) :
    readString ((u ++ lineEnd t).length + 1) d value lines (u ++ lineEnd t) =
      (readString (u.length + 1) d value lines u).append (lineEnd t) := by
  induction hn : u.length using Nat.strong_induction_on generalizing u value lines with
  | _ n ih =>
    subst hn
    cases u with
    | nil => cases h
    | cons b u =>
      rw [List.cons_append, readString_cons]
      rw [readString_cons] at h ⊢
      split at h
      next hd => rw [if_pos hd, if_pos hd]; rfl
      next hd =>
        rw [if_neg hd, if_neg hd]
        split at h
        · cases h
        next hb =>
          rw [if_neg hb, if_neg hb]
          split at h
          next hslash =>
            rw [if_pos hslash, if_pos hslash]
            cases hescape : readEscape u with
            | fault f spelled => rw [hescape] at h; cases h
            | bytes bs more rest =>
              rw [hescape] at h
              have hlen := readEscape_length hescape
              have hrest : rest ≠ [] := by
                rintro rfl
                cases h
              rw [readEscape_append hescape hrest t]
              exact ih rest.length (by simp only [List.length_cons]; omega) h rfl
          next hslash =>
            rw [if_neg hslash, if_neg hslash]
            exact ih u.length (by simp) h rfl

theorem readLongFrom_append {level : Nat}
    (h : (readLongFrom (longClose level) value lines u).rest = some r) (t : Bytes) :
    readLongFrom (longClose level) value lines (u ++ lineEnd t) =
      { readLongFrom (longClose level) value lines u with rest := some (r ++ lineEnd t) } := by
  have hclose := two_le_length_longClose level
  have hpre (u : Bytes) := isPrefixOf_append_lineEnd (newline_not_mem_longClose level) u t
  induction hn : u.length using Nat.strong_induction_on generalizing u value lines with
  | _ n ih =>
    subst hn
    cases u with
    | nil => cases h
    | cons b u =>
      have hcons := hpre (b :: u)
      rw [List.cons_append] at hcons ⊢
      rw [readLongFrom_cons hclose, hcons]
      rw [readLongFrom_cons hclose] at h ⊢
      split at h
      next hend =>
        cases h
        rw [if_pos hend, if_pos hend, ← List.cons_append, drop_append_lineEnd hend]
      next hend =>
        rw [if_neg hend, if_neg hend]
        split at h
        next hb =>
          have hu : u ≠ [] := by
            rintro rfl
            cases h
          have hlen := afterBreak_length b u
          rw [if_pos hb, if_pos hb, afterBreak_append b hu]
          exact ih _ (by simp only [List.length_cons]; omega) h rfl
        next hb =>
          rw [if_neg hb, if_neg hb]
          exact ih u.length (by simp) h rfl

theorem readLong_append {level : Nat} (h : (readLong level u).rest = some r) (t : Bytes) :
    readLong level (u ++ lineEnd t) =
      { readLong level u with rest := some (r ++ lineEnd t) } := by
  cases u with
  | nil => cases h
  | cons b u =>
    have hread (s : Bytes) : readLong level (b :: s) =
        if isBreak b then readLongFrom (longClose level) [] 1 (afterBreak b s)
        else readLongFrom (longClose level) [] 0 (b :: s) := rfl
    rw [List.cons_append, hread]
    rw [hread] at h ⊢
    split at h
    next hb =>
      have hu : u ≠ [] := by
        rintro rfl
        cases h
      rw [if_pos hb, if_pos hb, afterBreak_append b hu, readLongFrom_append h]
    next hb => rw [if_neg hb, if_neg hb, ← List.cons_append, readLongFrom_append h]

theorem readBracket_append {line : Nat} (h : (readBracket line u).rest? = some r) (line' : Nat)
    (t : Bytes) : readBracket line' (u ++ lineEnd t) = (readBracket line u).append (lineEnd t) := by
  have hopen := longBracket_lineEnd u t
  cases hu : longBracket u with
  | mk level inside =>
    rw [hu] at hopen
    simp only [readBracket, hopen]
    simp only [readBracket, hu] at h ⊢
    cases inside with
    | none =>
      cases level with
      | zero => rfl
      | succ level => cases h
    | some inside =>
      simp only [Option.map_some] at h ⊢
      cases hrest : (readLong level inside).rest with
      | none => rw [hrest] at h; cases h
      | some rest =>
        rw [readLong_append hrest]
        rfl

theorem readComment_append {line : Nat} (h : (readComment line u).rest? = some r) (line' : Nat)
    (t : Bytes) : readComment line' (u ++ lineEnd t) = (readComment line u).append (lineEnd t) := by
  cases u with
  | nil => rfl
  | cons b u =>
    have hopen := longBracket_lineEnd u t
    have hshort : ((b :: (u ++ lineEnd t)).dropWhile fun b => !isBreak b) =
        ((b :: u).dropWhile fun b => !isBreak b) ++ lineEnd t :=
      dropWhile_lineEnd (by decide) (b :: u) t
    rw [List.cons_append, readComment_cons]
    rw [readComment_cons] at h ⊢
    by_cases hb : b = byte '['
    · rw [if_pos hb] at h
      rw [if_pos hb, if_pos hb]
      cases hu : longBracket u with
      | mk level inside =>
        rw [hu] at hopen h
        cases inside with
        | none =>
          rw [hopen]
          exact congrArg (Start.skip 0) hshort
        | some inside =>
          dsimp only at h
          rw [hopen]
          simp only [Option.map_some]
          cases hrest : (readLong level inside).rest with
          | none => rw [hrest] at h; cases h
          | some rest =>
            rw [readLong_append hrest]
            rfl
    · rw [if_neg hb, if_neg hb]
      exact congrArg (Start.skip 0) hshort

/-! ### Whole texts -/

/-- What a text starts with by itself is what it starts with before a line break, unless it is the
first half of one. -/
theorem startAt_append {line : Nat} {b : UInt8} (h : (startAt line b u).rest? = some r)
    (hu : isBreak b → u ≠ []) (line' : Nat) (t : Bytes) :
    startAt line' b (u ++ lineEnd t) = (startAt line b u).append (lineEnd t) := by
  by_cases hbreak : isBreak b
  · rw [startAt_eq, startAt_eq, if_pos hbreak, if_pos hbreak, afterBreak_append b (hu hbreak)]
    rfl
  by_cases hblank : Number.isBlankByte b
  · rw [startAt_eq, startAt_eq, if_neg hbreak, if_neg hbreak, if_pos hblank, if_pos hblank]
    rfl
  by_cases hdash : b = byte '-' ∧ u.head? = some (byte '-')
  · obtain ⟨rfl, hhead⟩ := hdash
    obtain ⟨u, rfl⟩ := List.head?_eq_some_iff.1 hhead
    exact readComment_append (u := u) h line' t
  by_cases hbracket : b = byte '['
  · subst hbracket
    exact readBracket_append (u := u) h line' t
  by_cases hquote : b = byte '"' ∨ b = byte '\''
  · have hstring (line : Nat) (s : Bytes) :
        startAt line b s = readString (s.length + 1) b [] 0 s := by
      rcases hquote with rfl | rfl <;> rfl
    rw [hstring] at h ⊢
    rw [hstring, readString_append h]
  · obtain ⟨x, hx⟩ := startAt_plain hbreak hblank hdash hbracket hquote
    rw [(hx line).1, (hx line').2]

/-- The lexemes of a text go on to its own end. -/
def IsAlone (u : Bytes) : Prop := (tokensAt 1 u).getLast? = some .eof

instance (u : Bytes) : Decidable (IsAlone u) := inferInstanceAs (Decidable (_ = _))

/-- The tokens of a text by itself. -/
def ownTokens (u : Bytes) : List Token := (tokensAt 1 u).dropLast

/-- **Texts on lines of their own.**  A text that is complete by itself has its own tokens before a
line break, whatever comes after it. -/
theorem spells_alone (h : IsAlone u) (t : Bytes) : Spells (u ++ [byte '\n']) (ownTokens u) t := by
  rw [ownTokens]
  rw [IsAlone] at h
  generalize 1 = line at h ⊢
  induction hn : u.length using Nat.strong_induction_on generalizing u line with
  | _ n ih =>
    subst hn
    cases u with
    | nil => exact .lineBreak (by decide)
    | cons b u =>
      obtain ⟨r, line', hr, heof, htokens⟩ := start_of_eof h
      rw [htokens, List.dropLast_append_of_ne_nil (tokensAt_ne_nil line' r)]
      have hlen : r.length ≤ u.length := start_length hr
      have hspells := ih r.length (by simp only [List.length_cons]; omega) line' heof rfl
      by_cases hu : isBreak b → u ≠ []
      · exact .of_start hr (fun line₁ => startAt_append hr hu line₁ t) hspells
      · obtain ⟨hb, rfl⟩ : isBreak b ∧ u = [] := by
          rwa [Classical.not_imp, not_not] at hu
        have hskip : startAt line b [] = .skip 1 [] := by rw [startAt_eq, if_pos hb]; rfl
        rw [hskip] at hr ⊢
        obtain rfl : [] = r := Option.some.inj hr
        exact (Spells.lineBreak hb).append (.lineBreak (by decide))

end Stencil.Script
