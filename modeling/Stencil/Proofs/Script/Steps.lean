import Mathlib.Data.List.TakeWhile
import Stencil.Script.Lexeme

/-!
# Steps of a lexer

Lexing goes by steps, and a string inside it does so too.  Every step takes a byte, so as long as
there are more steps than bytes their number does not matter:

* `readString_steps` : inside a string.
* `lexFrom_steps` : for a whole text.
* `lexAt` : the lexemes of a text that starts on a line, with `lexAt_cons` for its first step.
-/

namespace Stencil.Script

open Stencil.Text (Bytes bytesOf)

/-! ### What is left gets shorter -/

theorem afterBreak_length (b : UInt8) (s : Bytes) : (afterBreak b s).length ≤ s.length := by
  cases s with
  | nil => simp [afterBreak]
  | cons c rest =>
    rw [afterBreak]
    split
    · simp
    · simp

theorem passBlanks_length (s : Bytes) : (passBlanks s).2.length ≤ s.length := by
  fun_induction passBlanks s with
  | case1 => simp
  | case2 b hb => simp
  | case3 b hb hblank => simp
  | case4 b hb hblank => simp
  | case5 b c rest hb hc lines more hpass ih => rw [hpass] at ih; simp at ih ⊢; omega
  | case6 b c rest hb hc lines more hpass ih => rw [hpass] at ih; simp at ih ⊢; omega
  | case7 b c rest hb hblank ih => simp at ih ⊢; omega
  | case8 b c rest hb hblank => simp

theorem hexEscape_length {spelled s value rest : Bytes} {lines : Nat}
    (h : hexEscape spelled s = .bytes value lines rest) : rest.length ≤ s.length := by
  match s with
  | [] => cases h
  | a :: s =>
    cases ha : hexValue? a with
    | none => simp [hexEscape, ha] at h
    | some high =>
      match s with
      | [] => simp [hexEscape, ha] at h
      | b :: s =>
        cases hb : hexValue? b with
        | none => simp [hexEscape, ha, hb] at h
        | some low =>
          simp only [hexEscape, ha, hb] at h
          cases h
          simp; omega

theorem codePointDigits_length {spelled s value rest : Bytes} {n lines : Nat}
    (h : codePointDigits spelled n s = .bytes value lines rest) : rest.length ≤ s.length := by
  induction s generalizing spelled n with
  | nil => cases h
  | cons b s ih =>
    simp only [codePointDigits] at h
    split at h
    · split at h
      · have := ih h
        simp; omega
      · cases h
    · split at h
      · cases h; simp
      · cases h

theorem codePointEscape_length {spelled s value rest : Bytes} {lines : Nat}
    (h : codePointEscape spelled s = .bytes value lines rest) : rest.length ≤ s.length := by
  match s with
  | [] => cases h
  | [a] =>
    simp only [codePointEscape] at h
    split at h <;> cases h
  | a :: b :: s =>
    simp only [codePointEscape] at h
    split at h
    · cases h
    · split at h
      · have := codePointDigits_length h
        simp; omega
      · cases h

theorem readEscape_length {s value rest : Bytes} {lines : Nat}
    (h : readEscape s = .bytes value lines rest) : rest.length ≤ s.length := by
  match s with
  | [] => cases h; simp
  | b :: s =>
    have hlen : ∀ {r : Bytes}, r.length ≤ s.length → r.length ≤ (b :: s).length := by
      intro r hr; simp; omega
    simp only [readEscape] at h
    split at h
    · cases h; simp
    · split at h
      · cases h; exact hlen (afterBreak_length _ _)
      · split at h
        · exact hlen (hexEscape_length h)
        · split at h
          · exact hlen (codePointEscape_length h)
          · split at h
            · cases h; exact hlen (passBlanks_length _)
            · split at h
              · simp only [decimalEscape] at h
                split at h
                · cases h; simp
                · cases h
              · cases h

theorem readString_length {steps lines lines' : Nat} {d : UInt8} {value s rest : Bytes} {t : Token}
    (h : readString steps d value lines s = .token t lines' rest) : rest.length ≤ s.length := by
  induction steps generalizing value lines s with
  | zero => cases s <;> simp [readString] at h
  | succ steps ih =>
    match s with
    | [] => simp [readString] at h
    | b :: s =>
      simp only [readString] at h
      split at h
      · cases h; simp
      · split at h
        · cases h
        · split at h
          · split at h
            next hesc =>
              have h₁ := readEscape_length hesc
              have h₂ := ih h
              simp; omega
            · cases h
          · have := ih h
            simp; omega

theorem readString_ne_skip {steps lines lines' : Nat} {d : UInt8} {value s rest : Bytes} :
    readString steps d value lines s ≠ .skip lines' rest := by
  intro h
  induction steps generalizing value lines s with
  | zero => cases s <;> simp [readString] at h
  | succ steps ih =>
    match s with
    | [] => simp [readString] at h
    | b :: s =>
      simp only [readString] at h
      split at h
      · cases h
      · split at h
        · cases h
        · split at h
          · split at h
            · exact ih h
            · cases h
          · exact ih h

/-- As long as there are more steps than bytes, a string is read in the same way. -/
theorem readString_steps {m n lines : Nat} {d : UInt8} {value s : Bytes} (hm : s.length < m)
    (hn : s.length < n) : readString m d value lines s = readString n d value lines s := by
  induction m generalizing n value lines s with
  | zero => omega
  | succ m ih =>
    obtain ⟨n, rfl⟩ : ∃ k, n = k + 1 := ⟨n - 1, by omega⟩
    match s with
    | [] => simp [readString]
    | b :: s =>
      simp only [List.length_cons] at hm hn
      simp only [readString]
      split
      · rfl
      · split
        · rfl
        · split
          · cases hesc : readEscape s with
            | bytes bs more rest =>
              have hlen := readEscape_length hesc
              exact ih (by omega) (by omega)
            | fault f spelled => rfl
          · exact ih (by omega) (by omega)

/-! ### Steps of a text -/

/-- What a step leaves to be read. -/
def Start.rest? : Start → Option Bytes
  | .skip _ rest => some rest
  | .token _ _ rest => some rest
  | .fault _ _ _ => none

theorem readLongFrom_length {close value s rest : Bytes} {lines : Nat}
    (h : (readLongFrom close value lines s).rest = some rest) : rest.length ≤ s.length := by
  fun_induction readLongFrom close value lines s with
  | case1 => cases h
  | case2 => cases h
  | case3 => cases h
  | case4 value lines b c s hclose =>
    cases h
    rw [List.length_drop]
    omega
  | case5 value lines b c s hclose hb hc ih =>
    have := ih h
    simp; omega
  | case6 value lines b c s hclose hb hc ih =>
    have := ih h
    simp at this ⊢; omega
  | case7 value lines b c s hclose hb ih =>
    have := ih h
    simp at this ⊢; omega

theorem readLong_length {level : Nat} {s rest : Bytes} (h : (readLong level s).rest = some rest) :
    rest.length ≤ s.length := by
  match s with
  | [] => simp [readLong, readLongFrom] at h
  | b :: s =>
    simp only [readLong] at h
    split at h
    · have h₁ := readLongFrom_length h
      have h₂ := afterBreak_length b s
      simp; omega
    · exact readLongFrom_length h

theorem longBracket_length {s inside : Bytes} {level : Nat}
    (h : longBracket s = (level, some inside)) : inside.length ≤ s.length := by
  simp only [longBracket] at h
  split at h
  next b rest hdrop =>
    split at h
    · cases h
      have := congrArg List.length hdrop
      rw [List.length_drop, List.length_cons] at this
      omega
    · cases h
  next => cases h

theorem readBracket_length {line : Nat} {s rest : Bytes}
    (h : (readBracket line s).rest? = some rest) : rest.length ≤ s.length := by
  simp only [readBracket] at h
  split at h
  next level inside hopen =>
    split at h
    next hrest =>
      cases h
      exact (readLong_length hrest).trans (longBracket_length hopen)
    · cases h
  · cases h; simp
  · cases h

theorem readComment_length {line : Nat} {s rest : Bytes}
    (h : (readComment line s).rest? = some rest) : rest.length ≤ s.length := by
  have hshort : ∀ s : Bytes, (s.dropWhile fun b => !isBreak b).length ≤ s.length :=
    fun s => (List.dropWhile_suffix _).length_le
  match s with
  | [] => cases h; simp
  | b :: s =>
    simp only [readComment] at h
    split at h
    · split at h
      next level inside hopen =>
        split at h
        next hrest =>
          cases h
          have h₁ := readLong_length hrest
          have h₂ := longBracket_length hopen
          simp; omega
        · cases h
      · cases h; exact hshort _
    · cases h; exact hshort _

theorem splitNumeral_length (hexadecimal : Bool) (s : Bytes) :
    (splitNumeral hexadecimal s).2.length ≤ s.length := by
  fun_induction splitNumeral hexadecimal s <;> simp_all <;> omega

theorem readNumeral_length {start s rest : Bytes} (h : (readNumeral start s).rest? = some rest) :
    rest.length ≤ s.length := by
  simp only [readNumeral] at h
  split at h
  · cases h
    refine (splitNumeral_length _ _).trans ?_
    rw [List.length_drop]
    omega
  · cases h

theorem readName_length {s rest : Bytes} (h : (readName s).rest? = some rest) :
    rest.length ≤ (s.dropWhile isNamePart).length := by
  simp only [readName] at h
  split at h <;> (cases h; exact le_rfl)

theorem readMark_length {b : UInt8} {s rest : Bytes} (h : (readMark b s).rest? = some rest) :
    rest.length ≤ s.length := by
  simp only [readMark] at h
  split at h
  next m hm =>
    cases h
    have hpos : 0 < m.text.length := by cases m <;> decide
    rw [List.length_drop, List.length_cons]
    omega
  · cases h; exact le_rfl

/-- A step takes at least one byte. -/
theorem start_length {steps line : Nat} {b : UInt8} {s rest : Bytes}
    (h : (start steps line b s).rest? = some rest) : rest.length ≤ s.length := by
  rw [start.eq_def] at h
  split at h
  · cases h; exact afterBreak_length _ _
  · split at h
    · cases h; exact le_rfl
    · split at h
      · refine (readComment_length h).trans ?_
        rw [List.length_tail]
        omega
      · split at h
        · exact readBracket_length h
        · split at h
          · cases hs : readString steps b [] 0 s with
            | skip lines r => exact absurd hs readString_ne_skip
            | token t lines r =>
              rw [hs] at h
              cases h
              exact readString_length hs
            | fault f near lines => rw [hs] at h; cases h
          · split at h
            · exact readNumeral_length h
            · split at h
              next hname =>
                have := readName_length h
                rw [List.dropWhile_cons, if_pos (by simp [isNamePart, hname])] at this
                exact this.trans (List.dropWhile_suffix _).length_le
              next =>
                split at h
                · split at h
                  · have := readNumeral_length h
                    simp; omega
                  · exact readMark_length h
                · exact readMark_length h

theorem start_steps {m n line : Nat} {b : UInt8} {s : Bytes} (hm : s.length < m)
    (hn : s.length < n) : start m line b s = start n line b s := by
  simp only [start, readString_steps hm hn]

/-- As long as there are more steps than bytes, a text is lexed in the same way. -/
theorem lexFrom_steps {m n line : Nat} {s : Bytes} (hm : s.length < m) (hn : s.length < n) :
    lexFrom m line s = lexFrom n line s := by
  induction m generalizing n line s with
  | zero => omega
  | succ m ih =>
    obtain ⟨n, rfl⟩ : ∃ k, n = k + 1 := ⟨n - 1, by omega⟩
    match s with
    | [] => simp [lexFrom]
    | b :: s =>
      simp only [List.length_cons] at hm hn
      rw [lexFrom, lexFrom, start_steps (by omega : s.length < m) (by omega : s.length < n)]
      have hlen : ∀ {rest}, (start n line b s).rest? = some rest → rest.length ≤ s.length :=
        start_length
      cases hstart : start n line b s with
      | skip lines rest =>
        rw [hstart] at hlen
        have := hlen rfl
        exact ih (by omega) (by omega)
      | token t lines rest =>
        rw [hstart] at hlen
        have := hlen rfl
        exact congrArg _ (ih (by omega) (by omega))
      | fault f near lines => rfl

/-- The lexemes of a text that starts on a line. -/
def lexAt (line : Nat) (s : Bytes) : List Lexeme := lexFrom (s.length + 1) line s

/-- What a text starts with. -/
def startAt (line : Nat) (b : UInt8) (s : Bytes) : Start := start (s.length + 1) line b s

theorem lex_eq_lexAt (s : Bytes) : lex s = lexAt 1 s := rfl

@[simp] theorem lexAt_nil (line : Nat) : lexAt line [] = [⟨.eof, line⟩] := rfl

theorem lexAt_cons (line : Nat) (b : UInt8) (s : Bytes) :
    lexAt line (b :: s) =
      match startAt line b s with
      | .skip lines rest => lexAt (line + lines) rest
      | .token t lines rest => ⟨t, line + lines⟩ :: lexAt (line + lines) rest
      | .fault f near lines => [⟨.invalid f near, line + lines⟩] := by
  rw [lexAt, lexFrom, startAt, List.length_cons]
  have hlen : ∀ {rest}, (start (s.length + 1) line b s).rest? = some rest →
      rest.length ≤ s.length := start_length
  cases hstart : start (s.length + 1) line b s with
  | skip lines rest =>
    rw [hstart] at hlen
    have := hlen rfl
    exact lexFrom_steps (by omega) (by omega)
  | token t lines rest =>
    rw [hstart] at hlen
    have := hlen rfl
    exact congrArg _ (lexFrom_steps (by omega) (by omega))
  | fault f near lines => rfl

end Stencil.Script
