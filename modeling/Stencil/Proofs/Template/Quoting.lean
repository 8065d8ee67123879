import Stencil.Proofs.Script.Spelling
import Stencil.Proofs.Text.Decoded
import Stencil.Template.Chunk

/-!
# Quoted text

A text in quotes is one string literal of the script language on one line, and its value is the
bytes of the text: `quote_read_back`, or `spells_quote` for the tokens alone.  Each character is read
by itself (`readStringAt_literalChar`): as an escape of one letter, as an escape of a byte, or as it
is.
-/

namespace Stencil.Template

open Script
open Stencil.Text (Bytes bytesOf bytesOf_append encode encode_append encode_ascii encode_singleton)

/-! ### Bytes of characters -/

/-- The bytes of a character that is not in ASCII are not in ASCII either. -/
theorem mem_encode_of_lt {c : Char} (hc : 0x7F < c.toNat) {b : UInt8} (hb : b ∈ encode [c]) :
    0x7F < b.toNat := by
  rw [encode_singleton, String.utf8EncodeChar] at hb
  have hc' : ¬ c.val.toNat ≤ 0x7F := Nat.not_le.2 hc
  have hbyte (n : Nat) (hn : 0x80 ≤ n) (hmax : n < 0x100) : 0x7F < (UInt8.ofNat n).toNat := by
    rw [UInt8.toNat_ofNat_of_lt' (by simpa using hmax)]
    exact hn
  simp only [if_neg hc'] at hb
  split at hb
  · simp only [List.mem_cons, List.not_mem_nil, or_false] at hb
    rcases hb with rfl | rfl
    · exact hbyte _ (by omega) (by omega)
    · exact hbyte _ (by omega) (by omega)
  · split at hb
    · simp only [List.mem_cons, List.not_mem_nil, or_false] at hb
      rcases hb with rfl | rfl | rfl
      · exact hbyte _ (by omega) (by omega)
      · exact hbyte _ (by omega) (by omega)
      · exact hbyte _ (by omega) (by omega)
    · simp only [List.mem_cons, List.not_mem_nil, or_false] at hb
      rcases hb with rfl | rfl | rfl | rfl
      · exact hbyte _ (by omega) (by omega)
      · exact hbyte _ (by omega) (by omega)
      · exact hbyte _ (by omega) (by omega)
      · exact hbyte _ (by omega) (by omega)

/-! ### Strings -/

/-- Reads a string up to its delimiter, with enough steps. -/
def readStringAt (value s : Bytes) : Start := readString (s.length + 1) (byte '"') value 0 s

theorem readStringAt_plain {b : UInt8} (hquote : b ≠ byte '"') (hbreak : isBreak b = false)
    (hslash : b ≠ byte '\\') (value s : Bytes) :
    readStringAt value (b :: s) = readStringAt (b :: value) s := by
  rw [readStringAt, readString, if_neg hquote, hbreak, if_neg (by decide), if_neg hslash]
  rfl

theorem readStringAt_escape {e bs s : Bytes} (h : readEscape (e ++ s) = .bytes bs 0 s)
    (value : Bytes) :
    readStringAt value (byte '\\' :: (e ++ s)) = readStringAt (bs.reverse ++ value) s := by
  have hlen := readEscape_length h
  rw [readStringAt, readString, if_neg (by decide), if_neg (by decide), if_pos rfl, h]
  exact readString_steps (Nat.lt_succ_of_le hlen) (by omega)

/-- Bytes that mean nothing special in a string. -/
theorem readStringAt_plains {bs : Bytes}
    (h : ∀ b ∈ bs, b ≠ byte '"' ∧ isBreak b = false ∧ b ≠ byte '\\') (value s : Bytes) :
    readStringAt value (bs ++ s) = readStringAt (bs.reverse ++ value) s := by
  induction bs generalizing value with
  | nil => rfl
  | cons b bs ih =>
    obtain ⟨hquote, hbreak, hslash⟩ := h b (List.mem_cons_self ..)
    rw [List.cons_append, readStringAt_plain hquote hbreak hslash,
      ih fun b hb => h b (List.mem_cons_of_mem _ hb), List.reverse_cons, List.append_assoc]
    rfl

theorem readEscape_hex {n : Nat} (hn : n ≤ 0x7F) (s : Bytes) :
    readEscape (encode ['x', upperHexDigit (n / 16), upperHexDigit (n % 16)] ++ s) =
      .bytes [UInt8.ofNat n] 0 s := by
  have hdigit : ∀ k < 16, encode [upperHexDigit k] = [byte (upperHexDigit k)] ∧
      hexValue? (byte (upperHexDigit k)) = some k := by decide
  obtain ⟨hhigh, hhigh'⟩ := hdigit (n / 16) (by omega)
  obtain ⟨hlow, hlow'⟩ := hdigit (n % 16) (by omega)
  have hbytes : encode ['x', upperHexDigit (n / 16), upperHexDigit (n % 16)] =
      [byte 'x'] ++ (encode [upperHexDigit (n / 16)] ++ encode [upperHexDigit (n % 16)]) := by
    rw [← encode_append]
    rfl
  rw [hbytes, hhigh, hlow]
  change hexEscape [byte '\\', byte 'x']
    (byte (upperHexDigit (n / 16)) :: byte (upperHexDigit (n % 16)) :: s) = _
  simp only [hexEscape, hhigh', hlow', Nat.div_add_mod]

theorem literalChar_plain {c : Char} (hquote : c ≠ '"') (hslash : c ≠ '\\')
    (hcontrol : ¬ (c.toNat < 0x20 ∨ c.toNat = 0x7F)) (b : UInt8) (hb : b ∈ encode [c]) :
    b ≠ byte '"' ∧ isBreak b = false ∧ b ≠ byte '\\' := by
  have hne {d : Char} (hd : c ≠ d) : c.toNat ≠ d.toNat := fun h =>
    hd (Char.ext (UInt32.toNat_inj.1 h))
  by_cases hc : c.toNat ≤ 0x7F
  · have hascii : ∀ n < 0x80, (n < 0x20 ∨ n = 0x7F) ∨ n = '"'.toNat ∨ n = '\\'.toNat ∨
        UInt8.ofNat n ≠ byte '"' ∧ isBreak (UInt8.ofNat n) = false ∧
          UInt8.ofNat n ≠ byte '\\' := by decide +kernel
    rw [encode_ascii hc, List.mem_singleton] at hb
    rw [hb]
    rcases hascii c.toNat (by omega) with h | h | h | h
    · exact absurd h hcontrol
    · exact absurd h (hne hquote)
    · exact absurd h (hne hslash)
    · exact h
  · have hlt := mem_encode_of_lt (Nat.not_le.1 hc) hb
    have hneByte {d : UInt8} (hd : d.toNat ≤ 0x7F) : b ≠ d := by
      rintro rfl
      omega
    refine ⟨hneByte (by decide), ?_, hneByte (by decide)⟩
    rw [isBreak, Bool.or_eq_false_iff, beq_eq_false_iff_ne, beq_eq_false_iff_ne]
    exact ⟨hneByte (by decide), hneByte (by decide)⟩

theorem readStringAt_literalChar (c : Char) (value s : Bytes) :
    readStringAt value (encode (literalChar c) ++ s) =
      readStringAt ((encode [c]).reverse ++ value) s := by
  unfold literalChar
  split
  · exact readStringAt_escape (e := [byte '"']) rfl value
  · exact readStringAt_escape (e := [byte '\\']) rfl value
  · exact readStringAt_escape (e := [byte 'n']) rfl value
  · exact readStringAt_escape (e := [byte 'r']) rfl value
  · exact readStringAt_escape (e := [byte 't']) rfl value
  next hquote hslash _ _ _ =>
    by_cases hcontrol : c.toNat < 0x20 ∨ c.toNat = 0x7F
    · rw [if_pos hcontrol]
      have hc : c.toNat ≤ 0x7F := by omega
      rw [encode_ascii hc]
      exact readStringAt_escape (readEscape_hex hc s) value
    · rw [if_neg hcontrol]
      exact readStringAt_plains (literalChar_plain hquote hslash hcontrol) value s

theorem readStringAt_literal (cs : List Char) (value s : Bytes) :
    readStringAt value (encode (cs.flatMap literalChar) ++ s) =
      readStringAt ((encode cs).reverse ++ value) s := by
  induction cs generalizing value with
  | nil => rfl
  | cons c cs ih =>
    rw [List.flatMap_cons, encode_append, List.append_assoc, readStringAt_literalChar, ih,
      ← List.singleton_append (x := c) (l := cs), encode_append, List.reverse_append,
      List.append_assoc]

/-- The token of a text in quotes. -/
def quotedToken (text : String) : Token :=
  .string (bytesOf text) (byte '"' :: (bytesOf text ++ [byte '"']))

theorem bytesOf_quote (text : String) :
    bytesOf (quote text) =
      byte '"' :: (encode (text.toList.flatMap literalChar) ++ [byte '"']) := by
  rw [bytesOf, quote, String.toList_ofList, literal, encode_append, encode_append]
  rfl

/-- A text in quotes ends at its second quote, whatever comes after it. -/
theorem startAt_quote (text : String) (line : Nat) (t : Bytes) :
    startAt line (byte '"') (encode (text.toList.flatMap literalChar) ++ byte '"' :: t) =
      .token (quotedToken text) 0 t := by
  have hdash (q : Prop) : ¬ (byte '"' = byte '-' ∧ q) := fun h => absurd h.1 (by decide)
  rw [startAt, start.eq_def, if_neg (by decide), if_neg (by decide), if_neg (hdash _),
    if_neg (by decide), if_pos (.inl rfl)]
  change readStringAt [] _ = _
  rw [readStringAt_literal, readStringAt, readString, if_pos rfl]
  simp [soFar, bytesOf, quotedToken]

/-- A digit of the text does not go on with the escape before it. -/
example : startAt 1 (byte '"') (bytesOf "\\x00F\" .. x") =
    .token (quotedToken "\x00F") 0 (bytesOf " .. x") := by rfl

/-- A text in quotes is a literal whose value is the bytes of the text, whatever comes after it. -/
theorem spells_quote (text : String) (t : Bytes) :
    Spells (bytesOf (quote text)) [quotedToken text] t := by
  rw [bytesOf_quote]
  refine .of_token fun line => ?_
  rw [List.append_assoc]
  exact startAt_quote text line t

/-! ### Control characters -/

/-- A control character of ASCII. -/
def IsControl (c : Char) : Prop := c.toNat < 0x20 ∨ c.toNat = 0x7F

instance (c : Char) : Decidable (IsControl c) := inferInstanceAs (Decidable (_ ∨ _))

theorem not_isControl_upperHexDigit {n : Nat} (hn : n < 16) : ¬ IsControl (upperHexDigit n) := by
  have hdigit : ∀ k < 16, ¬ IsControl (upperHexDigit k) := by decide
  exact hdigit n hn

/-- A control character is escaped, and no escape is written with one. -/
theorem not_isControl_of_mem_literalChar {c d : Char} (hd : d ∈ literalChar c) :
    ¬ IsControl d := by
  have hletter (e : Char) (he : ¬ IsControl e) (hd : d ∈ ['\\', e]) : ¬ IsControl d := by
    rcases List.mem_cons.1 hd with rfl | hd
    · decide
    · rwa [List.mem_singleton.1 hd]
  unfold literalChar at hd
  split at hd
  · exact hletter '"' (by decide) hd
  · exact hletter '\\' (by decide) hd
  · exact hletter 'n' (by decide) hd
  · exact hletter 'r' (by decide) hd
  · exact hletter 't' (by decide) hd
  next =>
    split at hd
    next hcontrol =>
      simp only [List.mem_cons, List.not_mem_nil, or_false] at hd
      rcases hd with rfl | rfl | rfl | rfl
      · decide
      · decide
      · exact not_isControl_upperHexDigit (by omega)
      · exact not_isControl_upperHexDigit (by omega)
    next hcontrol =>
      rwa [List.mem_singleton.1 hd]

theorem not_isControl_of_mem_quote {text : String} {c : Char} (hc : c ∈ (quote text).toList) :
    ¬ IsControl c := by
  rw [quote, String.toList_ofList, literal, List.mem_append, List.mem_append,
    List.mem_flatMap] at hc
  rcases hc with (hc | ⟨d, -, hc⟩) | hc
  · rw [List.mem_singleton.1 hc]
    decide
  · exact not_isControl_of_mem_literalChar hc
  · rw [List.mem_singleton.1 hc]
    decide

/-- **Quoting is undone.**  A text in quotes has no control character of ASCII, so it stays on one
line.  Read from its first quote on, with any bytes after it, it is one string that ends at its last
quote, and the value of the string is the bytes of the text. -/
theorem quote_read_back (text : String) :
    (∀ c ∈ (quote text).toList, ¬ IsControl c) ∧
      ∃ inside, bytesOf (quote text) = byte '"' :: (inside ++ [byte '"']) ∧
        ∀ (line : Nat) (t : Bytes),
          startAt line (byte '"') (inside ++ byte '"' :: t) =
              .token (.string (bytesOf text) (byte '"' :: (bytesOf text ++ [byte '"']))) 0 t ∧
            lexAt line (bytesOf (quote text) ++ t) =
              ⟨.string (bytesOf text) (byte '"' :: (bytesOf text ++ [byte '"'])), line⟩ ::
                lexAt line t := by
  refine ⟨fun c hc => not_isControl_of_mem_quote hc, _, bytesOf_quote text, fun line t => ?_⟩
  have hstart := startAt_quote text line t
  refine ⟨hstart, ?_⟩
  rw [bytesOf_quote, List.cons_append, List.append_assoc, List.singleton_append, lexAt_cons, hstart]
  rfl

end Stencil.Template
