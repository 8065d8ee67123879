import Stencil.Proofs.Script.Spelling
import Stencil.Proofs.Text.Decoded

/-!
# Whole numbers in scripts

The decimal digits of a whole number are read as one numeral, whose value is the number if it has at
most 63 bits: `spells_numeral`.  A minus sign before it is a token of its own (`spells_minus`).
-/

namespace Stencil.Script

-- powers as the core library has them, whatever else is imported
attribute [local instance (high)] instPowNat

open Stencil.Text (Bytes bytesOf bytesOf_append encode encode_append encode_ascii)

/-! ### Digits -/

/-- The classes of a byte that is a digit. -/
theorem isDigit_byte {c : Char} (h : c.isDigit) : isDigit (byte c) ∧
    isExponentMark false (byte c) = false ∧ isNumeralPart (byte c) ∧
      Number.isBlankByte (byte c) = false ∧ isBreak (byte c) = false ∧
        isNameStart (byte c) = false ∧ (byte c).toNat = c.toNat := by
  have hbytes : ∀ n < 58, 48 ≤ n → isDigit (UInt8.ofNat n) ∧
      isExponentMark false (UInt8.ofNat n) = false ∧ isNumeralPart (UInt8.ofNat n) ∧
        Number.isBlankByte (UInt8.ofNat n) = false ∧ isBreak (UInt8.ofNat n) = false ∧
          isNameStart (UInt8.ofNat n) = false ∧ (UInt8.ofNat n).toNat = n := by decide +kernel
  obtain ⟨hlow, hhigh⟩ := Char.isDigit_iff_toNat.1 h
  exact hbytes c.toNat (Nat.lt_succ_of_le hhigh) hlow

/-- A digit is none of the characters that mean something else in a numeral. -/
theorem isDigit_ne {c d : Char} (h : c.isDigit) (hd : d.isDigit = false) : c ≠ d := by
  rintro rfl
  rw [hd] at h
  cases h

variable {cs : List Char}

theorem encode_digits (h : ∀ c ∈ cs, c.isDigit) : encode cs = cs.map byte := by
  induction cs with
  | nil => rfl
  | cons c cs ih =>
    have hc : c.toNat ≤ 0x7F :=
      (Char.isDigit_iff_toNat.1 (h c (List.mem_cons_self ..))).2.trans (by decide)
    rw [← List.singleton_append, encode_append, encode_ascii hc,
      ih fun d hd => h d (List.mem_cons_of_mem _ hd)]
    rfl

theorem asChars_digits (h : ∀ c ∈ cs, c.isDigit) : Number.asChars (cs.map byte) = cs := by
  have hself : cs.map (fun c => Char.ofNat (byte c).toNat) = cs.map id :=
    List.map_congr_left fun c hc => by
      rw [(isDigit_byte (h c hc)).2.2.2.2.2.2, Char.ofNat_toNat, id]
  rw [Number.asChars, List.map_map]
  exact hself.trans (List.map_id cs)

theorem stripBlanks_digits (h : ∀ c ∈ cs, c.isDigit) :
    Number.stripBlanks (cs.map byte) = cs.map byte := by
  have hblank : ∀ b ∈ cs.map byte, Number.isBlankByte b = false := by
    intro b hb
    obtain ⟨c, hc, rfl⟩ := List.mem_map.1 hb
    exact (isDigit_byte (h c hc)).2.2.2.1
  have hdrop {bs : Bytes} (hbs : ∀ b ∈ bs, Number.isBlankByte b = false) :
      bs.dropWhile Number.isBlankByte = bs := by
    cases bs with
    | nil => rfl
    | cons b bs =>
      exact List.dropWhile_cons_of_neg (by rw [hbs b (List.mem_cons_self ..)]; decide)
  rw [Number.stripBlanks, hdrop hblank, hdrop fun b hb => hblank b (List.mem_reverse.1 hb),
    List.reverse_reverse]

theorem readDigits_digits (h : ∀ c ∈ cs, c.isDigit) (run : Decimal.Run) :
    Decimal.readDigits 10 run cs =
      (⟨Nat.ofDigitChars 10 cs run.value, run.count + cs.length⟩, []) := by
  induction cs generalizing run with
  | nil => rfl
  | cons c cs ih =>
    have hvalue : Decimal.digitValue? 10 c = some (c.toNat - '0'.toNat) := by
      have hc := Char.isDigit_iff_toNat.1 (h c (List.mem_cons_self ..))
      rw [Decimal.digitValue?, Decimal.hexValue?, if_pos hc, Option.filter_some, if_pos]
      rw [decide_eq_true_eq]
      have hhigh : c.toNat ≤ 57 := hc.2
      exact show c.toNat - 48 < 10 by omega
    rw [Decimal.readDigits, hvalue]
    dsimp only
    rw [ih fun d hd => h d (List.mem_cons_of_mem _ hd), Nat.ofDigitChars_cons, Nat.mul_comm,
      List.length_cons, Nat.add_assoc, Nat.add_comm 1]

/-! ### Values -/

/-- The digits of a whole number. -/
def digitsOf (n : Nat) : Bytes := bytesOf (toString n)

theorem isDigit_of_mem {n : Nat} : ∀ c ∈ Nat.toDigits 10 n, c.isDigit := fun _ hc =>
  Nat.isDigit_of_mem_toDigits (by decide) (by decide) hc

theorem digitsOf_eq (n : Nat) : digitsOf n = (Nat.toDigits 10 n).map byte := by
  rw [digitsOf, bytesOf, Nat.toString_eq_repr, Nat.toList_repr, encode_digits isDigit_of_mem]

theorem readSign_digits (h : ∀ c ∈ cs, c.isDigit) : Decimal.readSign cs = (false, cs) := by
  cases cs with
  | nil => rfl
  | cons c cs =>
    have hc := h c (List.mem_cons_self ..)
    rw [Decimal.readSign.eq_def]
    split
    next heq => exact absurd (List.cons.inj heq).1 (isDigit_ne hc rfl)
    next heq => exact absurd (List.cons.inj heq).1 (isDigit_ne hc rfl)
    next => rfl

theorem afterHexMark?_digits (h : ∀ c ∈ cs, c.isDigit) : Number.afterHexMark? cs = none := by
  rw [Number.afterHexMark?.eq_def]
  split
  next => exact absurd rfl (isDigit_ne (h 'x' (by simp)) rfl)
  next => exact absurd rfl (isDigit_ne (h 'X' (by simp)) rfl)
  next => rfl

/-- The digits of a whole number of at most 63 bits are read as the number. -/
theorem read?_digitsOf {n : Nat} (hn : n < 2 ^ (63 : Nat)) :
    Number.read? (digitsOf n) = some (.int (Int64.ofInt n)) := by
  have hfits : Number.fits (n : Int) := by
    rw [Number.fits, Bool.and_eq_true, decide_eq_true_eq, decide_eq_true_eq]
    omega
  have hint : Number.readInt? false (Nat.toDigits 10 n) = some (Int64.ofInt n) := by
    rw [Number.readInt?, afterHexMark?_digits isDigit_of_mem]
    simp only [readDigits_digits isDigit_of_mem, Nat.ofDigitChars_ten_toDigits, Bool.false_eq_true,
      if_false, hfits, Bool.not_true, Bool.or_false]
    rw [if_neg (by simp)]
  rw [digitsOf_eq, Number.read?, stripBlanks_digits isDigit_of_mem, asChars_digits isDigit_of_mem,
    readSign_digits isDigit_of_mem]
  simp only [hint]

/-! ### Tokens -/

theorem splitNumeral_digits (h : ∀ c ∈ cs, c.isDigit) {t : Bytes}
    (ht : ∀ b ∈ t.head?, isExponentMark false b = false ∧ isNumeralPart b = false) :
    splitNumeral false (cs.map byte ++ t) = (cs.map byte, t) := by
  induction cs with
  | nil =>
    match t, ht with
    | [], _ => rfl
    | [b], ht =>
      obtain ⟨hmark, hpart⟩ := ht b rfl
      rw [List.map_nil, List.nil_append, splitNumeral, hmark, hpart]
      rfl
    | b :: c :: t, ht =>
      obtain ⟨hmark, hpart⟩ := ht b rfl
      rw [List.map_nil, List.nil_append, splitNumeral, hmark, hpart]
      rfl
  | cons c cs ih =>
    obtain ⟨-, hmark, hpart, -⟩ := isDigit_byte (h c (List.mem_cons_self ..))
    have ih := ih fun d hd => h d (List.mem_cons_of_mem _ hd)
    rw [List.map_cons, List.cons_append]
    generalize hrest : cs.map byte ++ t = s at ih ⊢
    cases s with
    | nil =>
      rw [splitNumeral, hmark, hpart, Bool.false_or, if_pos rfl]
      rw [splitNumeral] at ih
      rw [← (Prod.mk.inj ih).1, ← (Prod.mk.inj ih).2]
    | cons d s =>
      rw [splitNumeral, hmark, hpart, Bool.false_and, if_neg (by decide), Bool.false_or, if_pos rfl,
        ih]

/-- The token of a whole number. -/
def numberToken (n : Nat) : Token := .number (.int (Int64.ofInt n)) (digitsOf n)

/-- **Numerals.**  The digits of a whole number are one token, in front of anything that cannot go on
with it. -/
theorem spells_numeral {n : Nat} (hn : n < 2 ^ (63 : Nat)) {t : Bytes}
    (ht : ∀ b ∈ t.head?, isExponentMark false b = false ∧ isNumeralPart b = false ∧
      isNameStart b = false) : Spells (digitsOf n) [numberToken n] t := by
  have hdigits := digitsOf_eq n
  have hread := read?_digitsOf hn
  have hall : ∀ c ∈ Nat.toDigits 10 n, c.isDigit := isDigit_of_mem
  cases hcs : Nat.toDigits 10 n with
  | nil => exact absurd hcs Nat.toDigits_ne_nil
  | cons c cs =>
    rw [hcs] at hdigits hall
    rw [List.map_cons] at hdigits
    have hc := hall c (List.mem_cons_self ..)
    have hcs : ∀ d ∈ cs, d.isDigit := fun d hd => hall d (List.mem_cons_of_mem _ hd)
    obtain ⟨hdigit, -, -, hblank, hbreak, hname, -⟩ := isDigit_byte hc
    have hne {d : Char} (hd : isDigit (byte d) = false) : byte c ≠ byte d := fun heq => by
      rw [heq, hd] at hdigit
      cases hdigit
    have hhead : ∀ b ∈ (cs.map byte ++ t).head?, isNameStart b = false := by
      cases cs with
      | nil => exact fun b hb => (ht b hb).2.2
      | cons d ds =>
        intro b hb
        rw [← Option.some.inj hb]
        exact (isDigit_byte (hcs d (List.mem_cons_self ..))).2.2.2.2.2.1
    have hhex : (([byte c].getLast? == some (byte '0')) &&
        ((cs.map byte ++ t).head? == some (byte 'x') ||
          (cs.map byte ++ t).head? == some (byte 'X'))) = false := by
      cases hopt : (cs.map byte ++ t).head? with
      | none => simp
      | some b =>
        have hletter {d : UInt8} (hd : isNameStart d) : b ≠ d := fun heq => by
          have hb := hhead b hopt
          rw [heq, hd] at hb
          cases hb
        simp [hletter (d := byte 'x') (by decide), hletter (d := byte 'X') (by decide)]
    have htouching : (t.take 1).filter isNameStart = [] := by
      cases t with
      | nil => rfl
      | cons b t => simp [(ht b rfl).2.2]
    rw [numberToken, hdigits]
    rw [hdigits] at hread
    refine .of_token fun line => ?_
    rw [startAt, start.eq_def, hbreak, if_neg (by decide), hblank, if_neg (by decide),
      if_neg (fun h => hne (by decide) h.1), if_neg (hne (by decide)),
      if_neg (by simp [hne (d := '"') (by decide), hne (d := '\'') (by decide)]), if_pos hdigit,
      readNumeral, hhex, if_neg (by decide)]
    simp only [List.length_nil, List.drop_zero,
      splitNumeral_digits hcs fun b hb => ⟨(ht b hb).1, (ht b hb).2.1⟩, htouching, List.append_nil,
      List.singleton_append, hread]

/-- A minus sign before a digit. -/
theorem spells_minus {b : UInt8} (hb : b ≠ byte '-') {t : Bytes} :
    Spells (bytesOf "-") [.mark .minus] (b :: t) := by
  refine .of_token (s := []) fun line => ?_
  rw [List.nil_append, startAt, start.eq_def, if_neg (by decide), if_neg (by decide),
    if_neg (fun h => hb (Option.some.inj h.2))]
  rfl

/-! ### Integers -/

/-- The tokens of an integer. -/
def integerTokens (n : Int) : List Token :=
  if n < 0 then [.mark .minus, numberToken n.natAbs] else [numberToken n.natAbs]

theorem toString_nonneg {n : Int} (h : 0 ≤ n) : toString n = toString n.natAbs := by
  obtain ⟨k, rfl⟩ := Int.eq_ofNat_of_zero_le h
  rfl

theorem toString_neg {n : Int} (h : n < 0) : toString n = "-" ++ toString n.natAbs := by
  obtain ⟨k, rfl⟩ := Int.eq_negSucc_of_lt_zero h
  rfl

/-- The text of an integer, in front of anything that cannot go on with it. -/
theorem spells_integer {n : Int} (hn : n.natAbs < 2 ^ (63 : Nat)) {t : Bytes}
    (ht : ∀ b ∈ t.head?, isExponentMark false b = false ∧ isNumeralPart b = false ∧
      isNameStart b = false) : Spells (bytesOf (toString n)) (integerTokens n) t := by
  have hnumeral := spells_numeral hn ht
  by_cases h : n < 0
  · rw [toString_neg h, bytesOf_append, integerTokens, if_pos h]
    refine Spells.append (?_ : Spells _ [.mark .minus] _) hnumeral
    have hhead : ∃ c ∈ Nat.toDigits 10 n.natAbs, ∃ u, digitsOf n.natAbs ++ t = byte c :: u := by
      rw [digitsOf_eq]
      cases hcs : Nat.toDigits 10 n.natAbs with
      | nil => exact absurd hcs Nat.toDigits_ne_nil
      | cons c cs => exact ⟨c, List.mem_cons_self .., _, rfl⟩
    obtain ⟨c, hc, u, hu⟩ := hhead
    change Spells _ _ (digitsOf n.natAbs ++ t)
    rw [hu]
    refine spells_minus fun heq => ?_
    have hdigit := (isDigit_byte (isDigit_of_mem c hc)).1
    rw [heq] at hdigit
    cases hdigit
  · rw [toString_nonneg (by omega), integerTokens, if_neg h]
    exact hnumeral

end Stencil.Script
