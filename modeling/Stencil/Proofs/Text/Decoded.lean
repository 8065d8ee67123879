import Stencil.Text.Utf8

/-!
# Text that comes back

The bytes of a text decode to the text and hold no fault, because the bytes of a character are read
as one piece whatever comes after them: `firstPiece_encode`.
-/

namespace Stencil.Text

/-! ### Bytes of characters -/

theorem encode_append (s t : List Char) : encode (s ++ t) = encode s ++ encode t := by
  simp [encode]

theorem encode_singleton (c : Char) : encode [c] = String.utf8EncodeChar c := by
  simp [encode]

theorem encode_ascii {c : Char} (hc : c.toNat ≤ 0x7F) : encode [c] = [UInt8.ofNat c.toNat] := by
  rw [encode_singleton, String.utf8EncodeChar]
  exact if_pos hc

theorem encode_cons (c : Char) (s : List Char) :
    encode (c :: s) = String.utf8EncodeChar c ++ encode s := List.flatMap_cons

theorem bytesOf_append (s t : String) : bytesOf (s ++ t) = bytesOf s ++ bytesOf t := by
  rw [bytesOf, String.toList_append, encode_append]
  rfl

/-! ### Bytes that start a character -/

theorem leading_two : ∀ n < 256, 0xC2 ≤ n ∧ n ≤ 0xDF →
    leading (UInt8.ofNat n) = some (2, 0x80, 0xBF) := by decide +kernel

/-- The least second byte of a character of three bytes or more. -/
def leastSecond (n : Nat) : UInt8 := if n = 0xE0 then 0xA0 else if n = 0xF0 then 0x90 else 0x80

/-- The greatest second byte of a character of three bytes or more. -/
def greatestSecond (n : Nat) : UInt8 := if n = 0xED then 0x9F else if n = 0xF4 then 0x8F else 0xBF

theorem leading_three : ∀ n < 256, 0xE0 ≤ n ∧ n ≤ 0xEF →
    leading (UInt8.ofNat n) = some (3, leastSecond n, greatestSecond n) := by decide +kernel

theorem leading_four : ∀ n < 256, 0xF0 ≤ n ∧ n ≤ 0xF4 →
    leading (UInt8.ofNat n) = some (4, leastSecond n, greatestSecond n) := by decide +kernel

variable {n : Nat}

theorem toNat_byte (h : n < 256) : (UInt8.ofNat n).toNat = n := UInt8.toNat_ofNat_of_lt' h

theorem not_outside {low high : UInt8} (hlow : low.toNat ≤ n) (hhigh : n ≤ high.toNat)
    (h : n < 256) : ¬ (UInt8.ofNat n < low ∨ high < UInt8.ofNat n) := by
  rw [UInt8.lt_iff_toNat_lt, UInt8.lt_iff_toNat_lt, toNat_byte h]
  omega

theorem isContinuation_byte (hlow : 0x80 ≤ n) (hhigh : n ≤ 0xBF) :
    isContinuation (UInt8.ofNat n) := by
  have h : ∀ n < 256, 0x80 ≤ n ∧ n ≤ 0xBF → isContinuation (UInt8.ofNat n) := by decide +kernel
  exact h n (by omega) ⟨hlow, hhigh⟩

theorem not_ascii (hlow : 0x80 ≤ n) (h : n < 256) : ¬ UInt8.ofNat n < 0x80 := by
  rw [UInt8.lt_iff_toNat_lt, toNat_byte h]
  exact Nat.not_lt.2 hlow

/-- A character of two bytes. -/
theorem firstPiece_two {c : Char} (hlow : 0x7F < c.toNat) (hhigh : c.toNat ≤ 0x7FF) (t : Bytes) :
    firstPiece (UInt8.ofNat (c.toNat / 64 % 0x20 + 0xC0))
      (UInt8.ofNat (c.toNat % 0x40 + 0x80) :: t) = .char c 2 := by
  have hfirst : c.toNat / 64 % 0x20 + 0xC0 < 256 := by omega
  have hsecond : c.toNat % 0x40 + 0x80 < 256 := by omega
  have hvalue : (c.toNat / 64 % 0x20 + 0xC0) % 32 * 64 + (c.toNat % 0x40 + 0x80) % 64 = c.toNat := by
    omega
  have hinside : ¬ (UInt8.ofNat (c.toNat % 0x40 + 0x80) < 0x80 ∨
      0xBF < UInt8.ofNat (c.toNat % 0x40 + 0x80)) :=
    not_outside (Nat.le_add_left ..) (show _ ≤ 0xBF by omega) hsecond
  rw [firstPiece, if_neg (not_ascii (by omega) hfirst),
    leading_two _ hfirst ⟨by omega, by omega⟩]
  dsimp only
  rw [if_neg hinside, if_pos rfl, payload, toNat_byte hfirst, toNat_byte hsecond, hvalue,
    Char.ofNat_toNat]

/-- A character of three bytes. -/
theorem firstPiece_three {c : Char} (hlow : 0x7FF < c.toNat) (hhigh : c.toNat ≤ 0xFFFF)
    (hsurrogate : c.toNat < 0xD800 ∨ 0xDFFF < c.toNat) (t : Bytes) :
    firstPiece (UInt8.ofNat (c.toNat / 4096 % 0x10 + 0xE0))
      (UInt8.ofNat (c.toNat / 64 % 0x40 + 0x80) :: UInt8.ofNat (c.toNat % 0x40 + 0x80) :: t) =
      .char c 3 := by
  have hfirst : c.toNat / 4096 % 0x10 + 0xE0 < 256 := by omega
  have hsecond : c.toNat / 64 % 0x40 + 0x80 < 256 := by omega
  have hthird : c.toNat % 0x40 + 0x80 < 256 := by omega
  have hvalue : (c.toNat / 4096 % 0x10 + 0xE0) % 16 * 4096 +
      (c.toNat / 64 % 0x40 + 0x80) % 64 * 64 + (c.toNat % 0x40 + 0x80) % 64 = c.toNat := by omega
  have hinside : ¬ (UInt8.ofNat (c.toNat / 64 % 0x40 + 0x80) <
        leastSecond (c.toNat / 4096 % 0x10 + 0xE0) ∨
      greatestSecond (c.toNat / 4096 % 0x10 + 0xE0) <
        UInt8.ofNat (c.toNat / 64 % 0x40 + 0x80)) := by
    refine not_outside ?_ ?_ hsecond
    · unfold leastSecond
      split
      · exact show 0xA0 ≤ _ by omega
      · rw [if_neg (by omega)]
        exact Nat.le_add_left ..
    · unfold greatestSecond
      split
      · exact show _ ≤ 0x9F by omega
      · rw [if_neg (by omega)]
        exact show _ ≤ 0xBF by omega
  rw [firstPiece, if_neg (not_ascii (by omega) hfirst),
    leading_three _ hfirst ⟨by omega, by omega⟩]
  dsimp only
  rw [if_neg hinside, if_neg (by decide), isContinuation_byte (by omega) (by omega),
    if_neg (by decide), if_pos rfl, payload, payload, toNat_byte hfirst, toNat_byte hsecond,
    toNat_byte hthird, hvalue, Char.ofNat_toNat]

/-- A character of four bytes. -/
theorem firstPiece_four {c : Char} (hlow : 0xFFFF < c.toNat) (hhigh : c.toNat ≤ 0x10FFFF)
    (t : Bytes) :
    firstPiece (UInt8.ofNat (c.toNat / 262144 % 0x08 + 0xF0))
      (UInt8.ofNat (c.toNat / 4096 % 0x40 + 0x80) :: UInt8.ofNat (c.toNat / 64 % 0x40 + 0x80) ::
        UInt8.ofNat (c.toNat % 0x40 + 0x80) :: t) = .char c 4 := by
  have hfirst : c.toNat / 262144 % 0x08 + 0xF0 < 256 := by omega
  have hsecond : c.toNat / 4096 % 0x40 + 0x80 < 256 := by omega
  have hthird : c.toNat / 64 % 0x40 + 0x80 < 256 := by omega
  have hfourth : c.toNat % 0x40 + 0x80 < 256 := by omega
  have hvalue : (c.toNat / 262144 % 0x08 + 0xF0) % 8 * 262144 +
      (c.toNat / 4096 % 0x40 + 0x80) % 64 * 4096 + (c.toNat / 64 % 0x40 + 0x80) % 64 * 64 +
        (c.toNat % 0x40 + 0x80) % 64 = c.toNat := by omega
  have hinside : ¬ (UInt8.ofNat (c.toNat / 4096 % 0x40 + 0x80) <
        leastSecond (c.toNat / 262144 % 0x08 + 0xF0) ∨
      greatestSecond (c.toNat / 262144 % 0x08 + 0xF0) <
        UInt8.ofNat (c.toNat / 4096 % 0x40 + 0x80)) := by
    refine not_outside ?_ ?_ hsecond
    · rw [leastSecond, if_neg (by omega)]
      split
      · exact show 0x90 ≤ _ by omega
      · exact Nat.le_add_left ..
    · rw [greatestSecond, if_neg (by omega)]
      split
      · exact show _ ≤ 0x8F by omega
      · exact show _ ≤ 0xBF by omega
  rw [firstPiece, if_neg (not_ascii (by omega) hfirst),
    leading_four _ hfirst ⟨by omega, by omega⟩]
  dsimp only
  rw [if_neg hinside, if_neg (by decide), isContinuation_byte (by omega) (by omega),
    if_neg (by decide), if_neg (by decide), isContinuation_byte (by omega) (by omega),
    if_neg (by decide), payload, payload, payload, toNat_byte hfirst, toNat_byte hsecond,
    toNat_byte hthird, toNat_byte hfourth, hvalue, Char.ofNat_toNat]

/-- The bytes of a character are one piece, whatever comes after them. -/
theorem firstPiece_encode (c : Char) : ∃ b bs, String.utf8EncodeChar c = b :: bs ∧
    ∀ t, firstPiece b (bs ++ t) = .char c (bs.length + 1) := by
  have hc : c.toNat < 0xD800 ∨ 0xDFFF < c.toNat ∧ c.toNat < 0x110000 := c.valid
  by_cases h1 : c.toNat ≤ 0x7F
  · refine ⟨UInt8.ofNat c.toNat, [], if_pos h1, fun t => ?_⟩
    have hlt : c.toNat < 256 := by omega
    rw [firstPiece, if_pos, toNat_byte hlt, Char.ofNat_toNat]
    · rfl
    · rw [UInt8.lt_iff_toNat_lt, toNat_byte hlt]
      exact show _ < 0x80 by omega
  · by_cases h2 : c.toNat ≤ 0x7FF
    · exact ⟨_, [_], (if_neg h1).trans (if_pos h2), firstPiece_two (by omega) h2⟩
    · by_cases h3 : c.toNat ≤ 0xFFFF
      · exact ⟨_, [_, _], (if_neg h1).trans ((if_neg h2).trans (if_pos h3)),
          firstPiece_three (by omega) h3 (by omega)⟩
      · exact ⟨_, [_, _, _], (if_neg h1).trans ((if_neg h2).trans (if_neg h3)),
          firstPiece_four (by omega) (by omega)⟩

/-! ### Texts -/

/-- The bytes of a piece that has been read are passed over. -/
theorem decodeFrom_skip (bs t : Bytes) : decodeFrom bs.length (bs ++ t) = decodeFrom 0 t := by
  induction bs with
  | nil => rfl
  | cons b bs ih => exact ih

theorem faultFrom_skip (bs t : Bytes) (index : Nat) :
    faultFrom index bs.length (bs ++ t) = faultFrom (index + bs.length) 0 t := by
  induction bs generalizing index with
  | nil => rfl
  | cons b bs ih =>
    rw [List.length_cons, List.cons_append, faultFrom, ih]
    congr 1
    omega

theorem decodeLossy_encode (s : List Char) : decodeLossy (encode s) = s := by
  rw [decodeLossy]
  induction s with
  | nil => rfl
  | cons c s ih =>
    obtain ⟨b, bs, hbytes, hpiece⟩ := firstPiece_encode c
    have hencode : encode (c :: s) = b :: (bs ++ encode s) := by
      rw [encode_cons, hbytes, List.cons_append]
    rw [hencode, decodeFrom, hpiece]
    exact congrArg (c :: ·) ((decodeFrom_skip bs _).trans ih)

theorem faultFrom_encode (s : List Char) (index : Nat) : faultFrom index 0 (encode s) = none := by
  induction s generalizing index with
  | nil => rfl
  | cons c s ih =>
    obtain ⟨b, bs, hbytes, hpiece⟩ := firstPiece_encode c
    have hencode : encode (c :: s) = b :: (bs ++ encode s) := by
      rw [encode_cons, hbytes, List.cons_append]
    rw [hencode, faultFrom, hpiece]
    exact (faultFrom_skip bs _ _).trans (ih _)

/-- A string comes back from its bytes. -/
theorem stringLossy_bytesOf (s : String) : stringLossy (bytesOf s) = s := by
  rw [stringLossy, bytesOf, decodeLossy_encode, String.ofList_toList]

/-- The bytes of a string are well formed. -/
theorem firstFault_bytesOf (s : String) : firstFault (bytesOf s) = none :=
  faultFrom_encode s.toList 0

/-- Strings with the same bytes are equal. -/
theorem bytesOf_injective {s t : String} (h : bytesOf s = bytesOf t) : s = t := by
  rw [← stringLossy_bytesOf s, h, stringLossy_bytesOf]

end Stencil.Text
