/-!
# Text as bytes

Script strings and files are sequences of bytes, templates are sequences of characters.  `encode`
goes one way.  The other way has three answers: `decode?` accepts well-formed text only,
`firstFault` says where and how a sequence stops being text, and `decodeLossy` puts U+FFFD in the
place of every maximal malformed piece.

A malformed piece is the longest start of a well-formed character that is present, or one byte if
there is none; both the replacement and the reported fault are cut by this rule.
-/

namespace Stencil.Text

-- sums as the core library has them, whatever else is imported
attribute [local instance (high)] Zero.ofOfNat0

/-- A sequence of bytes. -/
abbrev Bytes := List UInt8

/-- The bytes of a text. -/
def encode (s : List Char) : Bytes := s.flatMap String.utf8EncodeChar

/-- The bytes of a string. -/
def bytesOf (s : String) : Bytes := encode s.toList

/-- How many bytes a text takes. -/
def byteSize (s : List Char) : Nat := (s.map Char.utf8Size).sum

/-- One step of reading bytes as text: a character, or a malformed piece. -/
inductive Piece where
  /-- A well-formed character and the number of bytes it takes. -/
  | char (c : Char) (size : Nat)
  /-- Bytes that start no well-formed character here. -/
  | malformed (size : Nat)
  /-- The start of a character that the end of the bytes cuts off. -/
  | truncated (size : Nat)
  deriving DecidableEq, Repr

/-- The bytes that may follow a leading byte, and how many there are in all.  The second byte is
restricted so that overlong forms, surrogates and code points above U+10FFFF never start. -/
def leading (b : UInt8) : Option (Nat × UInt8 × UInt8) :=
  if 0xC2 ≤ b ∧ b ≤ 0xDF then some (2, 0x80, 0xBF)
  else if b = 0xE0 then some (3, 0xA0, 0xBF)
  else if b = 0xED then some (3, 0x80, 0x9F)
  else if 0xE1 ≤ b ∧ b ≤ 0xEF then some (3, 0x80, 0xBF)
  else if b = 0xF0 then some (4, 0x90, 0xBF)
  else if 0xF1 ≤ b ∧ b ≤ 0xF3 then some (4, 0x80, 0xBF)
  else if b = 0xF4 then some (4, 0x80, 0x8F)
  else none

/-- Any byte that may stand third or fourth. -/
def isContinuation (b : UInt8) : Bool := 0x80 ≤ b && b ≤ 0xBF

/-- The six payload bits of a continuation byte. -/
def payload (b : UInt8) : Nat := b.toNat % 64

/-- The first piece of a non-empty sequence of bytes. -/
def firstPiece (b : UInt8) (rest : Bytes) : Piece :=
  if b < 0x80 then .char (Char.ofNat b.toNat) 1
  else
    match leading b with
    | none => .malformed 1
    | some (size, low, high) =>
      match rest with
      | [] => .truncated 1
      | b₂ :: rest₂ =>
        if b₂ < low ∨ high < b₂ then .malformed 1
        else if size = 2 then .char (Char.ofNat (b.toNat % 32 * 64 + payload b₂)) 2
        else
          match rest₂ with
          | [] => .truncated 2
          | b₃ :: rest₃ =>
            if !isContinuation b₃ then .malformed 2
            else if size = 3 then
              .char (Char.ofNat (b.toNat % 16 * 4096 + payload b₂ * 64 + payload b₃)) 3
            else
              match rest₃ with
              | [] => .truncated 3
              | b₄ :: _ =>
                if !isContinuation b₄ then .malformed 3
                else
                  .char (Char.ofNat (b.toNat % 8 * 262144 + payload b₂ * 4096 + payload b₃ * 64 +
                    payload b₄)) 4

/-- How a piece is read when every malformed piece is replaced. -/
def Piece.replaced : Piece → Char
  | .char c _ => c
  | .malformed _ | .truncated _ => '\uFFFD'

/-- The number of bytes of a piece. -/
def Piece.size : Piece → Nat
  | .char _ n | .malformed n | .truncated n => n

/-- Reads bytes as text; `skip` bytes of the piece read last are still to be passed over. -/
def decodeFrom (skip : Nat) : Bytes → List Char
  | [] => []
  | b :: rest =>
    match skip with
    | n + 1 => decodeFrom n rest
    | 0 =>
      let piece := firstPiece b rest
      piece.replaced :: decodeFrom (piece.size - 1) rest

/-- Reads bytes as text, with U+FFFD for every malformed piece. -/
def decodeLossy (bs : Bytes) : List Char := decodeFrom 0 bs

/-- Where and how a sequence of bytes stops being text. -/
structure Fault where
  /-- The number of well-formed bytes before the fault. -/
  index : Nat
  /-- The length of the malformed piece, or nothing if the end cuts off a character. -/
  size : Option Nat
  deriving DecidableEq, Repr

/-- The first fault at or after byte `index`; `skip` as in `decodeFrom`. -/
def faultFrom (index skip : Nat) : Bytes → Option Fault
  | [] => none
  | b :: rest =>
    match skip with
    | n + 1 => faultFrom (index + 1) n rest
    | 0 =>
      match firstPiece b rest with
      | .char _ size => faultFrom (index + 1) (size - 1) rest
      | .malformed size => some ⟨index, some size⟩
      | .truncated _ => some ⟨index, none⟩

/-- The first place where the bytes are not text. -/
def firstFault (bs : Bytes) : Option Fault := faultFrom 0 0 bs

/-- Reads well-formed text only. -/
def decode? (bs : Bytes) : Option (List Char) :=
  if (firstFault bs).isNone then some (decodeLossy bs) else none

/-- The wording of a fault. -/
def Fault.message (f : Fault) : String :=
  match f.size with
  | some size => s!"invalid utf-8 sequence of {size} bytes from index {f.index}"
  | none => s!"incomplete utf-8 byte sequence from index {f.index}"

/-- The string read from bytes, with U+FFFD for every malformed piece. -/
def stringLossy (bs : Bytes) : String := String.ofList (decodeLossy bs)

end Stencil.Text
