import Stencil.Text.WidthRanges

/-!
# Display width

How many columns a text takes when it is shown in a fixed-width font.  A line feed takes none,
also together with a carriage return before it; any other control character takes one.  Emoji that
are joined, modified or given picture form take two columns together.
-/

namespace Stencil.Text

/-- What the characters read so far offer to the next one. -/
inductive WidthContext where
  /-- Nothing to join. -/
  | plain
  /-- An emoji; `base` if a skin tone may follow, `width` the columns it took. -/
  | emoji (base : Bool) (width : Nat)
  /-- An emoji and a joiner: the next emoji becomes part of the picture. -/
  | joined
  deriving DecidableEq, Repr

/-- The columns of a single character. -/
def charWidth (c : Char) : Nat :=
  let n := c.toNat
  if n ≤ 0xA0 then if c = '\n' then 0 else 1
  else if inRanges zeroWidthRanges n then 0
  else if inRanges wideRanges n then 2
  else 1

/-- The variation selector that asks for a picture. -/
def pictureSelector : Char := '\uFE0F'

/-- The variation selector that asks for a letter form. -/
def letterSelector : Char := '\uFE0E'

/-- The joiner of emoji sequences. -/
def joiner : Char := '\u200D'

/-- The five skin tones. -/
def isSkinTone (c : Char) : Bool := 0x1F3FB ≤ c.toNat && c.toNat ≤ 0x1F3FF

/-- Whether the character, with the one after it, is shown as a picture. -/
def isPicture (c : Char) (next : Option Char) : Bool :=
  (inRanges emojiPresentationRanges c.toNat && next != some letterSelector) ||
    (inRanges emojiRanges c.toNat && next == some pictureSelector) ||
    (inRanges modifierBaseRanges c.toNat && next.any isSkinTone)

/-- Whether the character is a picture that a letter selector turns into a letter. -/
def isLetterForm (c : Char) (next : Option Char) : Bool :=
  next == some letterSelector && inRanges emojiPresentationRanges c.toNat &&
    !(0x1F200 ≤ c.toNat && c.toNat ≤ 0x1F2FF)

/-- The columns of a character after `before` and before `next`, and the context it leaves. -/
def widthStep (before : WidthContext) (c : Char) (next : Option Char) : Nat × WidthContext :=
  if c = '\r' ∧ next = some '\n' then (0, .plain)
  else if isSkinTone c ∧ before matches .emoji true _ then
    match before with
    | .emoji _ width => (2 - width, .emoji false 2)
    | _ => (2, .emoji false 2)
  else if isPicture c next then
    let base := inRanges modifierBaseRanges c.toNat
    let width := if next = some pictureSelector then 2 else charWidth c
    if before = .joined then (0, .emoji base 2) else (width, .emoji base width)
  else if isLetterForm c next then (1, .plain)
  else if c = joiner ∧ before matches .emoji .. then (0, .joined)
  else if c = pictureSelector ∧ before matches .emoji .. then (0, before)
  else (charWidth c, .plain)

/-- The columns of a text that stands in a context. -/
def widthFrom (before : WidthContext) : List Char → Nat
  | [] => 0
  | c :: rest =>
    let (columns, after) := widthStep before c rest.head?
    columns + widthFrom after rest

/-- The columns of a text. -/
def width (s : List Char) : Nat := widthFrom .plain s

end Stencil.Text
