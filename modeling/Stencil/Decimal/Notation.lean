import Stencil.Decimal.Digits

/-!
# Written forms of numbers

Three ways to write a number down, each fixed by the format that uses it: `general` rounds to a
number of significant digits, as scripts print floats; `Shortest` writes the fewest digits that
read back, positionally in a range of magnitudes and with an exponent outside it.
-/

namespace Stencil

namespace Decimal

/-- So many zeros. -/
def zeros (n : Nat) : List Char := List.replicate n '0'

/-- Digits with the point at `point`, and at least one digit on either side of it. -/
def positional (digits : List Char) (point : Int) : List Char :=
  if point ≤ 0 then ['0', '.'] ++ zeros (-point).toNat ++ digits
  else
    let whole := point.toNat
    if digits.length ≤ whole then digits ++ zeros (whole - digits.length) ++ ['.', '0']
    else digits.take whole ++ ['.'] ++ digits.drop whole

/-- Digits with the point after the first, and no point if there is only one. -/
def pointAfterFirst : List Char → List Char
  | [] => []
  | [d] => [d]
  | d :: rest => d :: '.' :: rest

/-- An integer with a minus sign if it is negative. -/
def signed (n : Int) : List Char :=
  if n < 0 then '-' :: numeral n.natAbs else numeral n.natAbs

/-- Digits with an exponent that carries a sign only if it is negative. -/
def scientific (digits : List Char) (point : Int) : List Char :=
  pointAfterFirst digits ++ ['e'] ++ signed (point - 1)

/-- An exponent with a sign and at least two digits. -/
def paddedExponent (n : Int) : List Char :=
  let digits := numeral n.natAbs
  (if n < 0 then '-' else '+') :: (zeros (2 - digits.length) ++ digits)

/-- Digits with the point at `point`, and no point after the last digit. -/
def positionalBare (digits : List Char) (point : Int) : List Char :=
  if point ≤ 0 then ['0', '.'] ++ zeros (-point).toNat ++ digits
  else
    let whole := point.toNat
    if digits.length ≤ whole then digits ++ zeros (whole - digits.length)
    else digits.take whole ++ ['.'] ++ digits.drop whole

/-- How a format writes the fewest digits that read back. -/
structure Shortest where
  /-- The least position of the point that is written positionally. -/
  minPoint : Int
  /-- The greatest position of the point that is written positionally. -/
  maxPoint : Int
  /-- The text of positive infinity. -/
  infinity : String
  /-- The text of what is not a number. -/
  nan : String

/-- A number in a format with the fewest digits. -/
def Shortest.write (format : Shortest) (x : Binary64) : String :=
  if x.isNaN then format.nan
  else
    let sign := if x.negative then "-" else ""
    if x.isInfinite then sign ++ format.infinity
    else if x.isZero then sign ++ "0.0"
    else
      let d := shortest x
      let text :=
        if format.minPoint ≤ d.point ∧ d.point ≤ format.maxPoint then positional d.text d.point
        else scientific d.text d.point
      sign ++ String.ofList text

/-- A number rounded to `count` significant digits, without zeros at the end.  An exponent is
written below `0.0001` and where the digits do not reach the point. -/
def general (count : Nat) (x : Binary64) : String :=
  let sign := if x.negative then "-" else ""
  if x.isNaN then sign ++ "nan"
  else if x.isInfinite then sign ++ "inf"
  else if x.isZero then sign ++ "0"
  else
    let rounded := significant count x
    let point := rounded.point
    let digits := (dropZeros count rounded).text
    let text :=
      if -4 < point ∧ point ≤ count then positionalBare digits point
      else pointAfterFirst digits ++ ['e'] ++ paddedExponent (point - 1)
    sign ++ String.ofList text

end Decimal

end Stencil
