import Stencil.Decimal.Binary64

/-!
# Reading numbers

The two grammars of numbers that occur: numerals with an optional point and exponent, decimal or
hexadecimal, and the words for what has no numeral.  What is read is rounded to the nearest number
of 64 bits.
-/

namespace Stencil.Decimal

/-- The value of a hexadecimal digit. -/
def hexValue? (c : Char) : Option Nat :=
  let n := c.toNat
  if '0'.toNat ≤ n ∧ n ≤ '9'.toNat then some (n - '0'.toNat)
  else if 'a'.toNat ≤ n ∧ n ≤ 'f'.toNat then some (n - 'a'.toNat + 10)
  else if 'A'.toNat ≤ n ∧ n ≤ 'F'.toNat then some (n - 'A'.toNat + 10)
  else none

/-- The value of a digit in a base of at most sixteen. -/
def digitValue? (base : Nat) (c : Char) : Option Nat :=
  (hexValue? c).filter (· < base)

/-- Digits that have been read. -/
structure Run where
  /-- Their value as one whole number. -/
  value : Nat := 0
  /-- How many there are. -/
  count : Nat := 0
  deriving DecidableEq, Repr, Inhabited

/-- Reads digits, going on from `run`. -/
def readDigits (base : Nat) (run : Run) : List Char → Run × List Char
  | [] => (run, [])
  | c :: rest =>
    match digitValue? base c with
    | some d => readDigits base ⟨run.value * base + d, run.count + 1⟩ rest
    | none => (run, c :: rest)

/-- Reads a sign; no sign counts as plus. -/
def readSign : List Char → Bool × List Char
  | '-' :: rest => (true, rest)
  | '+' :: rest => (false, rest)
  | rest => (false, rest)

/-- Reads an exponent: a mark, a sign, and at least one digit.  Without all of them there is no
exponent, and nothing is read. -/
def readExponent (marks : List Char) (s : List Char) : Int × List Char :=
  match s with
  | c :: rest =>
    if marks.contains c then
      let (negative, digits) := readSign rest
      let (run, after) := readDigits 10 {} digits
      if run.count = 0 then (0, s)
      else (if negative then -(run.value : Int) else run.value, after)
    else (0, s)
  | [] => (0, s)

/-- A numeral without its sign. -/
structure Numeral where
  /-- All digits read as one whole number. -/
  digits : Nat
  /-- How many digits stand after the point. -/
  places : Nat
  /-- The exponent as written. -/
  exponent : Int
  /-- What follows the numeral. -/
  rest : List Char
  deriving Repr

/-- Reads digits with an optional point and exponent in a base; there has to be a digit. -/
def readNumeral (base : Nat) (marks : List Char) (s : List Char) : Option Numeral :=
  let (whole, afterWhole) := readDigits base {} s
  let (all, places, rest) :=
    match afterWhole with
    | '.' :: fraction =>
      let (all, rest) := readDigits base whole fraction
      if all.count = 0 then (all, 0, afterWhole) else (all, all.count - whole.count, rest)
    | _ => (whole, 0, afterWhole)
  if all.count = 0 then none
  else
    let (exponent, rest) := readExponent marks rest
    some ⟨all.value, places, exponent, rest⟩

/-- Reads a decimal numeral to the end of the text. -/
def readDecimal (negative : Bool) (s : List Char) : Option Binary64 :=
  match readNumeral 10 ['e', 'E'] s with
  | some ⟨digits, places, exponent, []⟩ =>
    some (.ofDecimal negative digits (exponent - places))
  | _ => none

/-- Reads what stands after the mark of a hexadecimal numeral to the end of the text: the exponent
is a power of two. -/
def readHexadecimal (negative : Bool) (s : List Char) : Option Binary64 :=
  match readNumeral 16 ['p', 'P'] s with
  | some ⟨digits, places, exponent, []⟩ =>
    some (.ofBinary negative digits (exponent - 4 * places))
  | _ => none

/-- Reads a number as data writes it: a decimal numeral with an optional sign, or one of the words
for the infinities and for NaN, in letters of either case. -/
def read (s : String) : Option Binary64 :=
  let (negative, body) := readSign s.toList
  let word := String.ofList (body.map Char.toLower)
  if word = "inf" ∨ word = "infinity" then some (.infinity negative)
  else if word = "nan" then some (if negative then Binary64.nan.neg else Binary64.nan)
  else readDecimal negative body

end Stencil.Decimal
