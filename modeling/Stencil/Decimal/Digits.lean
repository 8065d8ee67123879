import Stencil.Decimal.Binary64

/-!
# Decimal digits of binary numbers

Two ways to choose the digits of a positive finite number: `shortest` takes the fewest digits that
read back as the same number and the nearest among those, and `significant` rounds the exact value
to a given number of digits, a half to the even neighbour.
-/

namespace Stencil

-- powers as the core library has them, whatever else is imported
attribute [local instance (high)] instPowNat

/-- The decimal number `digits * 10 ^ exponent`. -/
structure Decimal where
  /-- The digits read as one whole number. -/
  digits : Nat
  /-- The power of ten of the last digit. -/
  exponent : Int
  deriving DecidableEq, Repr, Inhabited

namespace Decimal

/-- The digits of a whole number. -/
def numeral (n : Nat) : List Char := Nat.toDigits 10 n

/-- The digits as characters. -/
def text (d : Decimal) : List Char := numeral d.digits

/-- Where the point stands, counted from the left of the digits: the number is
`0.digits * 10 ^ point`. -/
def point (d : Decimal) : Int := d.text.length + d.exponent

/-- Removes one zero at the end. -/
def dropZero (d : Decimal) : Decimal := ⟨d.digits / 10, d.exponent + 1⟩

/-- Removes up to `n` zeros at the end. -/
def dropZeros : Nat → Decimal → Decimal
  | 0, d => d
  | n + 1, d => if d.digits % 10 = 0 ∧ d.digits ≠ 0 then dropZeros n d.dropZero else d

/-- The power `base ^ e` of either sign, as a numerator and a denominator. -/
def powRatio (base : Nat) (e : Int) : Nat × Nat :=
  if 0 ≤ e then (base ^ e.toNat, 1) else (1, base ^ (-e).toNat)

/-- For a positive quotient, the `k` with `10 ^ (k - 1) ≤ num / den < 10 ^ k`. -/
def magnitude (num den : Nat) : Int :=
  let k : Int := (numeral num).length - (numeral den).length
  let (p, q) := powRatio 10 k
  if num * q ≥ p * den then k + 1 else k

/-- A positive quotient rounded to `count` digits. -/
def significantRatio (count : Nat) (num den : Nat) : Decimal :=
  let e := magnitude num den - count
  let (p, q) := powRatio 10 e
  let digits := Binary64.divToEven (num * q) (den * p)
  if digits = 10 ^ count then ⟨10 ^ (count - 1), e + 1⟩ else ⟨digits, e⟩

/-- The exact magnitude of a finite number as a quotient. -/
def exactRatio (x : Binary64) : Nat × Nat :=
  let (p, q) := powRatio 2 x.exponent
  (x.significand * p, q)

/-- A finite number other than zero rounded to `count` digits; its sign is left out. -/
def significant (count : Nat) (x : Binary64) : Decimal :=
  let (num, den) := exactRatio x
  significantRatio count num den

/-- The numbers that round to a given one, in quarters of the unit of its last bit. -/
structure Interval where
  /-- The lower end. -/
  low : Nat
  /-- The number itself. -/
  middle : Nat
  /-- The upper end. -/
  high : Nat
  /-- Whether the ends round to the number too. -/
  closed : Bool
  deriving Repr

/-- The interval of reals that round to a finite number.  Below a power of two the neighbours are
twice as dense, so the lower half of the interval is half as wide. -/
def interval (x : Binary64) : Interval :=
  let m := x.significand
  { low := if x.fractionField = 0 ∧ x.exponentField > 1 then 4 * m - 1 else 4 * m - 2
    middle := 4 * m
    high := 4 * m + 2
    closed := m % 2 == 0 }

/-- Whether `candidate` units of `unit` lie in the interval, whose quarters are `quarter` units. -/
def Interval.contains (i : Interval) (candidate unit quarter : Nat) : Bool :=
  let c := candidate * unit
  let low := i.low * quarter
  let high := i.high * quarter
  if i.closed then low ≤ c && c ≤ high else low < c && c < high

/-- The numbers of `count` digits on either side of the middle: the nearer one that lies in the
interval, if any does. -/
def onGrid (i : Interval) (e : Int) (top : Int) (count : Nat) : Option Decimal :=
  let x := top - count
  let (p, q) := powRatio 10 x
  let (r, s) := powRatio 2 (e - 2)
  let unit := p * s
  let quarter := r * q
  let value := i.middle * quarter
  let down := value / unit
  let up := down + 1
  let lowGap := value - down * unit
  let highGap := up * unit - value
  let downFirst := if lowGap = highGap then down % 2 == 0 else decide (lowGap < highGap)
  let (near, far) := if downFirst then (down, up) else (up, down)
  if i.contains near unit quarter then some ⟨near, x⟩
  else if i.contains far unit quarter then some ⟨far, x⟩
  else none

/-- The first grid with a hit, from `count` digits on. -/
def firstOnGrid (i : Interval) (e : Int) (top : Int) : Nat → Nat → Option Decimal
  | 0, _ => none
  | n + 1, count =>
    match onGrid i e top count with
    | some d => some d
    | none => firstOnGrid i e top n (count + 1)

/-- The fewest digits that read back as the finite number `x`, which is not zero; its sign is left
out.  Seventeen digits are always enough. -/
def shortest (x : Binary64) : Decimal :=
  let (num, den) := exactRatio x
  match firstOnGrid (interval x) x.exponent (magnitude num den) 17 1 with
  | some d => dropZeros 20 d
  | none => dropZeros 20 (significantRatio 17 num den)

end Decimal

end Stencil
