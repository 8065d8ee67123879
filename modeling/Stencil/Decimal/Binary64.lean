/-!
# Binary floating-point numbers

A number of 64 bits: a sign, an exponent of eleven bits and a fraction of 52.  It is kept as its
bits, so that equality of representations is decidable and the sign of a zero or of a not-a-number
is never lost.  Rounding (`ofRatio`), comparison, remainder and conversion to integers are exact
integer arithmetic; addition, multiplication, division and powers are those of the machine.
-/

namespace Stencil

-- powers as the core library has them, whatever else is imported
attribute [local instance (high)] instPowNat

/-- A binary floating-point number of 64 bits. -/
structure Binary64 where
  /-- Sign, exponent and fraction, from the highest bit down. -/
  bits : UInt64
  deriving DecidableEq, Repr, Inhabited

namespace Binary64

/-- The sign bit. -/
def negative (x : Binary64) : Bool := x.bits >>> 63 == 1

/-- The eleven bits of the exponent. -/
def exponentField (x : Binary64) : Nat := ((x.bits >>> 52) &&& 0x7FF).toNat

/-- The 52 bits of the fraction. -/
def fractionField (x : Binary64) : Nat := (x.bits &&& 0xFFFFFFFFFFFFF).toNat

/-- Not a number. -/
def isNaN (x : Binary64) : Bool := x.exponentField == 0x7FF && x.fractionField != 0

/-- One of the two infinities. -/
def isInfinite (x : Binary64) : Bool := x.exponentField == 0x7FF && x.fractionField == 0

/-- One of the two zeros. -/
def isZero (x : Binary64) : Bool := x.exponentField == 0 && x.fractionField == 0

/-- A finite number. -/
def isFinite (x : Binary64) : Bool := x.exponentField != 0x7FF

/-- The magnitude of a finite number is `significand * 2 ^ exponent`. -/
def significand (x : Binary64) : Nat :=
  if x.exponentField = 0 then x.fractionField else x.fractionField + 2 ^ (52 : Nat)

/-- The power of two of the last bit of the significand. -/
def exponent (x : Binary64) : Int :=
  if x.exponentField = 0 then -1074 else (x.exponentField : Int) - 1075

/-- The bits of a sign. -/
def signBits (negative : Bool) : UInt64 := if negative then 0x8000000000000000 else 0

/-- An infinity. -/
def infinity (negative : Bool) : Binary64 := ⟨signBits negative ||| 0x7FF0000000000000⟩

/-- A zero. -/
def zero (negative : Bool) : Binary64 := ⟨signBits negative⟩

/-- The not-a-number that data holds. -/
def nan : Binary64 := ⟨0x7FF8000000000000⟩

/-- The not-a-number that arithmetic makes out of numbers: its sign bit is set. -/
def undefined : Binary64 := ⟨0xFFF8000000000000⟩

/-- Puts a significand below `2 ^ (53 : Nat)` and its power of two together. -/
def assemble (negative : Bool) (significand : Nat) (exponent : Int) : Binary64 :=
  if significand < 2 ^ (52 : Nat) then ⟨signBits negative ||| UInt64.ofNat significand⟩
  else
    let field := (exponent + 1075).toNat
    if field ≥ 0x7FF then infinity negative
    else
      ⟨signBits negative |||
        UInt64.ofNat (field * 2 ^ (52 : Nat) + (significand - 2 ^ (52 : Nat)))⟩

/-- Division to the nearest whole number; a half goes to the even neighbour. -/
def divToEven (num den : Nat) : Nat :=
  let q := num / den
  let r := num % den
  if 2 * r < den then q else if 2 * r > den then q + 1 else q + q % 2

/-- `num / (den * 2 ^ e)` as a numerator and a denominator. -/
def scaleDown (num den : Nat) (e : Int) : Nat × Nat :=
  if 0 ≤ e then (num, den * 2 ^ e.toNat) else (num * 2 ^ (-e).toNat, den)

/-- The number nearest to a quotient, with an even significand if two are equally near. -/
def ofRatio (negative : Bool) (num den : Nat) : Binary64 :=
  if num = 0 then zero negative
  else
    let size : Int := (num.log2 : Int) - (den.log2 : Int)
    let low : Int := max (size - 53) (-1074)
    let (n₀, d₀) := scaleDown num den low
    let e := if n₀ / d₀ ≥ 2 ^ (53 : Nat) then low + 1 else low
    let (n, d) := scaleDown num den e
    let q := divToEven n d
    if q = 2 ^ (53 : Nat) then assemble negative (2 ^ (52 : Nat)) (e + 1) else assemble negative q e

/-- The number nearest to an integer. -/
def ofInt (n : Int) : Binary64 := ofRatio (n < 0) n.natAbs 1

/-- The number nearest to `digits * 10 ^ exponent`.  Far outside the range of the format the
answer is an infinity or a zero, and is given without computing the power. -/
def ofDecimal (negative : Bool) (digits : Nat) (exponent : Int) : Binary64 :=
  if digits = 0 then zero negative
  else
    let size : Int := (digits.log2 : Int) * 30103 / 100000 + exponent
    if size > 400 then infinity negative
    else if size < -400 then zero negative
    else if 0 ≤ exponent then ofRatio negative (digits * 10 ^ exponent.toNat) 1
    else ofRatio negative digits (10 ^ (-exponent).toNat)

/-- The number nearest to `digits * 2 ^ exponent`. -/
def ofBinary (negative : Bool) (digits : Nat) (exponent : Int) : Binary64 :=
  if digits = 0 then zero negative
  else
    let size : Int := (digits.log2 : Int) + exponent
    if size > 1100 then infinity negative
    else if size < -1200 then zero negative
    else if 0 ≤ exponent then ofRatio negative (digits * 2 ^ exponent.toNat) 1
    else ofRatio negative digits (2 ^ (-exponent).toNat)

/-- The number with the other sign. -/
def neg (x : Binary64) : Binary64 := ⟨x.bits ^^^ 0x8000000000000000⟩

/-- The number without its sign. -/
def abs (x : Binary64) : Binary64 := ⟨x.bits &&& 0x7FFFFFFFFFFFFFFF⟩

/-- Position on the number line of a number that is not NaN; the two zeros share theirs. -/
def rank (x : Binary64) : Int :=
  let magnitude : Int := (x.bits &&& 0x7FFFFFFFFFFFFFFF).toNat
  if x.negative then -magnitude else magnitude

/-- Numeric equality: NaN differs from everything, the two zeros are equal. -/
def same (x y : Binary64) : Bool := !x.isNaN && !y.isNaN && x.rank == y.rank

/-- Numeric order; NaN is unordered. -/
def lt (x y : Binary64) : Bool := !x.isNaN && !y.isNaN && x.rank < y.rank

/-- Numeric order or equality; NaN is unordered. -/
def le (x y : Binary64) : Bool := !x.isNaN && !y.isNaN && x.rank ≤ y.rank

/-- The greatest integer that is not above a finite number. -/
def floorInt (x : Binary64) : Int :=
  let magnitude : Int := x.significand
  let signed := if x.negative then -magnitude else magnitude
  if 0 ≤ x.exponent then signed * 2 ^ x.exponent.toNat
  else Int.fdiv signed (2 ^ (-x.exponent).toNat)

/-- The least integer that is not below a finite number. -/
def ceilInt (x : Binary64) : Int := -(x.neg.floorInt)

/-- The integer a number is equal to, if there is one. -/
def toInt? (x : Binary64) : Option Int :=
  if x.isFinite && x.floorInt == x.ceilInt then some x.floorInt else none

/-- The number rounded down to a whole number; a zero keeps its sign. -/
def floor (x : Binary64) : Binary64 :=
  if !x.isFinite || x.isZero then x
  else
    match x.toInt? with
    | some _ => x
    | none => ofInt x.floorInt

/-- The number of the machine with the same bits. -/
def toFloat (x : Binary64) : Float := Float.ofBits x.bits

/-- The outcome of an operation of the machine on `x` and `y`.  A NaN comes out as the first
operand that is one, or as `undefined`. -/
def ofMachine (x y : Binary64) (result : Float) : Binary64 :=
  if result.isNaN then
    if x.isNaN then x else if y.isNaN then y else undefined
  else ⟨result.toBits⟩

/-- The sum. -/
def add (x y : Binary64) : Binary64 := ofMachine x y (x.toFloat + y.toFloat)

/-- The difference. -/
def sub (x y : Binary64) : Binary64 := ofMachine x y (x.toFloat - y.toFloat)

/-- The product. -/
def mul (x y : Binary64) : Binary64 := ofMachine x y (x.toFloat * y.toFloat)

/-- The quotient. -/
def div (x y : Binary64) : Binary64 := ofMachine x y (x.toFloat / y.toFloat)

/-- The quotient rounded down to a whole number. -/
def floorDiv (x y : Binary64) : Binary64 := (x.div y).floor

/-- The power; a square is a product. -/
def pow (x y : Binary64) : Binary64 :=
  if y == ⟨0x4000000000000000⟩ then x.mul x
  else ofMachine x y (Float.pow x.toFloat y.toFloat)

/-- The exact remainder of a division toward zero, with the sign of the dividend. -/
def truncRem (x y : Binary64) : Binary64 :=
  if x.isNaN || y.isNaN || x.isInfinite || y.isZero then ofMachine x y (0.0 / 0.0)
  else if y.isInfinite then x
  else
    let e := min x.exponent y.exponent
    let a := x.significand * 2 ^ (x.exponent - e).toNat
    let b := y.significand * 2 ^ (y.exponent - e).toNat
    ofBinary x.negative (a % b) e

/-- The remainder of a division toward minus infinity, with the sign of the divisor. -/
def floorRem (x y : Binary64) : Binary64 :=
  let r := truncRem x y
  if r.isNaN || r.isZero then r
  else if r.negative != y.negative then r.add y
  else r

end Binary64

end Stencil
