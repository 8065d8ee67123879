import Stencil.Script.Value

/-!
# Ranges of numbers

The values that a loop over numbers goes through.  If the start and the step are integers, so are
all values, and how many there are is known before the loop starts; an end that is no integer is
rounded toward the start, and one that no integer reaches is as good as the last integer.
Otherwise all values are floats.
-/

namespace Stencil.Script

-- powers as the core library has them, whatever else is imported
attribute [local instance (high)] instPowNat

open Stencil.Text (Bytes bytesOf)

/-- The values of a loop over numbers. -/
inductive Range where
  /-- There are none. -/
  | empty
  /-- A first integer and so many more. -/
  | ints (first step : Int) (more : Nat)
  /-- Floats from a first one on, up to a limit. -/
  | floats (first limit step : Binary64)
  deriving DecidableEq, Repr

namespace Range

/-- Why a loop has no range. -/
inductive Fault where
  /-- A bound that is no number. -/
  | notNumber (what : String) (v : Value)
  /-- A step that goes nowhere. -/
  | zeroStep
  deriving DecidableEq, Repr

/-- The wording of a fault. -/
def Fault.message : Fault → String
  | .notNumber what v => "bad 'for' " ++ what ++ " (number expected, got " ++ v.typeName ++ ")"
  | .zeroStep => "'for' step is zero"

/-- A bound as a number. -/
def bound (what : String) (v : Value) : Except Fault Number :=
  match v.toNumber? with
  | some n => .ok n
  | none => .error (.notNumber what v)

/-- The greatest integer. -/
def maxInt : Int := 2 ^ (63 : Nat) - 1

/-- The least integer. -/
def minInt : Int := -2 ^ (63 : Nat)

/-- The last integer that a loop can reach, or nothing if it cannot start. -/
def lastInt? (stop : Number) (step : Int) : Option Int :=
  let clipped (up : Bool) : Option Int :=
    if up then (if step < 0 then none else some maxInt)
    else if step > 0 then none else some minInt
  match stop with
  | .int n => some n.toInt
  | .float x =>
    let up := (Binary64.zero false).lt x
    if x.isFinite then
      let n := if step < 0 then x.ceilInt else x.floorInt
      if Number.fits n then some n else clipped up
    else clipped up

/-- The integers from `first` to `last`. -/
def ofInts (first last step : Int) : Range :=
  if step > 0 then
    if last < first then .empty else .ints first step ((last - first) / step).toNat
  else if first < last then .empty
  else .ints first step ((first - last) / -step).toNat

/-- The floats from `first` to `limit`. -/
def ofFloats (first limit step : Binary64) : Except Fault Range :=
  let zero := Binary64.zero false
  if step.same zero then .error .zeroStep
  else if if zero.lt step then limit.lt first else first.lt limit then .ok .empty
  else .ok (.floats first limit step)

/-- The range of a loop. -/
def ofValues (start stop step : Value) : Except Fault Range :=
  match start, step with
  | .number (.int first), .number (.int step) =>
    if step = 0 then .error .zeroStep
    else
      (bound "limit" stop).map fun stop =>
        match lastInt? stop step.toInt with
        | some last => ofInts first.toInt last step.toInt
        | none => .empty
  | start, step => do
    let limit ← bound "limit" stop
    let step ← bound "step" step
    let first ← bound "initial value" start
    ofFloats first.toBinary64 limit.toBinary64 step.toBinary64

/-- The first value of a range. -/
def first? : Range → Option Number
  | .empty => none
  | .ints first _ _ => some (Number.int (Int64.ofInt first))
  | .floats first _ _ => some (.float first)

/-- The values after the first one. -/
def rest : Range → Range
  | .empty => .empty
  | .ints _ _ 0 => .empty
  | .ints first step (more + 1) => .ints (first + step) step more
  | .floats first limit step =>
    let next := first.add step
    if if (Binary64.zero false).lt step then next.le limit else limit.le next then
      .floats next limit step
    else .empty

end Range

end Stencil.Script
