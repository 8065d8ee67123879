import Stencil.Render

/-!
# Sinks

A sink takes bytes, a limited number of them at a time, and accepts a limited number of writes.
`Sink.writeAll` goes on writing until everything is written or the sink refuses; what has been
written is always a prefix of what was to be written.
-/

namespace Stencil

open Text (Bytes bytesOf)

/-- Something that bytes are written to. -/
structure Sink where
  /-- How many bytes one write takes at most. -/
  step : Option Nat
  /-- How many writes succeed. -/
  writes : Option Nat
  /-- What has been written. -/
  written : Bytes := []
  deriving DecidableEq, Repr

namespace Sink

/-- Why a sink does not take everything. -/
inductive Fault where
  /-- It accepts no more writes. -/
  | full
  /-- It took nothing. -/
  | stuck
  deriving DecidableEq, Repr

/-- The wording of a fault. -/
def Fault.message : Fault → String
  | .full => "writer is full"
  | .stuck => "failed to write whole buffer"

/-- One write of some bytes: how many are taken. -/
def write (s : Sink) (bs : Bytes) : Except Fault (Nat × Sink) :=
  let taken := min bs.length (s.step.getD bs.length)
  let after (writes : Option Nat) : Sink :=
    { s with writes := writes, written := s.written ++ bs.take taken }
  match s.writes with
  | some 0 => .error .full
  | some (n + 1) => .ok (taken, after (some n))
  | none => .ok (taken, after none)

/-- Writes bytes as long as the sink takes some; `turns` is more than there are bytes. -/
def writeFrom : (turns : Nat) → Sink → Bytes → Option Fault × Sink
  | 0, s, _ | _, s, [] => (none, s)
  | turns + 1, s, b :: bs =>
    match s.write (b :: bs) with
    | .error fault => (some fault, s)
    | .ok (0, s) => (some .stuck, s)
    | .ok (taken + 1, s) => writeFrom turns s (bs.drop taken)

/-- Writes all bytes. -/
def writeAll (s : Sink) (bs : Bytes) : Option Fault × Sink := writeFrom (bs.length + 1) s bs

end Sink

/-- Renders a procedure into a sink.  Nothing is written unless the whole text is known. -/
def Procedure.renderTo (fuel : Nat) (p : Procedure) (data options : Data.Value) (sink : Sink) :
    Outcome Unit × Sink :=
  match p.render fuel data options with
  | .error stop => (.error stop, sink)
  | .ok text =>
    match sink.writeAll (bytesOf text) with
    | (none, sink) => (.ok (), sink)
    | (some fault, sink) =>
      (.error (.error (.io "failed to write rendered template" fault.message)), sink)

end Stencil
