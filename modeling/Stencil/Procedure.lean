import Stencil.Event
import Stencil.Script.Grammar
import Stencil.Template.Chunk
import Stencil.Template.Reading

/-!
# Procedures

A procedure is a compiled template: the script that renders it.  Compiling reads the template, puts
its script together and checks that the script is well formed; a fault in the script is reported
under the name of the template, with a line of the script.
-/

namespace Stencil

open Text (Bytes bytesOf)

/-- A compiled template. -/
structure Procedure where
  /-- Where the template came from. -/
  origin : Option String
  /-- The script. -/
  chunk : String
  deriving DecidableEq, Repr

namespace Procedure

/-- The name of a script whose template has no origin. -/
def anonymous : String := "template"

/-- How many bytes of the name of a script messages show. -/
def maxName : Nat := 59

/-- The name of the script of a template in messages. -/
def scriptName (origin : Option String) : Bytes := (bytesOf (origin.getD anonymous)).take maxName

/-- A script cannot have a NUL in its name. -/
def checkName (origin : Option String) : Except Error Unit :=
  match (bytesOf (origin.getD anonymous)).findIdx? (· == 0) with
  | some i =>
    let why := s!"nul byte found in provided data at position: {i + 1}"
    .error (.eval ("runtime error: invalid name: " ++ why) false)
  | none => .ok ()

/-- What is reported of a script that is refused. -/
def refusal (origin : Option String) (r : Script.Refusal) : Error :=
  if r.fault = .tooDeep then .eval ("runtime error: " ++ Text.stringLossy r.message) false
  else
    let line := r.place.line
    .chunk ("syntax error: " ++
      Text.stringLossy (scriptName origin ++ bytesOf s!":{line}: " ++ r.message))

/-- The syntax tree of the script of a template. -/
def parse (origin : Option String) (chunk : String) : Except Error Script.Block := do
  checkName origin
  match Script.parse (bytesOf chunk) with
  | .ok body => return body
  | .error r => throw (refusal origin r)

/-- A procedure for a developer. -/
def debug (p : Procedure) : String :=
  let origin :=
    match p.origin with
    | some s => "Some(" ++ Text.quoted s ++ ")"
    | none => "None"
  "Procedure \x7b origin: " ++ origin ++ ", .. \x7d"

end Procedure

namespace Engine

open Template

/-- Compiles a template. -/
def compile (turns : Nat) (engine : Engine) (origin : Option String) (source : String) :
    Traced Procedure :=
  let first := Event.compiling source.utf8ByteSize origin
  let reading := Template.read turns engine origin source
  match reading.outcome with
  | .error stop => ⟨.error stop, reading.engine, first :: reading.events⟩
  | .ok instrs =>
    let text := Template.chunk instrs
    let events := first :: reading.events ++ [.assembled text]
    match Procedure.parse origin text with
    | .error e => ⟨.error (.error e), reading.engine, events⟩
    | .ok _ =>
      ⟨.ok ⟨origin, text⟩, reading.engine, events ++ [.compiled instrs.length origin]⟩

/-- Reads a template from a file and compiles it. -/
def compileFile (turns : Nat) (engine : Engine) (path : String) : Traced Procedure :=
  match engine.disk.read path with
  | .ok source => engine.compile turns (some path) source
  | .error fault =>
    ⟨.error (.error (.io ("failed to read template " ++ "`" ++ path ++ "`") fault.message)),
      engine, []⟩

end Engine

end Stencil
