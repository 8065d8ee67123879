import Stencil.Data.Json
import Stencil.Render

/-!
# The command line

The command compiles templates and prints their scripts, or renders them with data from a file.
Here it is a function: from its arguments, the files and the standard input to what it prints and
how it ends.  The templates are taken in order, and the first one that fails ends the command; what
the ones before it have printed stays.
-/

namespace Stencil.Command

open Include (Disk)

/-! ### Arguments -/

/-- What the arguments ask for. -/
structure Request where
  /-- Report what is done. -/
  verbose : Bool := false
  /-- Render, and do not print scripts. -/
  render : Bool := false
  /-- The file with the data. -/
  data : Option String := none
  /-- The templates, the latest first. -/
  files : List String := []
  deriving DecidableEq, Repr

/-- What arguments mean. -/
inductive Meaning where
  /-- Something to be done. -/
  | request (r : Request)
  /-- The help text. -/
  | help
  /-- Nothing. -/
  | misuse
  deriving DecidableEq, Repr

namespace Request

/-- Sets an option that may be given once. -/
def setVerbose (r : Request) : Option Request :=
  if r.verbose then none else some { r with verbose := true }

/-- Sets an option that may be given once. -/
def setRender (r : Request) : Option Request :=
  if r.render then none else some { r with render := true }

/-- Sets an option that may be given once and has to have a value. -/
def setData (r : Request) (path : String) : Option Request :=
  if r.data.isSome || path.isEmpty then none else some { r with data := some path }

/-- Adds a template. -/
def addFile (r : Request) (path : String) : Option Request :=
  if path.isEmpty then none else some { r with files := path :: r.files }

/-- The templates in order; the standard input if there are none. -/
def templates (r : Request) : List String :=
  if r.files.isEmpty then ["-"] else r.files.reverse

end Request

/-- Adds the arguments after `--`: all of them are templates. -/
def addFiles (r : Request) : List String → Meaning
  | [] => .request r
  | path :: rest =>
    match r.addFile path with
    | some r => addFiles r rest
    | none => .misuse

/-- Reads options of one letter that stand together. -/
def letters (r : Request) : List Char → Option Meaning
  | [] => some (.request r)
  | 'h' :: _ => some .help
  | 'v' :: rest => r.setVerbose.bind fun r => letters r rest
  | _ => none

/-- Whether an argument is an option and not a value. -/
def isOption (arg : String) : Bool := arg.startsWith "-" && arg != "-"

/-- Reads arguments from left to right. -/
def readFrom (r : Request) : List String → Meaning
  | [] => .request r
  | "--" :: rest => addFiles r rest
  | "--help" :: _ => .help
  | "--verbose" :: rest =>
    match r.setVerbose with
    | some r => readFrom r rest
    | none => .misuse
  | "--render" :: rest =>
    match r.setRender with
    | some r => readFrom r rest
    | none => .misuse
  | ["--data"] => .misuse
  | "--data" :: path :: rest =>
    if isOption path then .misuse
    else
      match r.setData path with
      | some r => readFrom r rest
      | none => .misuse
  | arg :: rest =>
    if arg.startsWith "--data=" then
      match r.setData (arg.drop 7).toString with
      | some r => readFrom r rest
      | none => .misuse
    else if arg.startsWith "--" then .misuse
    else if isOption arg then
      match letters r (arg.toList.drop 1) with
      | some (.request r) => readFrom r rest
      | some meaning => meaning
      | none => .misuse
    else
      match r.addFile arg with
      | some r => readFrom r rest
      | none => .misuse

/-- What arguments mean. -/
def read (args : List String) : Meaning := readFrom {} args

/-- The help text. -/
def helpText : String :=
  "Compile templates into Lua render procedures\n\n" ++
  "Usage: fmpl [OPTIONS] [FILE]...\n\n" ++
  "Arguments:\n" ++
  "  [FILE]...  Template files to compile, `-` or nothing reads from stdin\n\n" ++
  "Options:\n" ++
  "  -v, --verbose      Log compilation details to stderr\n" ++
  "      --render       Print the rendered output instead of the generated Lua\n" ++
  "      --data <FILE>  JSON file with the data to render with, implies --render\n" ++
  "  -h, --help         Print help\n"

/-! ### Running -/

/-- How the command ends. -/
inductive Ending where
  /-- Everything is done. -/
  | done
  /-- A template or the data failed; the report goes to the standard error. -/
  | failed (report : String)
  /-- The arguments mean nothing. -/
  | misused
  /-- The budget is used up. -/
  | exhausted
  deriving DecidableEq, Repr

/-- The exit code. -/
def Ending.code : Ending → Nat
  | .done => 0
  | .failed _ | .exhausted => 1
  | .misused => 2

/-- What goes to the standard error. -/
def Ending.report : Ending → String
  | .failed report => report
  | .done | .misused | .exhausted => ""

/-- What the command did. -/
structure Result where
  /-- What it printed. -/
  output : String
  /-- How it ended. -/
  ending : Ending
  /-- What was reported on the way. -/
  events : List Event := []

/-- The report of an error: with its place, if it has one, or with its causes.  A trace of calls is
not part of it, and neither is the end of the line before such a trace. -/
def report (e : Error) : String :=
  match e with
  | .tag .. => "error: " ++ e.pretty ++ "\n"
  | .chunk message | .eval message false => "error: " ++ message ++ ": " ++ message ++ "\n"
  | .io _ cause => "error: " ++ e.display ++ ": " ++ cause ++ "\n"
  | .eval message true => "error: " ++ message

/-- The data of a request, or the report of what is wrong with it; an empty map if there is none. -/
def dataOf (disk : Disk) (path : Option String) : Except String Data.Value :=
  match path with
  | none => .ok .default
  | some path =>
    let named (what : String) : String := "error: failed to " ++ what ++ " data `" ++ path ++ "`: "
    match disk.read path with
    | .error fault => .error (named "read" ++ fault.message ++ "\n")
    | .ok text =>
      match Data.Json.read (Text.bytesOf text) with
      | .error fault => .error (named "parse" ++ fault.message ++ "\n")
      | .ok v => .ok v

/-- What a template prints: its script, or its text if there is data to render it with. -/
def printed (fuel : Nat) (data : Option Data.Value) (p : Procedure) : Outcome String :=
  match data with
  | some data => p.render fuel data Procedure.noOptions
  | none => .ok p.chunk

/-- The report of a standard input that is not text. -/
def inputReport : String :=
  "error: failed to read stdin: " ++ Include.ReadFault.notText.message ++ "\n"

/-- Compiles the template that a path names, or the one on the standard input. -/
def compile (turns : Nat) (engine : Engine) (stdin : Text.Bytes) (path : String) :
    Except String (Template.Traced Procedure) :=
  if path = "-" then
    match Text.decode? stdin with
    | some source => .ok (engine.compile turns none (String.ofList source))
    | none => .error inputReport
  else .ok (engine.compileFile turns path)

/-- Takes the templates in order.  The standard input is read once. -/
def runAll (budget : Budget) (engine : Engine) (data : Option Data.Value) (stdin : Text.Bytes)
    (output : String) (events : List Event) : List String → Result
  | [] => ⟨output, .done, events⟩
  | path :: rest =>
    match compile budget.turns engine stdin path with
    | .error report => ⟨output, .failed report, events⟩
    | .ok compiled =>
      let events := events ++ compiled.events
      match compiled.outcome.bind (printed budget.fuel data) with
      | .ok text =>
        runAll budget compiled.engine data (if path = "-" then [] else stdin) (output ++ text)
          events rest
      | .error (.error e) => ⟨output, .failed (report e), events⟩
      | .error .exhausted => ⟨output, .exhausted, events⟩

/-- Does what a request asks for. -/
def perform (budget : Budget) (disk : Disk) (stdin : Text.Bytes) (r : Request) : Result :=
  match dataOf disk r.data with
  | .error report => ⟨"", .failed report, []⟩
  | .ok data =>
    let data := if r.render || r.data.isSome then some data else none
    runAll budget (Engine.new disk) data stdin "" [] r.templates

/-- Runs the command. -/
def run (budget : Budget) (disk : Disk) (stdin : Text.Bytes) (args : List String) : Result :=
  match read args with
  | .request r => perform budget disk stdin r
  | .help => ⟨helpText, .done, []⟩
  | .misuse => ⟨"", .misused, []⟩

end Stencil.Command
