import Stencil.Command

/-!
# The program

Reads what the command needs, runs it and prints what it answers.  The command is given the files
it has asked for so far; as long as it reports a file that it could not read, that file is read and
the command is run again.
-/

namespace Stencil.Main

open Include (Disk ReadFault)

/-- The files that have been read, by path. -/
abbrev Files := List (String × Except ReadFault String)

/-- The fault that an error of the system stands for. -/
def fault : IO.Error → ReadFault
  | .inappropriateType _ code _ => if code = 20 then .notDirectory else .isDirectory
  | _ => .notFound

/-- Reads a file. -/
def readFile (path : String) : IO (Except ReadFault String) := do
  if path.contains '\x00' then return .error .nulInName
  try
    let bytes ← IO.FS.readBinFile path
    match Text.decode? bytes.toList with
    | some text => return .ok (String.ofList text)
    | none => return .error .notText
  catch e => return .error (fault e)

/-- The disk that holds files. -/
def disk (files : Files) : Disk := ⟨fun path => (files.lookup path).getD (.error .notFound)⟩

/-- The files that a run has asked for in vain. -/
def missing (files : Files) (events : List Event) : List String :=
  events.filterMap fun
    | .unreadable path _ => if (files.lookup path).isSome then none else some path
    | _ => none

/-- Runs the command until it has all files it asks for. -/
partial def attempt (stdin : Text.Bytes) (args : List String) (files : Files) :
    IO Command.Result := do
  let result := Command.run .ample (disk files) stdin args
  match missing files result.events with
  | [] => return result
  | paths =>
    let more ← paths.mapM fun path => return (path, ← readFile path)
    attempt stdin args (more ++ files)

/-- The files that arguments name. -/
def named (r : Command.Request) : List String := r.data.toList ++ r.templates

/-- Prints what a run has done. -/
def conclude (verbose : Bool) (result : Command.Result) : IO UInt32 := do
  if verbose then
    for e in result.events do
      IO.eprintln (e.level.name ++ " " ++ e.message)
  IO.print result.output
  IO.eprint result.ending.report
  return UInt32.ofNat result.ending.code

/-- Runs the command with the files of the system. -/
def run (args : List String) : IO UInt32 := do
  match Command.read args with
  | .request r =>
    let stdin ←
      if r.templates.contains "-" then
        pure (← (← IO.getStdin).readBinToEnd).toList
      else pure []
    let files ← (named r).mapM fun path => return (path, ← readFile path)
    conclude r.verbose (← attempt stdin args files)
  | _ => conclude false (← attempt [] args [])

end Stencil.Main

/-- Runs the command. -/
def main (args : List String) : IO UInt32 := Stencil.Main.run args
