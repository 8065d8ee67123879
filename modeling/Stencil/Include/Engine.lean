import Stencil.Include.Resolver

/-!
# The engine

An engine holds the resolvers that include tags are looked up with.  They are asked in the order
in which they were added, the default resolver last, and the first answer that is not empty wins;
nobody after the winner is asked.
-/

namespace Stencil

open Include

/-- The resolvers of includes, and the disk that they read. -/
structure Engine where
  /-- Where files are read. -/
  disk : Disk := Disk.empty
  /-- The resolvers that have been added, in order. -/
  added : List Resolver := []
  /-- The resolver that is asked last. -/
  fallback : Option Resolver := some .files

namespace Engine

/-- An engine that reads includes from files only. -/
def new (disk : Disk) : Engine := { disk := disk }

/-- Adds a resolver after those already there. -/
def addResolver (e : Engine) (r : Resolver) : Engine := { e with added := e.added ++ [r] }

/-- Replaces the resolver that is asked last. -/
def setDefault (e : Engine) (r : Resolver) : Engine := { e with fallback := some r }

/-- Removes the resolver that is asked last. -/
def clearDefault (e : Engine) : Engine := { e with fallback := none }

/-- Puts a question to resolvers in order until one answers with a text that is not empty. -/
def askInOrder (disk : Disk) (a : Ask) :
    List Resolver → Option String × List Resolver × List Event
  | [] => (none, [], [])
  | r :: rest =>
    let (answer, r, events) := r.ask disk a
    match answer.filter (!·.isEmpty) with
    | some text => (some text, r :: rest, events)
    | none =>
      let (found, rest, more) := askInOrder disk a rest
      (found, r :: rest, events ++ more)

/-- The text of an include, the engine as it is afterwards, and what was reported. -/
def resolve (e : Engine) (a : Ask) : Option String × Engine × List Event :=
  let (found, added, events) := askInOrder e.disk a e.added
  match found with
  | some text => (some text, { e with added := added }, events)
  | none =>
    let (found, last, more) := askInOrder e.disk a e.fallback.toList
    (found, { e with added := added, fallback := last.head? }, events ++ more)

/-- An engine for a developer. -/
def debug (e : Engine) : String :=
  let count := toString e.added.length
  let last := if e.fallback.isSome then "true" else "false"
  "Engine \x7b resolvers: " ++ count ++ ", default_resolver: " ++ last ++ " \x7d"

end Engine

end Stencil
