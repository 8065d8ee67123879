import Stencil.Proofs.Text.Offsets
import Stencil.Template.Scan

/-!
# Scanning by offsets

The scan of a template as it goes on in memory.  The template is one text that includes are put into,
the place that has been reached is an offset in bytes, and a stack holds what is being read, each entry
with the offset at which it started.  The lowest entry holds the text outside of tags.

Nothing here is in range by construction: the stack may be found empty, an offset may lie outside of the
text or inside a character, and an error may be reported about an empty template.  Each of these is a
misstep, and a scan that makes one is stopped by it.
-/

namespace Stencil.Template

open Include
open Stencil.Text (byteSize cut? slice?)

/-- What a scan must not do. -/
inductive Misstep where
  /-- The top of an empty stack is asked for. -/
  | emptyStack
  /-- An error is reported about an empty template. -/
  | emptySource
  /-- A text is cut where it has no boundary. -/
  | outOfRange
  deriving DecidableEq, Repr

/-- What is being read. -/
structure Entry where
  /-- The scope of a tag; there is none for the text outside of tags. -/
  scope : Option Scope
  /-- What has been read of it, the last character first. -/
  text : List Char
  /-- The offset at which it started. -/
  start : Nat

/-- A template that has been read up to an offset. -/
structure Cursor where
  /-- The template with its includes. -/
  source : List Char
  /-- The offset. -/
  offset : Nat := 0
  /-- What is being read, the innermost first. -/
  stack : List Entry
  /-- The instructions so far, the latest first. -/
  instrs : List Instr := []
  /-- The template that is being read, if it is known. -/
  origin : Option String := none
  /-- The resolvers of includes. -/
  engine : Engine
  /-- What has been reported, the latest first. -/
  events : List Event := []

/-- What comes of a part of a scan. -/
inductive Checked (α : Type) where
  /-- A result. -/
  | ok (a : α)
  /-- The template is wrong between two offsets. -/
  | fault (f : TagFault) (start stop : Nat) (c : Cursor)
  /-- The scan itself is wrong. -/
  | misstep (m : Misstep)

namespace Checked

/-- Goes on with a result. -/
def bind {α β : Type} (x : Checked α) (f : α → Checked β) : Checked β :=
  match x with
  | .ok a => f a
  | .fault f m n c => .fault f m n c
  | .misstep m => .misstep m

instance : Monad Checked where
  pure := .ok
  bind := bind

variable {α β : Type}

@[simp] theorem pure_eq (a : α) : (pure a : Checked α) = .ok a := rfl

@[simp] theorem ok_bind (a : α) (f : α → Checked β) : (Checked.ok a >>= f) = f a := rfl

@[simp] theorem fault_bind (t : TagFault) (m n : Nat) (c : Cursor) (f : α → Checked β) :
    (Checked.fault t m n c >>= f) = .fault t m n c := rfl

theorem bind_assoc {γ : Type} (x : Checked α) (f : α → Checked β) (g : β → Checked γ) :
    (x >>= f) >>= g = x >>= fun a => f a >>= g := by
  cases x <;> rfl

end Checked

namespace Cursor

/-- A cursor at the start of a template. -/
def start (engine : Engine) (origin : Option String) (source : String) : Cursor :=
  { source := source.toList, stack := [⟨none, [], 0⟩], origin := origin, engine := engine }

/-- The character at an offset. -/
def peek (c : Cursor) (i : Nat) : Option Char := (cut? c.source i).bind (·.2.head?)

/-- The innermost entry. -/
def top (c : Cursor) : Checked Entry :=
  match c.stack with
  | [] => .misstep .emptyStack
  | e :: _ => .ok e

/-- Collects a character in the innermost entry. -/
def collect (c : Cursor) (x : Char) : Checked Cursor :=
  match c.stack with
  | [] => .misstep .emptyStack
  | e :: rest => .ok { c with stack := { e with text := x :: e.text } :: rest }

/-- Adds an instruction. -/
def emit (c : Cursor) (i : Instr) : Cursor := { c with instrs := i :: c.instrs }

/-- An entry for the text outside of tags that starts here. -/
def fresh (c : Cursor) : Entry := ⟨none, [], c.offset⟩

/-- Takes the innermost entry from the stack, which gets a fresh one if nothing is left on it. -/
def take (c : Cursor) : Entry × Cursor :=
  match c.stack with
  | [] => (c.fresh, { c with stack := [c.fresh] })
  | [e] => (e, { c with stack := [c.fresh] })
  | e :: e' :: rest => (e, { c with stack := e' :: rest })

/-- Reports that the template is malformed. -/
def malformed {α : Type} (c : Cursor) (f : TagFault) (start stop : Nat) : Checked α :=
  if c.source.isEmpty then .misstep .emptySource else .fault f start stop c

/-- Puts the text of an include at the offset; the tag starts at another one. -/
def splice (c : Cursor) (path : String) (start : Nat) : Checked Cursor :=
  let (found, engine, events) := c.engine.resolve ⟨path, c.origin⟩
  let c := { c with engine := engine, events := events.reverse ++ c.events }
  match found with
  | some text =>
    let size := text.utf8ByteSize
    let c := { c with events := .splicing path c.origin size :: c.events }
    match cut? c.source c.offset with
    | some (read, rest) => .ok { c with source := read ++ text.toList ++ rest }
    | none => .misstep .outOfRange
  | none => .fault (.unresolved path) start (max c.offset start) c

/-- Takes the innermost entry from the stack and does what it says. -/
def pop (c : Cursor) : Checked Cursor :=
  let (e, c) := c.take
  let text := String.ofList (Text.trim e.text.reverse)
  match e.scope with
  | none =>
    if e.text.isEmpty then .ok c else .ok (c.emit (.raw (String.ofList e.text.reverse)))
  | some .tagName => .ok c
  | some (.header keyword) => .ok (c.emit (.start keyword text))
  | some .echoed => .ok (c.emit (.emit text))
  | some .statement => .ok (c.emit (.exec text))
  | some .includePath => c.splice text e.start
  | some .blockName =>
    if text.isEmpty then c.malformed .expectedBlockName e.start (max c.offset e.start)
    else .ok (c.emit (.openBlock text))
  | some (.ending tag) => .ok (c.emit tag.instr)

/-- Puts a tag on the stack; text before it is turned into an instruction. -/
def push (c : Cursor) (scope : Scope) (start : Nat) : Checked Cursor := do
  let e ← c.top
  let c ← if e.scope.isNone then c.pop else pure c
  pure { c with stack := ⟨some scope, [], start⟩ :: c.stack }

/-- The offset of a name that ends at an offset, if it stands there. -/
def nameStart? (c : Cursor) (name : List Char) (i : Nat) : Option Nat :=
  if byteSize name ≤ i ∧ slice? c.source (i - byteSize name) i = some name then
    some (i - byteSize name)
  else none

/-- Decides by its name what the innermost tag is; the name ends at an offset. -/
def dispatch (c : Cursor) (i : Nat) : Checked Cursor :=
  let (e, c) := c.take
  let name := Text.trim e.text.reverse
  match Scope.named? name with
  | some scope => c.push scope e.start
  | none => c.malformed (.unknownTag (String.ofList name)) ((c.nameStart? name i).getD e.start) i

/-- Refuses the character at an offset. -/
def refuse {α : Type} (c : Cursor) (i : Nat) (got : List Char) : Checked α :=
  match cut? c.source i with
  | some (_, rest) => c.malformed (.expectedEnd (String.ofList got)) i (i + byteSize (rest.take 1))
  | none => .misstep .outOfRange

/-- Goes to an offset. -/
def goTo (c : Cursor) (i : Nat) : Cursor := { c with offset := i }

/-- Collects a character and goes on after it. -/
def gather (c : Cursor) (x : Char) : Checked Cursor := do
  let c' ← c.collect x
  pure (c'.goTo (c.offset + x.utf8Size))

/-- Reads the two characters that open a tag, and the trim mark after them. -/
def readOpening (c : Cursor) (scope : Scope) : Checked Cursor := do
  let c ← (c.goTo (c.offset + 2)).push scope c.offset
  if c.peek c.offset = some '-' then pure ((c.goTo (c.offset + 1)).emit .trim) else pure c

/-- Reads a character that may close an expression or a statement together with a brace. -/
def readCloser (c : Cursor) (x : Char) (closed : Scope) : Checked Cursor := do
  let e ← c.top
  if e.scope.any Scope.isEnding then c.refuse c.offset [x]
  else if e.scope = some closed ∧ c.peek (c.offset + x.utf8Size) = some '\x7d' then
    (c.goTo (c.offset + 2)).pop
  else c.gather x

/-- Reads a percent sign: with a closing brace it ends a tag, or is text where no tag can end. -/
def readPercent (c : Cursor) : Checked Cursor := do
  let e ← c.top
  let next := c.peek (c.offset + 1)
  if next = some '\x7d' then
    let c' := c.goTo (c.offset + 2)
    if e.scope.all Scope.keepsPercent then do
      let c' ← c'.collect '%'
      c'.collect '\x7d'
    else if e.scope = some .tagName then do
      let c' ← c'.dispatch c.offset
      c'.pop
    else c'.pop
  else if e.scope.any Scope.isEnding then c.refuse c.offset ('%' :: next.toList)
  else c.gather '%'

/-- Reads any other character.  Blanks end the name of a tag and are not part of it. -/
def readPlain (c : Cursor) (x : Char) : Checked Cursor := do
  let e ← c.top
  let after := c.offset + x.utf8Size
  if e.scope = some .tagName ∧ Text.isBlank x then
    if (Text.trim e.text.reverse).isEmpty then pure (c.goTo after)
    else do
      let c ← c.dispatch c.offset
      pure (c.goTo after)
  else if e.scope.any Scope.isEnding then
    if Text.isBlank x then pure (c.goTo after) else c.refuse c.offset [x]
  else c.gather x

/-- Reads the character at the offset, which is `x`. -/
def step (c : Cursor) (x : Char) : Checked Cursor := do
  let e ← c.top
  match x with
  | '{' =>
    if e.scope.any Scope.isEnding then c.refuse c.offset [x]
    else
      match (c.peek (c.offset + x.utf8Size)).bind Scope.opening? with
      | some scope => c.readOpening scope
      | none => c.gather x
  | '$' => c.readCloser x .statement
  | '}' => c.readCloser x .echoed
  | '%' => c.readPercent
  | _ => c.readPlain x

/-- The end of the template: the innermost entry is taken off if it holds anything.  Tells whether an
include has left more to read. -/
def flush (c : Cursor) : Checked (Bool × Cursor) := do
  let e ← c.top
  if e.text.isEmpty ∧ !e.scope.any Scope.isEnding then pure (false, c)
  else do
    let size := byteSize c.source
    let c ← if e.scope = some .tagName then c.dispatch size else pure c
    let c ← c.pop
    pure (decide (size < byteSize c.source), c)

/-- One turn: the character at the offset, or the end.  Tells whether there is more to read. -/
def turn (c : Cursor) : Checked (Bool × Cursor) :=
  match c.peek c.offset with
  | some x => do
    let c ← c.step x
    pure (true, c)
  | none => c.flush

/-- Takes up to `turns` turns, and answers nothing if they are not enough. -/
def run : (turns : Nat) → Cursor → Option (Checked Cursor)
  | 0, _ => none
  | turns + 1, c =>
    match c.turn with
    | .ok (true, c) => run turns c
    | .ok (false, c) => some (.ok c)
    | .fault f m n c => some (.fault f m n c)
    | .misstep m => some (.misstep m)

end Cursor

end Stencil.Template
