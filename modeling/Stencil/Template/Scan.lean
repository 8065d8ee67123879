import Stencil.Error
import Stencil.Include.Engine
import Stencil.Template.Tag
import Stencil.Text.Blank

/-!
# Scanning templates

A scan reads a template from left to right, one character at a time, and collects its
instructions.  What it keeps is split at the place it has reached: the text behind it, the text
ahead, and the tags that are open there.  An include tag puts the included text ahead of the scan,
so that it is read as if it had been written there.

Tags may stand inside tags.  Text outside every tag is collected in `raw`, and none is collected
while a tag is open.  At the end of the template the innermost open tag is closed and the tags
around it are forgotten.
-/

namespace Stencil.Template

open Include

/-- A template that has been read in part. -/
structure Scan where
  /-- What has been read, the last character first. -/
  behind : List Char := []
  /-- What is still to be read. -/
  ahead : List Char
  /-- The text outside every tag that no instruction holds yet, the last character first. -/
  raw : List Char := []
  /-- The open tags, the innermost first. -/
  tags : List OpenTag := []
  /-- The instructions so far, the latest first. -/
  instrs : List Instr := []
  /-- The template that is being read, if it is known. -/
  origin : Option String := none
  /-- The resolvers of includes. -/
  engine : Engine
  /-- What has been reported, the latest first. -/
  events : List Event := []

/-- What comes of reading on. -/
inductive Progress where
  /-- There is more to read. -/
  | more (s : Scan)
  /-- The template ends here. -/
  | done (s : Scan)
  /-- The template is wrong. -/
  | fault (f : TagFault) (place : Place) (s : Scan)

namespace Scan

/-- The scope of the innermost open tag. -/
def scope? (s : Scan) : Option Scope := s.tags.head?.map (·.scope)

/-- The whole template, with its includes in place. -/
def expanded (s : Scan) : List Char := s.behind.reverse ++ s.ahead

/-- Moves characters from ahead to behind. -/
def advance (s : Scan) : Nat → Scan
  | 0 => s
  | n + 1 =>
    match s.ahead with
    | [] => s
    | c :: rest => advance { s with behind := c :: s.behind, ahead := rest } n

/-- Adds an instruction. -/
def emit (s : Scan) (i : Instr) : Scan := { s with instrs := i :: s.instrs }

/-- Collects a character in the innermost tag, or as text. -/
def collect (s : Scan) (c : Char) : Scan :=
  match s.tags with
  | [] => { s with raw := c :: s.raw }
  | t :: rest => { s with tags := { t with text := c :: t.text } :: rest }

/-- Turns the text outside of tags into an instruction. -/
def flushRaw (s : Scan) : Scan :=
  match s.raw with
  | [] => s
  | raw => { s.emit (.raw (String.ofList raw.reverse)) with raw := [] }

/-- Opens a tag; text before it is turned into an instruction. -/
def openTag (s : Scan) (scope : Scope) (before : List Char) : Scan :=
  let s := if s.tags.isEmpty then s.flushRaw else s
  { s with tags := ⟨scope, [], before⟩ :: s.tags }

/-- The place between two positions; each is given by what lies behind it. -/
def between (s : Scan) (before upTo : List Char) : Place :=
  let marked := (upTo.take (upTo.length - before.length)).reverse
  { before := before.reverse
    marked := marked
    after := s.expanded.drop (before.length + marked.length) }

/-- The place from the start of a tag to where the scan is. -/
def sinceTag (s : Scan) (t : OpenTag) : Place := s.between t.before s.behind

/-- The place of a name that ends where `upTo` does; if the name was not written in one piece, the
place starts with its tag. -/
def nameBefore (s : Scan) (t : OpenTag) (name upTo : List Char) : Place :=
  let before := if name.reverse.isPrefixOf upTo then upTo.drop name.length else t.before
  s.between before upTo

/-- The place of the next character. -/
def nextChar (s : Scan) : Place :=
  ⟨s.behind.reverse, s.ahead.take 1, s.ahead.drop 1⟩

/-- Decides by its name what the innermost tag is; the name ends where `upTo` does. -/
def nameTag (s : Scan) (t : OpenTag) (rest : List OpenTag) (upTo : List Char) : Progress :=
  let name := Text.trim t.text.reverse
  let s := { s with tags := rest }
  match Scope.named? name with
  | some scope => .more (s.openTag scope t.before)
  | none => .fault (.unknownTag (String.ofList name)) (s.nameBefore t name upTo) s

/-- Puts the text of an include ahead. -/
def splice (s : Scan) (t : OpenTag) (path : String) : Progress :=
  let (found, engine, events) := s.engine.resolve ⟨path, s.origin⟩
  let s := { s with engine := engine, events := events.reverse ++ s.events }
  match found with
  | some text =>
    let size := text.utf8ByteSize
    .more { s with
      ahead := text.toList ++ s.ahead
      events := .splicing path s.origin size :: s.events }
  | none => .fault (.unresolved path) (s.sinceTag t) s

/-- Closes the innermost tag and does what it says. -/
def closeTag (s : Scan) (t : OpenTag) (rest : List OpenTag) : Progress :=
  let text := String.ofList (Text.trim t.text.reverse)
  let s := { s with tags := rest }
  match t.scope with
  | .tagName => .more s
  | .header keyword => .more (s.emit (.start keyword text))
  | .echoed => .more (s.emit (.emit text))
  | .statement => .more (s.emit (.exec text))
  | .includePath => s.splice t text
  | .blockName =>
    if text.isEmpty then .fault .expectedBlockName (s.sinceTag t) s
    else .more (s.emit (.openBlock text))
  | .ending tag => .more (s.emit tag.instr)

/-- Ends the innermost tag at its closing mark.  A tag of which only the name has been read is
first told by it; the name ends where `upTo` does. -/
def endTag (s : Scan) (t : OpenTag) (rest : List OpenTag) (upTo : List Char) : Progress :=
  if t.scope = .tagName then
    match s.nameTag t rest upTo with
    | .more s =>
      match s.tags with
      | [] => .more s
      | t :: rest => s.closeTag t rest
    | stopped => stopped
  else s.closeTag t rest

/-- Reads the two characters that open a tag, and the trim mark after them. -/
def readOpening (s : Scan) (scope : Scope) : Progress :=
  let s := (s.openTag scope s.behind).advance 2
  if s.ahead.head? = some '-' then .more ((s.advance 1).emit .trim) else .more s

/-- Refuses the next character inside an end tag. -/
def refuse (s : Scan) (got : List Char) : Progress :=
  .fault (.expectedEnd (String.ofList got)) s.nextChar s

/-- Reads a character that may close an expression or a statement together with a brace. -/
def readCloser (s : Scan) (c : Char) (closed : Scope) : Progress :=
  match s.tags with
  | [] => .more ((s.collect c).advance 1)
  | t :: rest =>
    if t.scope.isEnding then s.refuse [c]
    else if t.scope = closed ∧ (s.ahead.drop 1).head? = some '\x7d' then
      (s.advance 2).closeTag t rest
    else .more ((s.collect c).advance 1)

/-- Reads a percent sign: with a closing brace it ends a tag, or is text where no tag can end. -/
def readPercent (s : Scan) : Progress :=
  let next := (s.ahead.drop 1).head?
  match s.tags with
  | [] =>
    if next = some '\x7d' then .more (((s.collect '%').collect '\x7d').advance 2)
    else .more ((s.collect '%').advance 1)
  | t :: rest =>
    if next = some '\x7d' then
      if t.scope.keepsPercent then .more (((s.collect '%').collect '\x7d').advance 2)
      else (s.advance 2).endTag t rest s.behind
    else if t.scope.isEnding then s.refuse ('%' :: next.toList)
    else .more ((s.collect '%').advance 1)

/-- Reads any other character.  Blanks end the name of a tag and are not part of it. -/
def readPlain (s : Scan) (c : Char) : Progress :=
  match s.tags with
  | [] => .more ((s.collect c).advance 1)
  | t :: rest =>
    if t.scope = .tagName ∧ Text.isBlank c then
      if (Text.trim t.text.reverse).isEmpty then .more (s.advance 1)
      else
        match s.nameTag t rest s.behind with
        | .more s => .more (s.advance 1)
        | stopped => stopped
    else if t.scope.isEnding then
      if Text.isBlank c then .more (s.advance 1) else s.refuse [c]
    else .more ((s.collect c).advance 1)

/-- Reads the next character, which is `c`. -/
def step (s : Scan) (c : Char) : Progress :=
  match c with
  | '{' =>
    if s.scope?.any Scope.isEnding then s.refuse [c]
    else
      match (s.ahead.drop 1).head?.bind Scope.opening? with
      | some scope => s.readOpening scope
      | none => .more ((s.collect c).advance 1)
  | '$' => s.readCloser c .statement
  | '}' => s.readCloser c .echoed
  | '%' => s.readPercent
  | _ => s.readPlain c

/-- The end of the template: text is turned into an instruction, and the innermost tag is closed
if it holds anything.  Only an include leaves more to read. -/
def flush (s : Scan) : Progress :=
  match s.tags with
  | [] => .done s.flushRaw
  | t :: rest =>
    if t.text.isEmpty ∧ !t.scope.isEnding then .done s
    else
      match s.endTag t rest s.behind with
      | .more s => if s.ahead.isEmpty then .done s else .more s
      | stopped => stopped

/-- One turn: the next character, or the end. -/
def turn (s : Scan) : Progress :=
  match s.ahead with
  | [] => s.flush
  | c :: _ => s.step c

/-- A scan at the start of a template. -/
def start (engine : Engine) (origin : Option String) (source : String) : Scan :=
  { ahead := source.toList, origin := origin, engine := engine }

/-- Takes up to `turns` turns, and answers nothing if they are not enough. -/
def run : (turns : Nat) → Scan → Option Progress
  | 0, _ => none
  | turns + 1, s =>
    match s.turn with
    | .more s => run turns s
    | stopped => some stopped

/-- The instructions so far, in order. -/
def instructions (s : Scan) : List Instr := s.instrs.reverse

end Scan

end Stencil.Template
