import Stencil.Text.Blank

/-!
# The block tree

A running template writes into a tree of named blocks.  A name belongs to the block that is open
when it is used, so the same name under two parents denotes two blocks.  Opening a known name
empties the block and leaves it where it was first opened, unless the name carries the sign `+`,
which keeps the content.

Blocks are numbered in the order of their creation and refer to each other by number.
-/

namespace Stencil.Block

/-- The number of a block. -/
abbrev Id := Nat

/-- A piece of the content of a block. -/
inductive Entry where
  /-- Text. -/
  | literal (text : String)
  /-- The block of that number. -/
  | block (id : Id)
  deriving DecidableEq, Repr

/-- A block. -/
structure Node where
  /-- The block it was opened in. -/
  parent : Option Id
  /-- What it holds, the latest first. -/
  content : List Entry
  deriving DecidableEq, Repr

/-- The blocks of one run. -/
structure Tree where
  /-- The blocks, at their numbers. -/
  blocks : Array Node := #[]
  /-- The number that a name has within a block, or at the top. -/
  names : List ((Option Id × String) × Id) := []
  /-- The first block opened at the top. -/
  root : Option Id := none
  /-- The open block. -/
  current : Option Id := none
  deriving Repr

/-- The name of the block that every run starts in. -/
def rootName : String := "root"

/-- The sign before a name that keeps the content of the block. -/
def keepSign : Char := '+'

namespace Tree

/-- No block, nothing open. -/
def empty : Tree := {}

/-- A name without its sign, and whether it had one. -/
def splitSign (name : String) : Bool × String :=
  match name.toList with
  | c :: rest => if c = keepSign then (true, String.ofList rest) else (false, name)
  | [] => (false, name)

/-- The number of a name within `parent`. -/
def idOf? (t : Tree) (parent : Option Id) (name : String) : Option Id :=
  t.names.lookup (parent, name)

/-- Changes the content of a block. -/
def modifyContent (t : Tree) (id : Id) (f : List Entry → List Entry) : Tree :=
  { t with blocks := t.blocks.modify id fun b => { b with content := f b.content } }

/-- The number of a name within `parent`; the block is created on first use. -/
def enter (t : Tree) (parent : Option Id) (name : String) : Id × Tree :=
  match t.idOf? parent name with
  | some id => (id, t)
  | none =>
    let id := t.blocks.size
    (id, { t with
      blocks := t.blocks.push ⟨parent, []⟩
      names := ((parent, name), id) :: t.names })

/-- Refers to a block from its parent, at the end, unless the parent refers to it already.  A
block without a parent becomes the root if it is the first. -/
def attach (t : Tree) (parent : Option Id) (id : Id) : Tree :=
  match parent with
  | some p =>
    t.modifyContent p fun content =>
      if content.contains (.block id) then content else .block id :: content
  | none => { t with root := t.root.or (some id) }

/-- Opens a block within the open block and answers its number. -/
def openBlock (t : Tree) (name : String) : Id × Tree :=
  let (keep, bare) := splitSign name
  let parent := t.current
  let (id, t) := t.enter parent bare
  let t := if keep then t else t.modifyContent id fun _ => []
  (id, { t.attach parent id with current := some id })

/-- Closes the open block: its parent is open again.  A block without a parent stays open. -/
def close (t : Tree) : Tree :=
  match t.current.bind fun id => (t.blocks[id]?).bind Node.parent with
  | some parent => { t with current := some parent }
  | none => t

/-- The open block; the root is opened if none is. -/
def ensureOpen (t : Tree) : Id × Tree :=
  match t.current with
  | some id => (id, t)
  | none => t.openBlock rootName

/-- Writes text into the open block. -/
def append (t : Tree) (text : String) : Tree :=
  let (id, t) := t.ensureOpen
  t.modifyContent id (.literal text :: ·)

/-- Removes blanks at the end of a content: from its texts, back to one that keeps something, or
to a block. -/
def trimContent : List Entry → List Entry
  | .literal text :: rest =>
    match Text.trimEnd text.toList with
    | [] => .literal "" :: trimContent rest
    | kept => .literal (String.ofList kept) :: rest
  | content => content

/-- Removes the blanks that the open block ends with. -/
def trim (t : Tree) : Tree :=
  let (id, t) := t.ensureOpen
  t.modifyContent id trimContent

/-- The text of a block, looking at most `depth` blocks deep. -/
def renderTo (t : Tree) : (depth : Nat) → Id → List Char
  | 0, _ => []
  | depth + 1, id =>
    match t.blocks[id]? with
    | none => []
    | some b => b.content.reverse.flatMap fun
      | .literal text => text.toList
      | .block child => t.renderTo depth child

/-- The text of a block.  A block lies deeper than the blocks with smaller numbers only, so no
path is longer than the number of blocks. -/
def render (t : Tree) (id : Id) : String := String.ofList (t.renderTo t.blocks.size id)

/-- The text of the root. -/
def renderRoot (t : Tree) : String :=
  match t.root with
  | some id => t.render id
  | none => ""

end Tree

end Stencil.Block
