import Stencil.Block.Tree
import Stencil.Command
import Stencil.Data.Json
import Stencil.Data.Value
import Stencil.Data.Written
import Stencil.Decimal.Binary64
import Stencil.Decimal.Digits
import Stencil.Decimal.Notation
import Stencil.Decimal.Numeral
import Stencil.Error
import Stencil.Event
import Stencil.Include.Disk
import Stencil.Include.Engine
import Stencil.Include.FileTree
import Stencil.Include.Path
import Stencil.Include.Resolver
import Stencil.Main
import Stencil.Outcome
import Stencil.Place
import Stencil.Procedure
import Stencil.Proofs.Block.Balanced
import Stencil.Proofs.Block.Frame
import Stencil.Proofs.Block.Joined
import Stencil.Proofs.Block.Linked
import Stencil.Proofs.Block.Outline
import Stencil.Proofs.Block.Refilled
import Stencil.Proofs.Block.Siblings
import Stencil.Proofs.Block.Slots
import Stencil.Proofs.Block.Trimmed
import Stencil.Proofs.Block.Walk
import Stencil.Proofs.Data.Distinct
import Stencil.Proofs.Include.Answers
import Stencil.Proofs.Include.Chain
import Stencil.Proofs.Include.Forget
import Stencil.Proofs.Include.History
import Stencil.Proofs.Include.Lookup
import Stencil.Proofs.Include.Paths
import Stencil.Proofs.Output.Arguments
import Stencil.Proofs.Output.Carets
import Stencil.Proofs.Output.Commands
import Stencil.Proofs.Output.Sinks
import Stencil.Proofs.Script.Alone
import Stencil.Proofs.Script.Assignments
import Stencil.Proofs.Script.Complete
import Stencil.Proofs.Script.Constants
import Stencil.Proofs.Script.Ends
import Stencil.Proofs.Script.Indexed
import Stencil.Proofs.Script.Layers
import Stencil.Proofs.Script.LineEnd
import Stencil.Proofs.Script.Loaded
import Stencil.Proofs.Script.Mirror
import Stencil.Proofs.Script.Mirrored
import Stencil.Proofs.Script.Names
import Stencil.Proofs.Script.Numerals
import Stencil.Proofs.Script.Paired
import Stencil.Proofs.Script.Reads
import Stencil.Proofs.Script.Returns
import Stencil.Proofs.Script.Runs
import Stencil.Proofs.Script.Spelling
import Stencil.Proofs.Script.Started
import Stencil.Proofs.Script.Statements
import Stencil.Proofs.Script.Steps
import Stencil.Proofs.Script.Surroundings
import Stencil.Proofs.Script.Unlined
import Stencil.Proofs.Script.Walks
import Stencil.Proofs.Script.Whole
import Stencil.Proofs.Template.Accepted
import Stencil.Proofs.Template.Acts
import Stencil.Proofs.Template.Alike
import Stencil.Proofs.Template.Bare
import Stencil.Proofs.Template.BlockNames
import Stencil.Proofs.Template.Bounds
import Stencil.Proofs.Template.Built
import Stencil.Proofs.Template.Calls
import Stencil.Proofs.Template.Closing
import Stencil.Proofs.Template.Code
import Stencil.Proofs.Template.Compiled
import Stencil.Proofs.Template.Context
import Stencil.Proofs.Template.Cursor
import Stencil.Proofs.Template.Deeds
import Stencil.Proofs.Template.Endings
import Stencil.Proofs.Template.Finite
import Stencil.Proofs.Template.InRange
import Stencil.Proofs.Template.Instructions
import Stencil.Proofs.Template.Lexed
import Stencil.Proofs.Template.Listed
import Stencil.Proofs.Template.Moves
import Stencil.Proofs.Template.Nesting
import Stencil.Proofs.Template.Opened
import Stencil.Proofs.Template.Pasted
import Stencil.Proofs.Template.Performed
import Stencil.Proofs.Template.Pieces
import Stencil.Proofs.Template.Plain
import Stencil.Proofs.Template.Printed
import Stencil.Proofs.Template.Program
import Stencil.Proofs.Template.Quoting
import Stencil.Proofs.Template.Refused
import Stencil.Proofs.Template.Rendered
import Stencil.Proofs.Template.Reported
import Stencil.Proofs.Template.Resolved
import Stencil.Proofs.Template.Returned
import Stencil.Proofs.Template.Sound
import Stencil.Proofs.Template.Splices
import Stencil.Proofs.Template.Tags
import Stencil.Proofs.Template.Turns
import Stencil.Proofs.Template.Verbatim
import Stencil.Proofs.Text.Decoded
import Stencil.Proofs.Text.Offsets
import Stencil.Render
import Stencil.Script.Arithmetic
import Stencil.Script.Evaluate
import Stencil.Script.Evaluator
import Stencil.Script.Execute
import Stencil.Script.Globals
import Stencil.Script.Grammar
import Stencil.Script.Lexeme
import Stencil.Script.Library
import Stencil.Script.Machine
import Stencil.Script.Number
import Stencil.Script.Range
import Stencil.Script.Scope
import Stencil.Script.Syntax
import Stencil.Script.Table
import Stencil.Script.Token
import Stencil.Script.Value
import Stencil.Sink
import Stencil.Template.Chunk
import Stencil.Template.Instr
import Stencil.Template.Reading
import Stencil.Template.Scan
import Stencil.Template.Tag
import Stencil.Text.Blank
import Stencil.Text.Printable
import Stencil.Text.Quoted
import Stencil.Text.Utf8
import Stencil.Text.Width
import Stencil.Text.WidthRanges
