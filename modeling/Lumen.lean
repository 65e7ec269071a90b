import Lumen.Location
import Lumen.Token
import Lumen.Spelling
import Lumen.Diagnostic
import Lumen.Double.Reading
import Lumen.Double.Writing
import Lumen.Tree
import Lumen.Ty
import Lumen.Token.Stream
import Lumen.Grammar.State
import Lumen.Grammar.Failure
import Lumen.Grammar.Reply
import Lumen.Grammar.Expression
import Lumen.Grammar.Resume
import Lumen.Grammar.Statement
import Lumen.Grammar.Item
import Lumen.Parsed
import Lumen.Symbol
import Lumen.Symbol.Scope
import Lumen.Symbol.Table
import Lumen.Typing.Problem
import Lumen.Typing.Inference
import Lumen.Typing.Analysis
import Lumen.Typing.Body
import Lumen.Typing.Signatures
import Lumen.Checked
import Lumen.Text.Printable
import Lumen.Text.Quoted
import Lumen.Code.Slots
import Lumen.Code.Instruction
import Lumen.Code.Routine
import Lumen.Code.Value
import Lumen.Code.Body
import Lumen.Code.Unit
import Lumen.Text.Lines
import Lumen.Text.Outline
import Lumen.Tree.Outline
import Lumen.Compilation
import Lumen.CommandLine
import Lumen.Main
import Lumen.Proofs.Spelling
import Lumen.Proofs.Spelling.Alignment
import Lumen.Proofs.Tree
import Lumen.Proofs.Exits
import Lumen.Proofs.Places
import Lumen.Proofs.Nodes
import Lumen.Proofs.Token.Stream
import Lumen.Proofs.Token.Tiling
import Lumen.Proofs.Token.Rendering
import Lumen.Proofs.Grammar.Derivation
import Lumen.Proofs.Grammar.Contract
import Lumen.Proofs.Grammar.Phrases
import Lumen.Proofs.Grammar.Expression
import Lumen.Proofs.Grammar.Rounds
import Lumen.Proofs.Grammar.Rereading.Parts
import Lumen.Proofs.Grammar.Rereading.Statements
import Lumen.Proofs.Grammar.Rereading.Items
import Lumen.Proofs.Grammar.Statement
import Lumen.Proofs.Grammar.Item
import Lumen.Proofs.Grammar.Numbering
import Lumen.Proofs.Grammar.Progress
import Lumen.Proofs.Grammar.Soundness
import Lumen.Proofs.Grammar.Programs
import Lumen.Proofs.Grammar.Printing
import Lumen.Proofs.Grammar.Numbers
import Lumen.Proofs.Grammar.Recurrence
import Lumen.Proofs.Grammar.Enclosed
import Lumen.Proofs.Grammar.Isolation
import Lumen.Proofs.Grammar.Recovery
import Lumen.Proofs.Grammar.Repetition
import Lumen.Proofs.Scoping
import Lumen.Proofs.Symbol.Table
import Lumen.Proofs.Symbol.Orderly
import Lumen.Proofs.Symbol.Scopes
import Lumen.Proofs.Typing.Inference
import Lumen.Proofs.Typing.Cascades
import Lumen.Proofs.Typing.Exits
import Lumen.Proofs.Typing.Reports
import Lumen.Proofs.Typing.BodyReports
import Lumen.Proofs.Typing.Advance
import Lumen.Proofs.Typing.Notes
import Lumen.Proofs.Typing.Unknown
import Lumen.Proofs.Typing.Records
import Lumen.Proofs.Typing.Valid
import Lumen.Proofs.Typing.Agreement
import Lumen.Proofs.Typing.Provenance
import Lumen.Proofs.Typing.Signatures
import Lumen.Proofs.Typing.Pending
import Lumen.Proofs.Typing.Lockstep
import Lumen.Proofs.Typing.Views
import Lumen.Proofs.Typing.Collecting
import Lumen.Proofs.Typing.Independence
import Lumen.Proofs.Typing.Judgment
import Lumen.Proofs.Typing.Known
import Lumen.Proofs.Checked.Toplevel
import Lumen.Proofs.Checked.Definitions
import Lumen.Proofs.Checked.Accepted
import Lumen.Proofs.Checked.Kept
import Lumen.Proofs.Checked.Exits
import Lumen.Proofs.Checked.Order
import Lumen.Proofs.Checked.Reports
import Lumen.Proofs.Checked.Tasks
import Lumen.Proofs.Checked.Rejected
import Lumen.Proofs.Checked.Records
import Lumen.Proofs.Checked.Ahead
import Lumen.Proofs.Code.Depth
import Lumen.Proofs.Code.Body
import Lumen.Proofs.Code.Unit
import Lumen.Proofs.Code.Pieces
import Lumen.Proofs.Code.Supply
import Lumen.Proofs.Code.Statements
import Lumen.Proofs.Code.Values
import Lumen.Proofs.Code.Operators
import Lumen.Proofs.Code.Flow
import Lumen.Proofs.Code.Layout
import Lumen.Proofs.Code.Histories
import Lumen.Proofs.Code.Allocation
import Lumen.Proofs.Code.Routines
import Lumen.Proofs.Code.Globals
import Lumen.Proofs.Code.Order
import Lumen.Proofs.Code.Occurrences
import Lumen.Proofs.Code.Resolution
import Lumen.Proofs.Code.References
import Lumen.Proofs.Code.Linking
import Lumen.Proofs.Code.Writes
import Lumen.Proofs.Code.Targets
import Lumen.Proofs.Code.Constants
import Lumen.Proofs.Execution.Labels
import Lumen.Proofs.Code.Control
import Lumen.Proofs.Code.Loops
import Lumen.Proofs.Code.Integrity
import Lumen.Proofs.Code.Annotations
import Lumen.Proofs.Code.Tables
import Lumen.Proofs.Code.Visibility
import Lumen.Proofs.Code.Visits
import Lumen.Proofs.Execution.Values
import Lumen.Proofs.Execution.Bodies
import Lumen.Proofs.Execution.Routines
import Lumen.Proofs.Modes
