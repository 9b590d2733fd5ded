import Lumen.Bindings
import Lumen.Command.Options
import Lumen.Command.Script
import Lumen.Command.Task
import Lumen.Cursor
import Lumen.Diagnostic
import Lumen.Evaluation
import Lumen.Event
import Lumen.Execution
import Lumen.Grammar.Expression
import Lumen.Grammar.Program
import Lumen.Grammar.Reading
import Lumen.Kind
import Lumen.Limits
import Lumen.Main
import Lumen.Number.Rounding
import Lumen.Number.Shortest
import Lumen.Number.Written
import Lumen.Operator
import Lumen.Proofs.Acceptance
import Lumen.Proofs.Derivation
import Lumen.Proofs.Evaluation
import Lumen.Proofs.Execution
import Lumen.Proofs.ExpressionReading
import Lumen.Proofs.Juxtaposition
import Lumen.Proofs.Lexeme
import Lumen.Proofs.Pieces
import Lumen.Proofs.Recovery
import Lumen.Proofs.Relocation
import Lumen.Repl
import Lumen.Reporter
import Lumen.Scan
import Lumen.Session
import Lumen.Settings
import Lumen.Text.Blank
import Lumen.Text.DecimalDigit
import Lumen.Text.Integer
import Lumen.Text.Newline
import Lumen.Text.Printable
import Lumen.Text.Quoted
import Lumen.Text.Utf8
import Lumen.Token
import Lumen.Tree.Expr
import Lumen.Tree.Render
import Lumen.Tree.Walk
import Lumen.Value
import Lumen.Proofs.Meaning
import Lumen.Proofs.Rendering
import Lumen.Proofs.Spelling
import Lumen.Proofs.StackUse
import Lumen.Proofs.Trace
import Lumen.Proofs.Variants
import Lumen.Proofs.Reporting
import Lumen.Proofs.Isolation
import Lumen.Proofs.Memory
import Lumen.Proofs.NearestWord
import Lumen.Proofs.Double
import Lumen.Proofs.Munch
import Lumen.Proofs.CursorScan
import Lumen.Proofs.TokenPosition
import Lumen.Proofs.ProgramPosition
import Lumen.Proofs.Safety
import Lumen.Proofs.Blame
import Lumen.Proofs.Modes
import Lumen.Proofs.Conversation
import Lumen.Proofs.NumberText
import Lumen.Proofs.Readability
import Lumen.Proofs.DepthLimit
import Lumen.Proofs.Atomicity
import Lumen.Proofs.Lookahead
import Lumen.Proofs.ViablePrefix
import Lumen.Proofs.CommentNesting
import Lumen.Proofs.Progress
import Lumen.Proofs.Separators
import Lumen.Proofs.Frame
import Lumen.Proofs.LineEnds
import Lumen.Proofs.FewestDigits
import Lumen.Proofs.OperatorTable
import Lumen.Proofs.PrintedNumber
import Lumen.Proofs.Preorder
import Lumen.Proofs.Brackets
import Lumen.Proofs.Batches
import Lumen.Proofs.CursorCalls
