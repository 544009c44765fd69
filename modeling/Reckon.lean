import Reckon.Main
import Reckon.Node.Evaluate
import Reckon.Program.Reader
import Reckon.Proofs.Grammar
import Reckon.Token.Cursor
import Reckon.Proofs.Grammar.Recognition
import Reckon.Proofs.Grammar.FirstFault
import Reckon.Proofs.Token.Form
import Reckon.Proofs.Token.Layout
import Reckon.Proofs.Number.Rounding
import Reckon.Proofs.Number.Decimal
import Reckon.Proofs.Number.Numeral
import Reckon.Proofs.Token.Boundary
import Reckon.Proofs.Number.Positional
import Reckon.Proofs.Program.Execution
import Reckon.Proofs.Program.Failure
import Reckon.Proofs.Number.ReadBack
import Reckon.Proofs.Token.Newline
import Reckon.Proofs.Program.Relabel
import Reckon.Proofs.Run.Sequence
import Reckon.Proofs.Session.Line
import Reckon.Proofs.Program.Placeless
import Reckon.Proofs.Program.Rendering
import Reckon.Proofs.Program.Places
import Reckon.Proofs.Session.Isolation
import Reckon.Proofs.CommandLine.Status
import Reckon.Proofs.Grammar.Chain
import Reckon.Proofs.Grammar.Fallback
import Reckon.Proofs.Program.Styles
import Reckon.Proofs.Program.Depth
import Reckon.Proofs.Run.Showing
import Reckon.Proofs.Token.Scan
import Reckon.Proofs.Token.Taking
import Reckon.Proofs.Token.Spaced
import Reckon.Proofs.Grammar.Refusal
import Reckon.Proofs.Grammar.Nesting
import Reckon.Proofs.Grammar.Expected
import Reckon.Proofs.Reader.Limit
import Reckon.Proofs.Program.Stretches
import Reckon.Proofs.Run.LineEnd
import Reckon.Proofs.Grammar.Path
import Reckon.Proofs.Reader.Ending
import Reckon.Proofs.Node.Forms
import Reckon.Proofs.Number.PlainForm
