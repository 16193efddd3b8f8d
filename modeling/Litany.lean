import Litany.Decimal.Digits
import Litany.Decimal.Dyadic
import Litany.Decimal.Places
import Litany.Decimal.Shortest
import Litany.Failure
import Litany.Grammar.Cursor
import Litany.Grammar.Expression
import Litany.Grammar.Program
import Litany.Grammar.Statement
import Litany.Machine.Evaluate
import Litany.Machine.Execute
import Litany.Machine.Store
import Litany.Main
import Litany.Names
import Litany.Operator
import Litany.Proofs.Grammar.Derivation
import Litany.Proofs.Grammar.Lookahead
import Litany.Proofs.Grammar.Readings
import Litany.Proofs.Grammar.Runs
import Litany.Proofs.Grammar.Soundness.Expression
import Litany.Proofs.Grammar.Soundness.Statement
import Litany.Scalar
import Litany.Session
import Litany.Shell.Command
import Litany.Shell.Files
import Litany.Shell.Runner
import Litany.Shell.Transcript
import Litany.Syntax.Expr
import Litany.Syntax.Stmt
import Litany.Template
import Litany.Text.Blank
import Litany.Text.Escape
import Litany.Token.Basic
import Litany.Token.Lexeme
import Litany.Token.Stream
import Litany.Value
import Litany.Proofs.Grammar.Soundness.Program
import Litany.Proofs.Grammar.Completeness.Expression
import Litany.Proofs.Grammar.Completeness.Statement
import Litany.Proofs.Grammar.Completeness.Program
import Litany.Proofs.Grammar.Unambiguity.Expression
import Litany.Proofs.Grammar.Unambiguity.Program
import Litany.Proofs.Scope.Reading
import Litany.Proofs.Session.Agreement
import Litany.Proofs.Lines.Erasure
import Litany.Proofs.Lines.Parsing
import Litany.Proofs.Lines.Running
import Litany.Proofs.Machine.Extension
import Litany.Proofs.Machine.Sequence
import Litany.Proofs.Session.Piecewise
import Litany.Proofs.Token.Paste
import Litany.Proofs.Machine.Isolation
import Litany.Proofs.Scope.Fields
import Litany.Proofs.Machine.Typing
import Litany.Proofs.Machine.Moments
import Litany.Proofs.Machine.TypedRuns
import Litany.Proofs.Session.Typing
import Litany.Proofs.Scope.Parameters
import Litany.Proofs.Token.Anatomy
import Litany.Proofs.Token.Placement
import Litany.Proofs.Token.Respelling
import Litany.Proofs.Session.Layout
import Litany.Proofs.Machine.Simulation
import Litany.Proofs.Machine.Records
import Litany.Proofs.Machine.Pairing
import Litany.Proofs.Session.Records
import Litany.Proofs.Session.Memory
import Litany.Proofs.Grammar.Reaching.Expression
import Litany.Proofs.Grammar.Reaching.Program
import Litany.Proofs.Scope.Acts
import Litany.Proofs.Scope.Constants
import Litany.Proofs.Scope.Paths
import Litany.Proofs.Machine.ScopedActs
import Litany.Proofs.Machine.Regime
import Litany.Proofs.Machine.Laws
import Litany.Proofs.Machine.Constants
import Litany.Proofs.Session.Constants
import Litany.Proofs.Machine.Assignment
import Litany.Proofs.Scope.Uniqueness
import Litany.Proofs.Grammar.Entries
import Litany.Proofs.Scope.Slots
import Litany.Proofs.Text.Protection
import Litany.Proofs.Session.Printing
import Litany.Proofs.Machine.Wrapping
import Litany.Proofs.Machine.Conditions
import Litany.Proofs.Machine.Pruning
import Litany.Proofs.Machine.Returns
import Litany.Proofs.Grammar.Arguments
import Litany.Proofs.Text.Directives
import Litany.Proofs.Text.Numerals
import Litany.Proofs.Token.Splicing
import Litany.Proofs.Grammar.Blocks
import Litany.Proofs.Machine.Trace
import Litany.Proofs.Machine.Blocks
import Litany.Proofs.Session.Blocks
import Litany.Proofs.Grammar.Locality.Rules
import Litany.Proofs.Grammar.Locality.Productions
import Litany.Proofs.Grammar.Progress
import Litany.Proofs.Grammar.Faults
import Litany.Proofs.Machine.Visits
