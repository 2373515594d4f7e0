import Frontend.Main
import Frontend.Tree.Annotation
import Frontend.Pool.Vec
import Frontend.Proofs.Grammar
import Frontend.Proofs.Token.Literal
import Frontend.Proofs.Parser.Expression
import Frontend.Proofs.Parser.Statement
import Frontend.Proofs.Parser.Program
import Frontend.Proofs.Token.Piece
import Frontend.Proofs.Pool.Accounting
import Frontend.Proofs.Token.Lossless
import Frontend.Proofs.Pool.Effect
import Frontend.Proofs.Pool.World
import Frontend.Proofs.Grammar.Viable
import Frontend.Proofs.Parser.Outcome
import Frontend.Proofs.Parser.Bound
import Frontend.Proofs.Parser.Earliest
import Frontend.Proofs.Session.Draft
import Frontend.Proofs.Session.Sequence
import Frontend.Proofs.Session.Bounded
import Frontend.Proofs.Token.Answers
import Frontend.Proofs.Session.Lazy
import Frontend.Proofs.Token.Parenthesis
import Frontend.Proofs.Token.Terminator
import Frontend.Proofs.Grammar.Balanced
import Frontend.Proofs.Session.Accepted
import Frontend.Proofs.Tree.Nesting
import Frontend.Proofs.Token.Rescan
import Frontend.Proofs.Tree.Shift
import Frontend.Proofs.Parser.Parallel
import Frontend.Proofs.Parser.Resume
import Frontend.Proofs.Session.Concatenation
import Frontend.Proofs.Tree.Outline
import Frontend.Proofs.Tree.Reader
import Frontend.Proofs.Token.Exchange
import Frontend.Proofs.Grammar.Transfer
import Frontend.Proofs.Session.Exchange
import Frontend.Proofs.Pool.Refused
import Frontend.Proofs.Pool.Slots
import Frontend.Proofs.Pool.Refinement
import Frontend.Proofs.Session.Discipline
import Frontend.Proofs.Token.Insertion
import Frontend.Proofs.Grammar.Alike
import Frontend.Proofs.Session.Layout
import Frontend.Proofs.Session.Progress
import Frontend.Proofs.Grammar.Loose
import Frontend.Proofs.Parser.Progress
import Frontend.Proofs.Parser.Steady
import Frontend.Proofs.Grammar.Comma
import Frontend.Proofs.Session.Conformance
import Frontend.Proofs.Command.Noninterference
import Frontend.Proofs.Grammar.Grouping
import Frontend.Proofs.Session.Chains
import Frontend.Proofs.Session.Literal
import Frontend.Proofs.Token.Calls
import Frontend.Proofs.Session.Extent
import Frontend.Proofs.Tree.Extent
import Frontend.Proofs.Pool.Growth
import Frontend.Proofs.Diagnostic.Excerpt
import Frontend.Proofs.Diagnostic.Caret
import Frontend.Proofs.Token.Canonical
