import TreeGrammar.Text.CodeRange
import TreeGrammar.Text.WhiteSpace
import TreeGrammar.Text.GraphemeExtend
import TreeGrammar.Text.Unassigned
import TreeGrammar.Text.Invisible
import TreeGrammar.Text.Bytes
import TreeGrammar.Text.Quoted
import TreeGrammar.Source.Span
import TreeGrammar.Source.Position
import TreeGrammar.Source.Diagnostic
import TreeGrammar.Token.Basic
import TreeGrammar.Token.Literal
import TreeGrammar.Token.Lexeme
import TreeGrammar.Token.Cursor
import TreeGrammar.Token.Scan
import TreeGrammar.Grammar.Rule
import TreeGrammar.Grammar.Basic
import TreeGrammar.Grammar.SyntaxError
import TreeGrammar.Grammar.Event
import TreeGrammar.Grammar.Draft
import TreeGrammar.Grammar.ReadM
import TreeGrammar.Grammar.Reader
import TreeGrammar.Grammar.Canonical
import TreeGrammar.Json.Basic
import TreeGrammar.Json.Pretty
import TreeGrammar.Grammar.Export
import TreeGrammar.Grammar.Load
import TreeGrammar.Command.Options
import TreeGrammar.Command.Reading
import TreeGrammar.Command.Files
import TreeGrammar.Command.Log
import TreeGrammar.Command.Run
import TreeGrammar.Main
import TreeGrammar.Proofs.Leaves
import TreeGrammar.Proofs.Derivation
import TreeGrammar.Proofs.Unambiguous
import TreeGrammar.Proofs.FirstSeen
import TreeGrammar.Proofs.Building
import TreeGrammar.Proofs.Descent
import TreeGrammar.Proofs.Soundness
import TreeGrammar.Proofs.Completeness
import TreeGrammar.Proofs.Acceptance
import TreeGrammar.Proofs.Layout
import TreeGrammar.Proofs.CanonicalForm
import TreeGrammar.Proofs.CanonicalText
import TreeGrammar.Proofs.RoundTrip
import TreeGrammar.Proofs.Loadable
import TreeGrammar.Proofs.Parentheses
import TreeGrammar.Proofs.Places
import TreeGrammar.Proofs.Decoding
import TreeGrammar.Proofs.Export
import TreeGrammar.Proofs.Utf8
import TreeGrammar.Proofs.Boundaries
import TreeGrammar.Proofs.Bytewise
import TreeGrammar.Proofs.Stepping
import TreeGrammar.Proofs.Lines
import TreeGrammar.Proofs.Listing
import TreeGrammar.Proofs.Reports
import TreeGrammar.Proofs.Resumption
import TreeGrammar.Proofs.Viability
import TreeGrammar.Proofs.Seam
import TreeGrammar.Proofs.Heads
import TreeGrammar.Proofs.Merge
import TreeGrammar.Proofs.Watch
import TreeGrammar.Proofs.Invariant
import TreeGrammar.Proofs.Watched
import TreeGrammar.Proofs.Faultless
import TreeGrammar.Proofs.Occurrences
import TreeGrammar.Proofs.Truncation
import TreeGrammar.Proofs.LineBreaks
import TreeGrammar.Proofs.LineScan
import TreeGrammar.Proofs.Openings
import TreeGrammar.Proofs.Culprits
import TreeGrammar.Proofs.PositionOrder
import TreeGrammar.Proofs.ShortestLiteral
import TreeGrammar.Proofs.Height
import TreeGrammar.Proofs.Reordering
import TreeGrammar.Proofs.Replay
import TreeGrammar.Proofs.Progress
