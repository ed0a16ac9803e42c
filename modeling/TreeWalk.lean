import TreeWalk.Text.Utf8
import TreeWalk.Text.Blank
import TreeWalk.Number.Written
import TreeWalk.Number.Reading
import TreeWalk.Token.Lexer
import TreeWalk.Tree.Printer
import TreeWalk.Tree.Parser
import TreeWalk.Tree.Scoping
import TreeWalk.Builtin
import TreeWalk.Machine.Run
import TreeWalk.Command
import TreeWalk.Main
import TreeWalk.Proofs.Unwind
import TreeWalk.Proofs.Grammar
import TreeWalk.Proofs.Composed
import TreeWalk.Proofs.Steady
import TreeWalk.Proofs.References
import TreeWalk.Proofs.Reading
import TreeWalk.Proofs.Lookahead
import TreeWalk.Proofs.Acceptance
import TreeWalk.Proofs.Program
import TreeWalk.Proofs.Progress
import TreeWalk.Proofs.Positions
import TreeWalk.Proofs.Extension
import TreeWalk.Proofs.LoneExpression
import TreeWalk.Proofs.Visits
import TreeWalk.Proofs.Recording
import TreeWalk.Proofs.Formed
import TreeWalk.Proofs.Chain
import TreeWalk.Proofs.Fits
import TreeWalk.Proofs.Stepping
import TreeWalk.Proofs.History
import TreeWalk.Proofs.Correspondence
import TreeWalk.Proofs.Depth
import TreeWalk.Proofs.Subrun
import TreeWalk.Proofs.Raising
import TreeWalk.Proofs.Traces
import TreeWalk.Proofs.Encoding
import TreeWalk.Proofs.Lexemes
import TreeWalk.Proofs.Munch
import TreeWalk.Proofs.Renaming
import TreeWalk.Proofs.Equivariance
import TreeWalk.Proofs.Relocation
import TreeWalk.Proofs.Rereading
import TreeWalk.Proofs.Settled
import TreeWalk.Proofs.Renumbering
import TreeWalk.Proofs.Atomicity
import TreeWalk.Proofs.Lasting
import TreeWalk.Proofs.Joining
import TreeWalk.Proofs.FaultOrder
import TreeWalk.Proofs.Composition
import TreeWalk.Proofs.Consecutive
import TreeWalk.Proofs.Occurrences
import TreeWalk.Proofs.Surroundings
import TreeWalk.Proofs.Misuses
import TreeWalk.Proofs.Equality
import TreeWalk.Proofs.Rounding
import TreeWalk.Proofs.Comparison
import TreeWalk.Proofs.Equivalence
import TreeWalk.Proofs.Respacing
import TreeWalk.Proofs.Spelling
import TreeWalk.Proofs.Wording
import TreeWalk.Proofs.Lines
import TreeWalk.Proofs.Enclosing
import TreeWalk.Proofs.Timeline
import TreeWalk.Proofs.Receivers
import TreeWalk.Proofs.Splitting
import TreeWalk.Proofs.Malformed
import TreeWalk.Proofs.Holders
import TreeWalk.Proofs.Numerals
import TreeWalk.Proofs.Outlines
import TreeWalk.Proofs.Showing
import TreeWalk.Proofs.Recovery
import TreeWalk.Proofs.Yielding
import TreeWalk.Proofs.Unambiguous
import TreeWalk.Proofs.Edits
import TreeWalk.Proofs.Growth
import TreeWalk.Proofs.Restarting
import TreeWalk.Proofs.WholeNumbers
import TreeWalk.Proofs.Conversions
import TreeWalk.Proofs.Numbering
import TreeWalk.Proofs.Recordings
import TreeWalk.Proofs.WrittenOnce
