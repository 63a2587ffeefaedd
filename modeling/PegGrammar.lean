import PegGrammar.CharProfile
import PegGrammar.CommandLine.FileTree
import PegGrammar.Grammar.Rename
import PegGrammar.Grammar.Visit
import PegGrammar.Json.Read
import PegGrammar.Main
import PegGrammar.Proofs.Backtracking
import PegGrammar.Proofs.Concatenation
import PegGrammar.Proofs.FurthestFailure
import PegGrammar.Proofs.JsonExchange
import PegGrammar.Proofs.Layout
import PegGrammar.Proofs.LineColumn
import PegGrammar.Proofs.Progress
import PegGrammar.Proofs.RoundTrip
import PegGrammar.Proofs.ShapeReading
import PegGrammar.Proofs.SingleRule
import PegGrammar.Proofs.Soundness
import PegGrammar.Proofs.SpanReading
import PegGrammar.Proofs.Parallel
import PegGrammar.Proofs.Displacement
import PegGrammar.Proofs.Parentheses.Counting
import PegGrammar.Proofs.Parentheses.Printed
import PegGrammar.Proofs.Reuse
import PegGrammar.Proofs.Parentheses.Fewest
import PegGrammar.Proofs.Offsets.Checked
import PegGrammar.Proofs.Offsets.Trivia
import PegGrammar.Proofs.Offsets.Escapes
import PegGrammar.Proofs.Offsets.Literals
import PegGrammar.Proofs.Offsets.Names
import PegGrammar.Proofs.Offsets.LineTable
import PegGrammar.Proofs.Offsets.Lookups
import PegGrammar.Proofs.Offsets.Reading
import PegGrammar.Proofs.Offsets.Productions
import PegGrammar.Proofs.Offsets.Restoring
import PegGrammar.Proofs.Offsets.Mirroring
import PegGrammar.Proofs.Offsets.Agreement
import PegGrammar.Proofs.Offsets.Calls
import PegGrammar.Proofs.Offsets.Bounds
import PegGrammar.Proofs.Tags
import PegGrammar.Proofs.PrintedLiterals
import PegGrammar.Proofs.TriviaModes
import PegGrammar.Proofs.BalancedCode
import PegGrammar.Proofs.PrintedNames
import PegGrammar.Proofs.RangeErrors
import PegGrammar.Proofs.Likeness
import PegGrammar.Proofs.Walks
import PegGrammar.Proofs.PositionOrder
import PegGrammar.Proofs.FailureOrder
import PegGrammar.Proofs.RuleHeaders
