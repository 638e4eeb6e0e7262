import LoxLang.Main
import LoxLang.Proofs.Machine.Control
import LoxLang.Proofs.Scope.Renaming
import LoxLang.Proofs.Machine.Reclaim
import LoxLang.Proofs.Reader.Grammar
import LoxLang.Proofs.Reader.Reading
import LoxLang.Proofs.Reader.ExpressionSoundness
import LoxLang.Proofs.Reader.StatementSoundness
import LoxLang.Proofs.Reader.ExpressionCompleteness
import LoxLang.Proofs.Reader.StatementCompleteness
import LoxLang.Proofs.Reader.ExactGrammar
import LoxLang.Proofs.Machine.Trees
import LoxLang.Proofs.Scope.Values
import LoxLang.Proofs.Machine.Sound
import LoxLang.Proofs.Machine.Safety
import LoxLang.Proofs.Scope.Frames
import LoxLang.Proofs.Tree.Parameters
import LoxLang.Proofs.Tree.RoundTrip
import LoxLang.Proofs.Machine.Layout
import LoxLang.Proofs.Machine.Moments
import LoxLang.Proofs.Machine.Pins
import LoxLang.Proofs.Machine.Leaks
import LoxLang.Proofs.Machine.Confinement
import LoxLang.Proofs.Decimal.Bits
import LoxLang.Proofs.Decimal.Rounding
import LoxLang.Proofs.Decimal.Shortest
import LoxLang.Proofs.Decimal.Notation
import LoxLang.Proofs.Json.Numbers
import LoxLang.Proofs.Json.RoundTrip
import LoxLang.Proofs.Json.Lines
import LoxLang.Proofs.CommandLine.Paths
import LoxLang.Proofs.Tree.Distinct
import LoxLang.Proofs.CommandLine.EmittedTree
import LoxLang.Proofs.Token.Cuts
import LoxLang.Proofs.Token.Tiling
import LoxLang.Proofs.Tree.Likeness
import LoxLang.Proofs.Reader.Parallel
import LoxLang.Proofs.Scope.Parallel
import LoxLang.Proofs.Machine.Likeness
import LoxLang.Proofs.Machine.Parallel
import LoxLang.Proofs.Token.Joining
import LoxLang.Proofs.Machine.Blame
import LoxLang.Proofs.Machine.Reformatting
import LoxLang.Proofs.Reader.Joining
import LoxLang.Proofs.Machine.Joining
import LoxLang.Proofs.Machine.Tracing
import LoxLang.Proofs.Scope.Allocation
import LoxLang.Proofs.Reader.Bounds
import LoxLang.Proofs.Reader.Progress
import LoxLang.Proofs.Reader.Conduct
import LoxLang.Proofs.Reader.Resuming
import LoxLang.Proofs.Reader.Blaming
import LoxLang.Proofs.Machine.Course
import LoxLang.Proofs.CommandLine.ExitStatus
import LoxLang.Proofs.Reader.Loops
import LoxLang.Proofs.Reader.Leading
import LoxLang.Proofs.Reader.LenientExpressions
import LoxLang.Proofs.Reader.StatementLeading
import LoxLang.Proofs.Reader.LenientStatements
import LoxLang.Proofs.Reader.Settling
import LoxLang.Proofs.Reader.Containment
import LoxLang.Proofs.Reader.Segments
import LoxLang.Proofs.Reader.Gaps
import LoxLang.Proofs.Reader.OpenBlocks
import LoxLang.Proofs.Decimal.Nearest
import LoxLang.Proofs.Token.Patterns
import LoxLang.Proofs.Token.Munch
import LoxLang.Proofs.Machine.Origins
import LoxLang.Proofs.Scope.Anchors
import LoxLang.Proofs.Scope.Hollow
import LoxLang.Proofs.Machine.Declaring
import LoxLang.Proofs.Machine.Hollow
import LoxLang.Proofs.Machine.HollowRuns
import LoxLang.Proofs.Machine.ForLoops
import LoxLang.Proofs.Scope.Reads
import LoxLang.Proofs.Scope.Refusals
import LoxLang.Proofs.Tree.Normalizing
import LoxLang.Proofs.Scope.Discipline
import LoxLang.Proofs.Machine.Discipline
import LoxLang.Proofs.Token.Cursor
import LoxLang.Proofs.Token.Relexing
import LoxLang.Proofs.Decimal.Positional
import LoxLang.Proofs.Token.Printed
import LoxLang.Proofs.Prompt.Faults
import LoxLang.Proofs.Prompt.Exchanges
