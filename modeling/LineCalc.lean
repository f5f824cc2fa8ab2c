import LineCalc.Number.Basic
import LineCalc.Token.Scanner
import LineCalc.Program.Parser
import LineCalc.Run
import LineCalc.Json.Encoding
import LineCalc.Command.Basic
import LineCalc.Command.Words
import LineCalc.Command.Standard
import LineCalc.Main
import LineCalc.Proofs.Grammar
import LineCalc.Proofs.Steps
import LineCalc.Proofs.Acceptance
import LineCalc.Proofs.Nearest
import LineCalc.Proofs.Lexemes
import LineCalc.Proofs.Cut
import LineCalc.Proofs.Places
import LineCalc.Proofs.Coupling
import LineCalc.Proofs.Aligned
import LineCalc.Proofs.Lines
import LineCalc.Proofs.Execution
import LineCalc.Proofs.FirstError
import LineCalc.Proofs.Bits
import LineCalc.Proofs.Printing
import LineCalc.Proofs.Calls
import LineCalc.Proofs.Finite
import LineCalc.Proofs.Pieces
import LineCalc.Proofs.Output
import LineCalc.Proofs.Invariant
import LineCalc.Proofs.Invocation
import LineCalc.Proofs.InStep
import LineCalc.Proofs.Spacing
import LineCalc.Proofs.Progress
import LineCalc.Proofs.Watched
import LineCalc.Proofs.Again
import LineCalc.Proofs.Replay
import LineCalc.Proofs.Variables
import LineCalc.Proofs.MissingEof
import LineCalc.Proofs.Exact
import LineCalc.Proofs.Faults
import LineCalc.Proofs.Stream
import LineCalc.Proofs.Integers
import LineCalc.Proofs.IntegerPrograms
import LineCalc.Proofs.Completion
import LineCalc.Proofs.ReadingLog
import LineCalc.Proofs.LogOrder
import LineCalc.Proofs.Kinds
import LineCalc.Proofs.Levels
import LineCalc.Proofs.Depth
