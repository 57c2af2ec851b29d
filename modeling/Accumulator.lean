import Accumulator.Main
import Accumulator.Proofs.Limit
import Accumulator.Proofs.Bare
import Accumulator.Proofs.PostMortem
import Accumulator.Proofs.Branching
import Accumulator.Proofs.Recall
import Accumulator.Proofs.Refinement
import Accumulator.Proofs.Invocation
import Accumulator.Proofs.Tracing
import Accumulator.Proofs.ProgramImage
import Accumulator.Proofs.Fetching
import Accumulator.Proofs.Malformed
import Accumulator.Proofs.TracingMark
import Accumulator.Proofs.RoundTrip
import Accumulator.Proofs.Record
import Accumulator.Proofs.Unfetched
import Accumulator.Proofs.Aliases
import Accumulator.Proofs.Relocation
import Accumulator.Proofs.Arithmetic
import Accumulator.Proofs.Refusal
import Accumulator.Proofs.MemoryGrammar
import Accumulator.Proofs.Blocks
import Accumulator.Proofs.Loops
import Accumulator.Proofs.Rerun
import Accumulator.Proofs.LineEnds
import Accumulator.Proofs.WrittenProgram
import Accumulator.Proofs.StraightLine
import Accumulator.Proofs.Frame
import Accumulator.Proofs.Translation
import Accumulator.Proofs.MemorySize
import Accumulator.Proofs.Renaming
import Accumulator.Proofs.SameEffect
import Accumulator.Proofs.TraceLines
