import BytecodeMachine.Code.Assembly
import BytecodeMachine.Image.Program
import BytecodeMachine.Machine.Run
import BytecodeMachine.Stack.Lemmas
import BytecodeMachine.Value.Literal
import BytecodeMachine.Proofs.Bounds.Run
import BytecodeMachine.Proofs.Decoding.Assembled
import BytecodeMachine.Proofs.Decoding.Legible
import BytecodeMachine.Proofs.Decoding.Operands
import BytecodeMachine.Proofs.Decoding.Run
import BytecodeMachine.Proofs.Decoding.Tiling
import BytecodeMachine.Proofs.Execution.Popping
import BytecodeMachine.Proofs.Expressions.Correctness
import BytecodeMachine.Proofs.Frames.Aborted
import BytecodeMachine.Proofs.Frames.Brackets
import BytecodeMachine.Proofs.Frames.Call
import BytecodeMachine.Proofs.Frames.Concatenated
import BytecodeMachine.Proofs.Frames.Convention
import BytecodeMachine.Proofs.Frames.Discipline
import BytecodeMachine.Proofs.Frames.Progress
import BytecodeMachine.Proofs.Frames.Shortage
import BytecodeMachine.Proofs.Image.Contents
import BytecodeMachine.Proofs.Image.Cut
import BytecodeMachine.Proofs.Image.Exactness
import BytecodeMachine.Proofs.Objects.Freshness
import BytecodeMachine.Proofs.Programs.Factorial
import BytecodeMachine.Proofs.Relabelling.ImplicitReturn
import BytecodeMachine.Proofs.Slack.Limits
import BytecodeMachine.Proofs.Slack.Stale
import BytecodeMachine.Proofs.Stacks.Refinement
import BytecodeMachine.Proofs.Values.Arithmetic
import BytecodeMachine.Proofs.Values.Arrays
import BytecodeMachine.Proofs.Values.Hashes
import BytecodeMachine.Proofs.Variables.Reading
