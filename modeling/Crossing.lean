import Crossing.Heap.Type
import Crossing.Main
import Crossing.Proofs.Argument.Marshalling
import Crossing.Proofs.Cache.Agreement
import Crossing.Proofs.Fault.Recovery
import Crossing.Proofs.Glue.Transition
import Crossing.Proofs.Thread.Flip
import Crossing.Proofs.Thread.Requests
import Crossing.Proofs.X86.Disassembly
import Crossing.Proofs.X86.EncodedLength
import Crossing.Report.Runtime
import Crossing.Service.Arithmetic
import Crossing.Service.Real
import Crossing.Proofs.Thread.Checkpoint
import Crossing.Proofs.Thread.Presence
import Crossing.Proofs.Thread.Deadlock
import Crossing.Proofs.Glue.Assembly
import Crossing.Proofs.Glue.Feasible
import Crossing.Proofs.Stub.Parts
import Crossing.Proofs.Stub.Assembly
import Crossing.Proofs.Stub.Signature
import Crossing.Proofs.Stub.Totality
import Crossing.Proofs.Thread.Orderly
import Crossing.Proofs.Cache.Compilation
import Crossing.Proofs.Reference.Inline
import Crossing.Proofs.Code.Attempt
import Crossing.Proofs.Argument.Parallel
import Crossing.Proofs.Frame.Undone
import Crossing.Proofs.Stub.Places
import Crossing.Proofs.Fault.Trigger
import Crossing.Proofs.Frame.Adjustment
import Crossing.Proofs.Stub.SlowPath
import Crossing.Proofs.Fault.NullCheck
import Crossing.Proofs.Heap.Blocks
import Crossing.Proofs.Heap.Subclass
import Crossing.Proofs.Heap.Marking
import Crossing.Proofs.Text.HexInput
import Crossing.Proofs.X86.Locality
import Crossing.Proofs.A64.Constant
import Crossing.Proofs.Heap.Comparison
import Crossing.Proofs.Heap.Exhaustion
import Crossing.Proofs.Service.Division
