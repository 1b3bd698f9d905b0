import NumericEngine.Engine.Solo
import NumericEngine.Ir.Document
import NumericEngine.Ir.Edit
import NumericEngine.Proofs.Code.Bytes
import NumericEngine.Proofs.Compile.Aborts
import NumericEngine.Proofs.Compile.Fixpoint
import NumericEngine.Proofs.Compile.Shifts
import NumericEngine.Proofs.Engine.Modes
import NumericEngine.Proofs.Engine.Stack
import NumericEngine.Proofs.Exec.Acceptance
import NumericEngine.Proofs.Ir.Binary.Truncation
import NumericEngine.Proofs.Code.Places
import NumericEngine.Proofs.Machine.Access
import NumericEngine.Proofs.Machine.HelperCalls
import NumericEngine.Proofs.Tensor.Indexing
import NumericEngine.Proofs.Tensor.Reductions
import NumericEngine.Proofs.Ty.Coherence
import NumericEngine.Proofs.Typing.Frames
