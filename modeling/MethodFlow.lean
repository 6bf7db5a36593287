import MethodFlow.Member
import MethodFlow.Proofs.Bytes.Requests
import MethodFlow.Proofs.CodeTable.Writing
import MethodFlow.Proofs.Descriptor.Reading
import MethodFlow.Proofs.Flow.Dot
import MethodFlow.Proofs.Flow.Handlers
import MethodFlow.Proofs.Flow.Mirror
import MethodFlow.Proofs.Flow.Preorder
import MethodFlow.Proofs.Flow.Retaining
import MethodFlow.Proofs.Flow.Stamps
import MethodFlow.Proofs.Flow.Withdrawal
import MethodFlow.Proofs.Graph.Fingers
import MethodFlow.Proofs.Graph.History
import MethodFlow.Proofs.Ssa.Catching
import MethodFlow.Proofs.Ssa.Collection
import MethodFlow.Proofs.Ssa.Definitions
import MethodFlow.Proofs.Ssa.Erasure
import MethodFlow.Proofs.Ssa.Occupants
import MethodFlow.Proofs.Ssa.Trimming
import MethodFlow.Proofs.Ssa.Versions
import MethodFlow.Proofs.Tree.Independence
import MethodFlow.Proofs.Tree.Readings
import MethodFlow.Proofs.Tree.Refusal
