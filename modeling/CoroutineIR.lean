import CoroutineIR.Builder
import CoroutineIR.Pipeline
import CoroutineIR.Type.Layout
import CoroutineIR.Proofs.Session
import CoroutineIR.Proofs.Propagation
import CoroutineIR.Proofs.Elimination
import CoroutineIR.Proofs.Waiting
import CoroutineIR.Proofs.Lowering
import CoroutineIR.Proofs.StepOrder
import CoroutineIR.Proofs.TreeEffects
import CoroutineIR.Proofs.TreeValues
import CoroutineIR.Proofs.CopyFolding
import CoroutineIR.Proofs.CachedLayout
import CoroutineIR.Proofs.Layout
import CoroutineIR.Proofs.Crossing
import CoroutineIR.Proofs.Returning
import CoroutineIR.Proofs.Refolding
import CoroutineIR.Proofs.Arithmetic
import CoroutineIR.Proofs.SelfContainment
import CoroutineIR.Proofs.SameExtent
import CoroutineIR.Proofs.StackOrder
import CoroutineIR.Proofs.Symmetry
import CoroutineIR.Proofs.Printing
