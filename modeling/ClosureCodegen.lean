import ClosureCodegen.Main
import ClosureCodegen.Proofs.Calling.Agreement
import ClosureCodegen.Proofs.Lowering.AliasTable
import ClosureCodegen.Proofs.Lowering.Layout
import ClosureCodegen.Proofs.Calling.TailBehaviour
import ClosureCodegen.Proofs.Coloring.Sparse
import ClosureCodegen.Proofs.Coloring.Bookkeeping
import ClosureCodegen.Proofs.Calling.CallSites
import ClosureCodegen.Proofs.Optimizer.NormalForm
import ClosureCodegen.Proofs.Calling.Availability
import ClosureCodegen.Proofs.Calling.TailPosition
import ClosureCodegen.Proofs.Optimizer.JumpChains
import ClosureCodegen.Proofs.Optimizer.Reordering
import ClosureCodegen.Proofs.Lowering.Constants
import ClosureCodegen.Proofs.Calling.ParameterPermutation
import ClosureCodegen.Proofs.Optimizer.PeepholeExecution
import ClosureCodegen.Proofs.Allocation.VisitingOrder
import ClosureCodegen.Proofs.Compilation.NestedBodies
import ClosureCodegen.Proofs.Compilation.FailingBodies
import ClosureCodegen.Proofs.Program.ProgramTexts
