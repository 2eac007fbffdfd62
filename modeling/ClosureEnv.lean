import ClosureEnv.Main
import ClosureEnv.Run.Direct
import ClosureEnv.Proofs.Cells.Units
import ClosureEnv.Proofs.Lasting.Repeated
import ClosureEnv.Proofs.Layout.Dependents
import ClosureEnv.Proofs.Layout.Distinct
import ClosureEnv.Proofs.Layout.Digest
import ClosureEnv.Proofs.Layout.Document
import ClosureEnv.Proofs.Layout.Parents
import ClosureEnv.Proofs.Lowered.Again
import ClosureEnv.Proofs.Plan.Exact
import ClosureEnv.Proofs.Plan.Heap
import ClosureEnv.Proofs.Plan.Leftover
import ClosureEnv.Proofs.Loops.Lowering
import ClosureEnv.Proofs.Syntax.Parsed
import ClosureEnv.Proofs.Syntax.Semicolons
import ClosureEnv.Proofs.Local.Lowering
import ClosureEnv.Proofs.Binding.Inferring
import ClosureEnv.Proofs.Binding.Resolution
import ClosureEnv.Proofs.Binding.Shape
import ClosureEnv.Proofs.Plan.Analysis
