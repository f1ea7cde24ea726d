import FormCalculus.Analysis.Summary
import FormCalculus.Evaluation.Evaluate
import FormCalculus.Sharing.Marking

/-!
The passes on several integrands, in their order; the first failure is that of the batch.
-/
set_option autoImplicit false

namespace FormCalculus.Batch

def lower (integrands : List Expr) : Fresh TransformError (List Expr) := integrands.mapM Expr.lower

def expand (integrands : List Expr) : Except TransformError (List Expr) :=
  integrands.mapM Expr.expand

def markDuplications (integrands : List Expr) : Fresh TransformError (List Expr) :=
  integrands.mapM Expr.markDuplications

def dependencies (integrands : List Expr) : Except TransformError (List DependencySet) :=
  integrands.mapM Expr.dependencies

def summaries (integrands : List Expr) : Except TransformError (List Summary) :=
  integrands.mapM Summary.ofIntegrand

def evaluate (bindings : Bindings) (integrands : List Expr) : Fresh EvalError (List Float) :=
  integrands.mapM (Expr.evaluate bindings)

end FormCalculus.Batch
