import FormCalculus.Expr.Canonical
import FormCalculus.Rewrite.Substitution
import FormCalculus.Evaluation.Display
import FormCalculus.Batch
import FormCalculus.Proofs.LoweringValue
import FormCalculus.Proofs.NamedOnce
import FormCalculus.Proofs.StrippingMarked
import FormCalculus.Proofs.EvaluatingMarked
import FormCalculus.Proofs.Rebuilding
import FormCalculus.Proofs.Obtainable
import FormCalculus.Proofs.Reusing
import FormCalculus.Proofs.SoleBodies
import FormCalculus.Proofs.Multilinearity
import FormCalculus.Proofs.Monomials
import FormCalculus.Proofs.ExpandingDependencies
import FormCalculus.Proofs.VisitingOnce
import FormCalculus.Proofs.EvaluatingBound
import FormCalculus.Proofs.ExpandingRefusals
import FormCalculus.Proofs.ExpandingStripped
import FormCalculus.Proofs.InverseFormulas
import FormCalculus.Proofs.TotalOrder
import FormCalculus.Proofs.AnySupply
import FormCalculus.Proofs.BindingIndices
import FormCalculus.Proofs.PseudoDeterminant
import FormCalculus.Proofs.ProductValue
import FormCalculus.Proofs.ExpandedForms
import FormCalculus.Proofs.ExpandingComponents
import FormCalculus.Proofs.ExpandingTwice
import FormCalculus.Proofs.NamingTwice
import FormCalculus.Proofs.CollectingInOrder
import FormCalculus.Proofs.StrippingAll
import FormCalculus.Proofs.FormulaOutcomes
import FormCalculus.Proofs.EitherOrder
import FormCalculus.Proofs.FoldingIntegers
import FormCalculus.Proofs.NormalForms
import FormCalculus.Proofs.TreeWalks
import FormCalculus.Proofs.FactorOrder
import FormCalculus.Proofs.IndexMaps
