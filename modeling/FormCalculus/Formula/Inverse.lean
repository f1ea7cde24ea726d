import FormCalculus.Build.Algebra
import FormCalculus.Formula.Adjugate
import FormCalculus.Formula.Determinant

/-!
Inverses of square matrices, and the Moore-Penrose inverse of other matrices.
-/
set_option autoImplicit false

namespace FormCalculus

namespace Expr

variable [Folding]

/-- Inverse of a square matrix of one row, or of two to four: the adjugate over the determinant. -/
def squareInverse (a : Expr) : Fresh LoweringError Expr := do
  Formula.inverse.expectIndexFree a
  if a.shape.headD 0 = 1 then
    return ← Fresh.mapError .build do
      let reciprocal ← scalarQuotient one (← a.entry 0 0)
      matrix [[reciprocal]]
  let adjugate ← a.adjugateFormula
  let determinant ← a.squareDeterminant
  Fresh.mapError .build (adjugate.divide determinant)

/-- Moore-Penrose inverse of a matrix with independent columns: the transposed matrix times the
inverse of the Gram matrix, from the left. -/
def pseudoInverseFormula (a : Expr) : Fresh LoweringError Expr := do
  let (_, n) ← Formula.pseudoInverse.matrixShape a
  Formula.pseudoInverse.expectIndexFree a
  if n = 1 then
    Fresh.mapError .build do
      let i ← Fresh.newIndex
      let j ← Fresh.newIndex
      let k ← Fresh.newIndex
      let transposed ← asTensor (← a.indexBy [i, j]) [j, i]
      let column ← a.index [.free k, .fixed 0]
      transposed.divide (← contractedProduct column column)
  else
    let gram ← Fresh.mapError .build a.gramMatrix
    let inverse ← gram.squareInverse
    Fresh.mapError .build do
      let q ← Fresh.newIndex
      let r ← Fresh.newIndex
      let s ← Fresh.newIndex
      let product ← contractedProduct (← inverse.indexBy [r, q]) (← a.indexBy [s, q])
      asTensor product [r, s]

/-- Inverse of a square matrix, pseudo-inverse of another one, reciprocal of a scalar. -/
def inverseFormula (a : Expr) : Fresh LoweringError Expr :=
  match a.shape with
  | [] => Fresh.mapError .build (scalarQuotient one a)
  | [m, n] => if m = n then a.squareInverse else a.pseudoInverseFormula
  | shape => throw (.unsupportedShape .inverse shape)

end Expr

end FormCalculus
