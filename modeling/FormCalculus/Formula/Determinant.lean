import FormCalculus.Formula.Entry

/-!
Determinants of square matrices by Laplace expansion, and the pseudo-determinant of other
matrices, the square root of the determinant of the Gram matrix.
-/
set_option autoImplicit false

namespace FormCalculus

namespace Expr

variable [Folding]

/-- The cross product of two 3-vectors. -/
def crossFormula (a b : Expr) : Except LoweringError Expr := do
  for v in [a, b] do
    if v.shape ≠ [3] then throw (.unsupportedShape .cross v.shape)
    Formula.cross.expectIndexFree v
  let minor (i j : Nat) : Except BuildError Expr := do
    let left ← contractedProduct (← a.component [i]) (← b.component [j])
    let right ← contractedProduct (← a.component [j]) (← b.component [i])
    left.scalarSub right
  (do vector [← minor 1 2, ← minor 2 0, ← minor 0 1]).mapError .build

/-- Determinant of the matrix of two rows and two columns of `a`. -/
def minorPair (a : Expr) (r s c d : Nat) : Except BuildError Expr := do
  let diagonal ← contractedProduct (← a.entry r c) (← a.entry s d)
  let other ← contractedProduct (← a.entry r d) (← a.entry s c)
  diagonal.scalarSub other

/-- Determinant of the matrix that the given rows and columns of `a` make, expanded along the
first row; of no rows, it is one. -/
def laplace (a : Expr) : (rows columns : List Nat) → Except BuildError Expr
  | [], _ => .ok (int 1)
  | row :: rows, columns =>
      match rows, columns with
      | [next], [c, d] => a.minorPair row next c d
      | _, _ =>
          columns.zipIdx.foldlM (fun total (column, place) => do
            let sign := int (if place % 2 = 0 then 1 else -1)
            let signed ← contractedProduct sign (← a.entry row column)
            let cofactor ← laplace a rows (columns.eraseIdx place)
            total.add (← contractedProduct signed cofactor)) zero

/-- Determinant of a square matrix of one or more rows; zero, whatever its size, has none. -/
def squareDeterminant (a : Expr) : Except LoweringError Expr :=
  if a.isZero then .ok zero
  else do
    let n ← Formula.determinant.squareDim a
    if n = 0 then throw .emptyDeterminant
    if n = 1 then return ← (a.entry 0 0).mapError .build
    (a.laplace (List.range n) (List.range n)).mapError .build

/-- The matrix of products of the columns of `a` with each other. -/
def gramMatrix (a : Expr) : Fresh BuildError Expr := do
  let i ← Fresh.newIndex
  let j ← Fresh.newIndex
  let k ← Fresh.newIndex
  let product ← contractedProduct (← a.indexBy [k, i]) (← a.indexBy [k, j])
  asTensor product [i, j]

/-- The column of a matrix, by a fresh index. -/
def columnAt (a : Expr) (column : Nat) : Fresh BuildError (Index × Expr) := do
  let i ← Fresh.newIndex
  return (i, ← a.index [.free i, .fixed column])

/-- Square root of the product of an indexed scalar with itself. -/
def norm (component : Expr) : Except BuildError Expr := do
  (← contractedProduct component component).sqrt

/-- Pseudo-determinant of a matrix: the length of a single column, the area of two columns in
three dimensions, and the root of the Gram determinant otherwise. -/
def pseudoDeterminantFormula (a : Expr) : Fresh LoweringError Expr := do
  let (m, n) ← Formula.pseudoDeterminant.matrixShape a
  Formula.pseudoDeterminant.expectIndexFree a
  if n = 1 then
    let (_, column) ← Fresh.mapError .build (a.columnAt 0)
    return ← Fresh.mapError .build column.norm
  if n = 2 ∧ m = 3 then
    let vectorAt (column : Nat) : Fresh BuildError Expr := do
      let (i, component) ← a.columnAt column
      asTensor component [i]
    let first ← Fresh.mapError .build (vectorAt 0)
    let second ← Fresh.mapError .build (vectorAt 1)
    let normal ← crossFormula first second
    let i ← Fresh.newIndex
    let component ← Fresh.mapError .build (normal.indexBy [i])
    return ← Fresh.mapError .build component.norm
  let gram ← Fresh.mapError .build a.gramMatrix
  let determinant ← gram.squareDeterminant
  Fresh.mapError .build determinant.sqrt

/-- Determinant of a square matrix, pseudo-determinant of another one; a scalar is its own. -/
def determinantFormula (a : Expr) : Fresh LoweringError Expr :=
  if a.isZero then pure zero
  else
    match a.shape with
    | [] => pure a
    | [m, n] => if m = n then a.squareDeterminant else a.pseudoDeterminantFormula
    | shape => throw (.unsupportedShape .determinant shape)

end Expr

end FormCalculus
