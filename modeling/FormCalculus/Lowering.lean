import FormCalculus.Formula.Deviatoric
import FormCalculus.Formula.Inverse
import FormCalculus.Rewrite

/-!
Rewriting of compound tensor algebra into index notation: every compound operator becomes an
expression of subscripts, arithmetic, tensor constructors and derivatives of components.
-/
set_option autoImplicit false

namespace FormCalculus

variable [Folding]

namespace Expr

/-- `A[i, j]` as the tensor over `j` and `i`. -/
def lowerTransposed (a : Expr) : Fresh BuildError Expr := do
  let i ← Fresh.newIndex
  let j ← Fresh.newIndex
  asTensor (← a.indexBy [i, j]) [j, i]

/-- Components of one tensor times those of the other, summed. -/
def lowerInner (a b : Expr) : Fresh BuildError Expr := do
  let indices ← Fresh.newIndices a.rank
  contractedProduct (← a.indexBy indices) (← b.indexBy indices)

/-- Components of one tensor times those of the other, over the indices of both. -/
def lowerOuter (a b : Expr) : Fresh BuildError Expr := do
  let left ← Fresh.newIndices a.rank
  let right ← Fresh.newIndices b.rank
  asTensor (← contractedProduct (← a.indexBy left) (← b.indexBy right)) (left ++ right)

/-- The diagonal, summed. -/
def lowerTrace (a : Expr) : Fresh BuildError Expr := do
  let i ← Fresh.newIndex
  a.indexBy [i, i]

/-- Half the difference of a matrix and its mirror image. -/
def lowerSkew (a : Expr) : Fresh BuildError Expr := do
  let i ← Fresh.newIndex
  let j ← Fresh.newIndex
  let difference ← scalarSub (← a.indexBy [i, j]) (← a.indexBy [j, i])
  asTensor (← difference.scalarQuotient (int 2)) [i, j]

/-- Derivative in one direction; a direction that is free in `f` is summed over. -/
def derivativeAlong (f : Expr) (item : IndexItem) : Except BuildError Expr := do
  let derivative ← f.spatialDerivative [item]
  match item with
  | .free index => if f.free.contains index then derivative.indexSum index else return derivative
  | .fixed _ => return derivative

/-- Derivatives of the components along the last axis, each in its direction, summed. -/
def lowerDivergence (a : Expr) : Fresh BuildError Expr := do
  let indices ← Fresh.newIndices (a.rank - 1)
  let i ← Fresh.newIndex
  let component ← a.indexBy (indices ++ [i])
  asTensor (← component.derivativeAlong (.free i)) indices

/-- Derivative of a component in a direction. -/
def crossDerivative (a : Expr) (component direction : Nat) : Except BuildError Expr := do
  (← a.component [component]).derivativeAlong (.fixed direction)

/-- Derivative of the component `j` along `i` less that of `i` along `j`. -/
def rotation (a : Expr) (i j : Nat) : Except BuildError Expr := do
  scalarSub (← a.crossDerivative j i) (← a.crossDerivative i j)

/-- Curl of a scalar, a 2-vector or a 3-vector by derivatives of its components. -/
def lowerCurl (a : Expr) : Except BuildError Expr :=
  match a.shape with
  | [] => do vector [← a.derivativeAlong (.fixed 1), ← scalarNeg (← a.derivativeAlong (.fixed 0))]
  | [2] => a.rotation 0 1
  | [3] => do vector [← a.rotation 1 2, ← a.rotation 2 0, ← a.rotation 0 1]
  | shape => throw (.invalidOperand .curl (.noCurl shape))

end Expr

/-- A pass that lowers compound operators. -/
abbrev LoweringRule := Rule (Fresh TransformError) Expr

namespace Lowering

/-- A rule from a construction over one operand. -/
def unary (lower : Expr → Fresh BuildError Expr) : LoweringRule := fun e operands =>
  match operands with
  | [a] => Fresh.mapError .build (lower a)
  | _ => e.reuse operands

/-- A rule from a construction over two operands. -/
def binary (lower : Expr → Expr → Fresh BuildError Expr) : LoweringRule := fun e operands =>
  match operands with
  | [a, b] => Fresh.mapError .build (lower a b)
  | _ => e.reuse operands

/-- A rule from a closed form of one operand. -/
def unaryFormula (formula : Expr → Fresh LoweringError Expr) : LoweringRule := fun e operands =>
  match operands with
  | [a] => Fresh.mapError .lowering (formula a)
  | _ => e.reuse operands

/-- A rule from a closed form of two operands. -/
def binaryFormula (formula : Expr → Expr → Fresh LoweringError Expr) : LoweringRule :=
  fun e operands =>
    match operands with
    | [a, b] => Fresh.mapError .lowering (formula a b)
    | _ => e.reuse operands

def rules : Rules (Fresh TransformError) Expr :=
  Rules.reusing
    |>.on .transposed (unary Expr.lowerTransposed)
    |>.on .inner (binary Expr.lowerInner)
    |>.on .outer (binary Expr.lowerOuter)
    |>.on .dot (binary Expr.contract)
    |>.on .cross (binaryFormula fun a b => a.crossFormula b)
    |>.on .trace (unary Expr.lowerTrace)
    |>.on .skew (unary Expr.lowerSkew)
    |>.on .determinant (unaryFormula Expr.determinantFormula)
    |>.on .inverse (unaryFormula Expr.inverseFormula)
    |>.on .cofactor (unaryFormula fun a => a.cofactorFormula)
    |>.on .deviatoric (unaryFormula fun a => a.deviatoricFormula)
    |>.on .div (unary Expr.lowerDivergence)
    |>.onEach [.curl, .rot] (unary fun a => a.lowerCurl)

end Lowering

namespace Expr

/-- Lowers every compound operator, operands before the nodes that use them. -/
def lower (e : Expr) : Fresh TransformError Expr := e.transform Lowering.rules

end Expr

end FormCalculus
