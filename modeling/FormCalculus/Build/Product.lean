import FormCalculus.Build.Indexing

/-!
Products and quotients of tensors, written in components over fresh indices.
-/
set_option autoImplicit false

namespace FormCalculus

namespace Expr

variable [Folding]

/-- Product of two scalars, summed over the indices free in both. -/
def contractedProduct (a b : Expr) : Except BuildError Expr := do
  let repeated := (a.free.repeated b.free).map (·.1)
  (← scalarProduct a b).indexSums repeated

/-- A tensor times a scalar, component by component. -/
def scale (tensor factor : Expr) : Fresh BuildError Expr := do
  let indices ← Fresh.newIndices tensor.rank
  let component ← contractedProduct factor (← tensor.indexBy indices)
  asTensor component indices

/-- Product of two tensors summed over the last axis of `a` and the first axis of `b`. The
product under the sum is one of scalars. -/
def contract (a b : Expr) : Fresh BuildError Expr := do
  match b.shape with
  | first :: _ =>
      if a.shape.getLastD 0 ≠ first then throw (.shapeMismatch .contraction a.shape b.shape)
  | [] => throw (.shapeMismatch .contraction a.shape b.shape)
  let rows ← Fresh.newIndices (a.rank - 1)
  let columns ← Fresh.newIndices (b.rank - 1)
  let inner ← Fresh.newIndex
  let left ← a.indexBy (rows ++ [inner])
  let right ← b.indexBy (inner :: columns)
  asTensor (← contractedProduct left right) (rows ++ columns)

/-- Product: of scalars with their shared indices summed, of a scalar and a tensor in either
order, of a matrix with a vector or a matrix. -/
def mul (a b : Expr) : Fresh BuildError Expr :=
  match a.rank, b.rank with
  | 0, 0 => contractedProduct a b
  | 0, _ => scale b a
  | _, 0 => scale a b
  | 2, 1 | 2, 2 => contract a b
  | _, _ => throw (.invalidOperand .product (.ranks a.shape b.shape))

def neg (e : Expr) : Fresh BuildError Expr := mul (int (-1)) e

def sub (a b : Expr) : Fresh BuildError Expr := do add a (← neg b)

/-- Division by a scalar, of a tensor component by component. -/
def divide (a b : Expr) : Fresh BuildError Expr := do
  expectScalar .division b
  if a.isScalar then return ← scalarQuotient a b
  let indices ← Fresh.newIndices a.rank
  asTensor (← scalarQuotient (← a.indexBy indices) b) indices

/-- The opposite of a scalar. -/
def scalarNeg (e : Expr) : Except BuildError Expr := contractedProduct (int (-1)) e

/-- Difference of two scalars. -/
def scalarSub (a b : Expr) : Except BuildError Expr := do add a (← scalarNeg b)

end Expr

end FormCalculus
