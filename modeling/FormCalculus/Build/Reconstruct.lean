import FormCalculus.Build.Algebra

/-!
Building a node of a given operator from new operands. The simplifications of the constructors
apply, so the result may be of another kind. Products and subscripts are built without summing
shared indices, since their index sums are nodes of their own.
-/
set_option autoImplicit false

namespace FormCalculus

variable [Folding]

namespace Expr

/-- The items of a multi-index operand. -/
def expectItems (op : Construction) (e : Expr) : Except BuildError (List IndexItem) :=
  match e.multiIndex? with
  | some items => .ok items
  | none => .error (.invalidOperand op (.notMultiIndex e))

/-- The items of a multi-index operand, all of them indices. -/
def expectIndices (op : Construction) (e : Expr) : Except BuildError (List Index) := do
  let items ← e.expectItems op
  items.mapM fun item =>
    match item.free? with
    | some index => .ok index
    | none => .error (.expectedFreeIndex op)

end Expr

namespace Operator

/-- The node of an operator over operands of its arity. Takes no fresh index. -/
def assemble : Operator → List Expr → Except BuildError Expr
  | .sum, [a, b] => a.add b
  | .product, [a, b] => a.scalarProduct b
  | .division, [a, b] => a.scalarQuotient b
  | .power, [a, b] => a.pow b
  | .sqrt, [a] => a.sqrt
  | .indexed, [a, ii] => do a.subscript (← ii.expectItems .indexed)
  | .indexSum, [a, ii] => do
      match ← ii.expectIndices .indexSum with
      | [index] => a.indexSum index
      | _ => throw (.invalidOperand .indexSum (.notOneIndex ii))
  | .componentTensor, [a, ii] => do a.asTensor (← ii.expectIndices .componentTensor)
  | .listTensor, entries => Expr.listTensor entries
  | .conditional, [test, whenTrue, whenFalse] => test.conditional whenTrue whenFalse
  | .condition op, operands => Expr.condition op operands
  | .grad, [f] => f.grad
  | .div, [f] => f.div
  | .curl, [f] => f.curl
  | .rot, [f] => f.rot
  | .spatialDerivative, [f, ii] => do f.spatialDerivative (← ii.expectItems .spatialDerivative)
  | .variableDerivative, [f, v] => f.variableDerivative v
  | .restricted side, [f] => .ok (f.restricted side)
  | .transposed, [a] => a.transposed
  | .inner, [a, b] => a.innerNode b
  | .outer, [a, b] => a.outerNode b
  | .dot, [a, b] => a.dotNode b
  | .cross, [a, b] => a.cross b
  | .trace, [a] => a.trace
  | .skew, [a] => a.skew
  | .determinant, [a] => a.determinant
  | .inverse, [a] => a.inverse
  | .cofactor, [a] => a.cofactor
  | .deviatoric, [a] => a.deviatoric
  | op, operands => .error (.arity op.kind op.arity operands.length)

/-- As `assemble`; products of tensors with scalars are written in components. -/
def build : Operator → List Expr → Fresh BuildError Expr
  | .inner, [a, b] => a.inner b
  | .outer, [a, b] => a.outer b
  | .dot, [a, b] => a.dot b
  | op, operands => op.assemble operands

end Operator

namespace Expr

/-- The expression with new operands in place of its own; a terminal has none. -/
def reconstruct (e : Expr) (operands : List Expr) : Fresh BuildError Expr := do
  if operands.length ≠ e.operands.length then
    throw (.arity e.kind e.operands.length operands.length)
  match e, operands with
  | .node op .., operands => op.build operands
  | .labelled label _, [body] => withLabel label body
  | _, _ => return e

end Expr

end FormCalculus
