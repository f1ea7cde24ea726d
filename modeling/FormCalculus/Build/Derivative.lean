import FormCalculus.Build.Product
import FormCalculus.Expr.Traversal

/-!
Derivatives, conditions, restrictions to a side of a facet, and labelled expressions.
-/
set_option autoImplicit false

namespace FormCalculus

namespace Terminal

/-- Dimension of the domain that a terminal lives on. -/
def gdim? : Terminal → Option Nat
  | .argument a => some a.space.gdim
  | .coefficient c => some c.space.gdim
  | .coordinate gdim => some gdim
  | _ => none

end Terminal

namespace Expr

/-- A node of one operand with the free indices of the operand. -/
def unary (op : Operator) (operand : Expr) (shape : Shape) : Expr :=
  .node op [operand] shape operand.free

/-- Dimension of the domain of the first terminal that has one. -/
def geometricDimension (e : Expr) : Except BuildError Nat :=
  let dims := e.distinctNodes.findSome? fun node =>
    match node with
    | .terminal data => data.gdim?
    | _ => none
  match dims with
  | some gdim => .ok gdim
  | none => .error (.noGeometricDimension e)

/-- Gradient, with one more axis for the direction. -/
def grad (f : Expr) : Except BuildError Expr := do
  let gdim ← f.geometricDimension
  let shape := f.shape ++ [gdim]
  if f.isZero then return zeros shape f.free
  return unary .grad f shape

/-- Divergence along the last axis. -/
def div (f : Expr) : Except BuildError Expr :=
  if f.isScalar then .error (.invalidOperand .div (.scalarDivergence f))
  else if f.isZero then .ok (zeros f.shape.dropLast f.free)
  else .ok (unary .div f f.shape.dropLast)

/-- Shape of the curl of a scalar, a 2-vector or a 3-vector. -/
def curlShape (op : Construction) (f : Expr) : Except BuildError Shape :=
  match f.shape with
  | [] => .ok [2]
  | [2] => .ok []
  | [3] => .ok [3]
  | shape => .error (.invalidOperand op (.noCurl shape))

def curl (f : Expr) : Except BuildError Expr := do return unary .curl f (← curlShape .curl f)

def rot (f : Expr) : Except BuildError Expr := do return unary .rot f (← curlShape .rot f)

/-- Derivative along the listed coordinate directions. -/
def spatialDerivative (f : Expr) (items : List IndexItem) : Except BuildError Expr := do
  if items.isEmpty then return f
  let gdim ← f.geometricDimension
  let free ← f.free.subscribe f items (items.map fun _ => gdim)
  return .node .spatialDerivative [f, multiIndex items] f.shape free

/-- Derivative with respect to a labelled expression. -/
def variableDerivative (f v : Expr) : Except BuildError Expr := do
  if v.kind ≠ .labelled then throw (.invalidOperand .variableDerivative (.notLabelled v))
  if !v.free.isEmpty then throw (.invalidOperand .variableDerivative (.indexedVariable v))
  return .node .variableDerivative [f, v] (f.shape ++ v.shape) f.free

def restricted (f : Expr) (side : Side) : Expr := unary (.restricted side) f f.shape

/-- The free indices of a condition, as each operand is checked. -/
def conditionFree (op : Comparison) : FreeIndices → List Expr → Except BuildError FreeIndices
  | free, [] => .ok free
  | free, operand :: rest => do
      if op.isLogical && operand.kind ≠ .condition then
        throw (.invalidOperand .condition (.notConditions op operand))
      expectScalar .condition operand
      conditionFree op (← free.join operand.free) rest

/-- Comparison of scalars, or connective of conditions. -/
def condition (op : Comparison) (operands : List Expr) : Except BuildError Expr := do
  if operands.length ≠ op.arity then throw (.arity .condition op.arity operands.length)
  return .node (.condition op) operands [] (← conditionFree op ∅ operands)

/-- One of two expressions of one type, as a condition decides. -/
def conditional (test whenTrue whenFalse : Expr) : Except BuildError Expr := do
  if test.kind ≠ .condition then throw (.invalidOperand .conditional (.notCondition test))
  expectSameShape .conditional whenTrue whenFalse
  expectSameFree .conditional whenTrue whenFalse
  return .node .conditional [test, whenTrue, whenFalse] whenTrue.shape
    (← test.free.join whenTrue.free)

/-- Gives an expression a label. -/
def withLabel (label : Label) (body : Expr) : Except BuildError Expr :=
  if body.kind = .multiIndex then .error (.invalidOperand .labelled .wrappedMultiIndex)
  else .ok (.labelled label body)

/-- Gives an expression a fresh label. -/
def named (body : Expr) : Fresh BuildError Expr := do withLabel (← Fresh.newLabel) body

end Expr

end FormCalculus
