import FormCalculus.Build.Derivative

/-!
Compound tensor algebra, and the rebuilding of a node from new operands.
-/
set_option autoImplicit false

namespace FormCalculus

namespace FreeIndices

/-- Union of the free indices of two factors that may not share one. -/
def joinDisjoint (op : Construction) (a b : Expr) : Except BuildError FreeIndices :=
  match a.free.repeated b.free with
  | [] => a.free.join b.free
  | shared => .error (.invalidOperand op (.sharedIndices (shared.map (·.1)) a b))

end FreeIndices

namespace Expr

variable [Folding]

/-- Checks for a square matrix. -/
def expectSquare (op : Construction) (a : Expr) : Except BuildError Unit :=
  match a.shape with
  | [m, n] => if m = n then .ok () else .error (.invalidOperand op (.notSquare [m, n]))
  | shape => .error (.invalidOperand op (.notSquare shape))

/-- A product node of two tensors; zero if one of them is. -/
def binary (kind : Operator) (op : Construction) (a b : Expr) (shape : Shape) :
    Except BuildError Expr := do
  let free ← FreeIndices.joinDisjoint op a b
  if a.isZero || b.isZero then return zeros shape free
  return .node kind [a, b] shape free

def transposed (a : Expr) : Except BuildError Expr :=
  match a.shape with
  | [m, n] => .ok (unary .transposed a [n, m])
  | shape => .error (.invalidOperand .transposed (.notMatrix shape))

/-- Contraction of two tensors of one shape along all axes. -/
def innerNode (a b : Expr) : Except BuildError Expr := do
  expectSameShape .inner a b
  binary .inner .inner a b []

def outerNode (a b : Expr) : Except BuildError Expr :=
  binary .outer .outer a b (a.shape ++ b.shape)

/-- Contraction of the last axis of `a` with the first axis of `b`. -/
def dotNode (a b : Expr) : Except BuildError Expr := do
  if a.shape.getLastD 0 ≠ b.shape.headD 0 then throw (.shapeMismatch .dot a.shape b.shape)
  binary .dot .dot a b (a.shape.dropLast ++ b.shape.drop 1)

/-- Inner product; of scalars the product. -/
def inner (a b : Expr) : Fresh BuildError Expr := do
  expectSameShape .inner a b
  if a.isScalar then mul a b else innerNode a b

/-- Outer product; with a scalar the product. -/
def outer (a b : Expr) : Fresh BuildError Expr :=
  if a.isScalar || b.isScalar then mul a b else outerNode a b

/-- Dot product; with a scalar the product. -/
def dot (a b : Expr) : Fresh BuildError Expr :=
  if a.isScalar || b.isScalar then mul a b else dotNode a b

def cross (a b : Expr) : Except BuildError Expr := do
  if a.shape ≠ [3] ∨ b.shape ≠ [3] then throw (.shapeMismatch .cross a.shape b.shape)
  binary .cross .cross a b [3]

def trace (a : Expr) : Except BuildError Expr := do
  expectSquare .trace a
  return unary .trace a []

def skew (a : Expr) : Except BuildError Expr := do
  expectSquare .skew a
  return unary .skew a a.shape

/-- Determinant of a matrix; a scalar is its own. -/
def determinant (a : Expr) : Except BuildError Expr :=
  match a.shape with
  | [] => .ok a
  | [_, _] => .ok (unary .determinant a [])
  | shape => .error (.invalidOperand .determinant (.notScalarOrMatrix shape))

/-- The double precision number one. -/
def one : Expr := real (.ofFloat 1)

/-- Inverse of a matrix; the reciprocal of a scalar. -/
def inverse (a : Expr) : Except BuildError Expr :=
  match a.shape with
  | [] => scalarQuotient one a
  | [m, n] => .ok (unary .inverse a [n, m])
  | shape => .error (.invalidOperand .inverse (.notScalarOrMatrix shape))

def cofactor (a : Expr) : Except BuildError Expr := do
  expectSquare .cofactor a
  return unary .cofactor a a.shape

def deviatoric (a : Expr) : Except BuildError Expr := do
  expectSquare .deviatoric a
  return unary .deviatoric a a.shape

end Expr

end FormCalculus
