import FormCalculus.Build.Constant
import FormCalculus.Expr.Order

/-!
Sums, and the arithmetic of scalars. Zero vanishes from sums and absorbs products, constants
fold, units disappear, and the operands of sums and products are sorted.
-/
set_option autoImplicit false

namespace FormCalculus

/-- Checks that the constructions have in common. -/
def expectScalar (op : Construction) (e : Expr) : Except BuildError Unit :=
  if e.isScalar then .ok () else .error (.expectedScalar op e)

def expectSameShape (op : Construction) (a b : Expr) : Except BuildError Unit :=
  if a.shape = b.shape then .ok () else .error (.shapeMismatch op a.shape b.shape)

def expectSameFree (op : Construction) (a b : Expr) : Except BuildError Unit :=
  if a.free = b.free then .ok () else .error (.freeIndexMismatch op a.free b.free)

namespace FreeIndices

/-- Union in a node: shared indices have to agree on their dimension. -/
def join (a b : FreeIndices) : Except BuildError FreeIndices :=
  (a.union b).mapError .dimensionConflict

/-- Adds an index to the free indices of a node. -/
def extend (set : FreeIndices) (index : Index) (dim : Nat) : Except BuildError FreeIndices :=
  (set.insert index dim).mapError .dimensionConflict

end FreeIndices

namespace Expr

variable [Folding]

/-- Sum of two expressions of one shape with the same free indices. -/
def add (a b : Expr) : Except BuildError Expr := do
  expectSameShape .sum a b
  expectSameFree .sum a b
  if a.isZero then return b
  if b.isZero then return a
  match fold? .addition a b with
  | some folded => return folded
  | none => return .node .sum (sortedPair a b) a.shape a.free

/-- Product of two scalars, with shared indices left free. -/
def scalarProduct (a b : Expr) : Except BuildError Expr := do
  expectScalar .product a
  expectScalar .product b
  let free ← a.free.join b.free
  if a.isZero || b.isZero then return zeros [] free
  match fold? .multiplication a b with
  | some folded => return folded
  | none =>
      if a.isOne then return b
      if b.isOne then return a
      return .node .product (sortedPair a b) [] free

/-- Quotient of two scalars, with shared indices left free. -/
def scalarQuotient (a b : Expr) : Except BuildError Expr := do
  expectScalar .division a
  expectScalar .division b
  if b.isZero then throw (.invalidOperand .division (.zeroDivisor a))
  let free ← a.free.join b.free
  if a.isZero then return zeros [] free
  match fold? .division a b with
  | some folded => return folded
  | none =>
      if b.isOne then return a
      return .node .division [a, b] [] free

/-- Power of scalars; the exponent has no free indices. -/
def pow (base exponent : Expr) : Except BuildError Expr := do
  expectScalar .power base
  expectScalar .power exponent
  if !exponent.free.isEmpty then throw (.invalidOperand .power (.indexedExponent exponent))
  if exponent.isOne then return base
  match fold? .exponentiation base exponent with
  | some folded => return folded
  | none => return .node .power [base, exponent] [] base.free

/-- Square root of a scalar; a constant that is not negative has its root computed. -/
def sqrt (e : Expr) : Except BuildError Expr := do
  expectScalar .sqrt e
  if e.isZero then return e
  match e.foldRoot? with
  | some root => return root
  | none => return .node .sqrt [e] [] e.free

end Expr

end FormCalculus
