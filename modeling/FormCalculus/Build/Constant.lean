import FormCalculus.Error

/-!
Terminals, and arithmetic on constants. Whole numbers stay whole as long as the result is one
and fits in 64 bits; otherwise a constant is computed in double precision.
-/
set_option autoImplicit false

namespace FormCalculus

namespace Expr

/-- Zero of the given shape and free indices. -/
def zeros (shape : Shape) (free : FreeIndices) : Expr := .terminal (.zero shape free)

def zero : Expr := zeros [] ∅

/-- A whole number; the number zero is the zero expression. -/
def int (value : Int64) : Expr := if value = 0 then zero else .terminal (.int value)

/-- A double; zero of either sign is the zero expression. -/
def real (value : Binary64) : Expr := if value.isZero then zero else .terminal (.real value)

def identity (dim : Nat) : Expr := .terminal (.identity dim)

def argument (number : Nat) (space : FunctionSpace) (part : Option Nat) : Expr :=
  .terminal (.argument ⟨number, part, space⟩)

/-- A new coefficient. -/
def coefficient {ε : Type} (space : FunctionSpace) : Fresh ε Expr := do
  return .terminal (.coefficient ⟨← Fresh.newCoefficient, space⟩)

def coordinate (gdim : Nat) : Expr := .terminal (.coordinate gdim)

def labelTerminal (label : Label) : Expr := .terminal (.label label)

def multiIndex (items : List IndexItem) : Expr := .terminal (.multiIndex items)

end Expr

/-- A scalar constant. -/
inductive Constant where
  | zero
  | int (value : Int64)
  | real (value : Binary64)
deriving DecidableEq

namespace Constant

/-- The value in double precision. -/
def toBinary64 : Constant → Binary64
  | .zero => Binary64.ofFloat 0
  | .int value => Binary64.ofInt value.toInt
  | .real value => value

/-- Whether the constant is one, the unit of products and exponents. -/
def isOne : Constant → Bool
  | .zero => false
  | .int value => value = 1
  | .real value => value.isOne

/-- A whole number as a 64 bit one, if it fits. -/
def fit (n : Int) : Option Int64 :=
  if Int64.minValue.toInt ≤ n ∧ n ≤ Int64.maxValue.toInt then some (Int64.ofInt n) else none

/-- The constant that a whole number is. -/
def ofInt (value : Int64) : Constant := if value = 0 then .zero else .int value

/-- The constant that a double is; zero of either sign is the constant zero. -/
def ofReal (value : Binary64) : Constant := if value.isZero then .zero else .real value

/-- A power of whole numbers, if it fits. A base of two or more and an exponent of 64 or more
never give one that does, so no large power is computed. -/
def exactPower (x y : Int) : Option Int64 :=
  if y < 0 ∨ 0x100000000 ≤ y then none
  else if x = 0 then some (if y = 0 then 1 else 0)
  else if x = 1 then some 1
  else if x = -1 then some (if y % 2 = 0 then 1 else -1)
  else if 64 ≤ y then none
  else fit (x.pow y.toNat)

/-- The operations that make one constant of two. -/
inductive Operation where
  | addition
  | multiplication
  | division
  | exponentiation
deriving DecidableEq

namespace Operation

/-- On whole numbers, where the result is one that fits; division where nothing is left over. -/
def exact : Operation → Int → Int → Option Int64
  | .addition, x, y => fit (x + y)
  | .multiplication, x, y => fit (x * y)
  | .division, x, y => if x % y = 0 then fit (x / y) else none
  | .exponentiation, x, y => exactPower x y

/-- On doubles. -/
def approximate : Operation → Float → Float → Float
  | .addition => (· + ·)
  | .multiplication => (· * ·)
  | .division => (· / ·)
  | .exponentiation => Float.pow

/-- Two constants make one: exactly if one of them is a whole number other than zero, the other
a whole number, and the exact result exists; in double precision otherwise. -/
def apply (op : Operation) (a b : Constant) : Constant :=
  let exact := match a, b with
    | .int x, .int y => op.exact x.toInt y.toInt
    | .int x, .zero => op.exact x.toInt 0
    | .zero, .int y => op.exact 0 y.toInt
    | _, _ => none
  match exact with
  | some value => ofInt value
  | none => ofReal (Binary64.combine op.approximate a.toBinary64 b.toBinary64)

end Operation

/-- The square root in double precision, of a constant that has one. -/
def root? (c : Constant) : Option Constant :=
  let value := c.toBinary64.toFloat
  if value ≥ 0 then some (ofReal (.ofFloat value.sqrt)) else none

def toExpr : Constant → Expr
  | .zero => .zero
  | .int value => .terminal (.int value)
  | .real value => .terminal (.real value)

end Constant

namespace Expr

/-- The constant that a scalar is, zero with free indices included. -/
def constant? : Expr → Option Constant
  | .terminal (.zero [] _) => some .zero
  | .terminal (.int value) => some (.int value)
  | .terminal (.real value) => some (.real value)
  | _ => none

/-- The value of a scalar constant. -/
def scalarValue? (e : Expr) : Option Float := e.constant?.map fun c => c.toBinary64.toFloat

def isOne (e : Expr) : Bool := e.constant?.any Constant.isOne

end Expr

/-- Which constants are worked out while an expression is built, and to what. What is left open
stays a node. -/
class Folding where
  fold? : Constant.Operation → Constant → Constant → Option Constant
  root? : Constant → Option Constant

/-- Everything that can be worked out is. -/
instance Folding.eager : Folding := ⟨fun op a b => some (op.apply a b), Constant.root?⟩

namespace Expr

variable [Folding]

/-- Folds two constants into one. -/
def fold? (op : Constant.Operation) (a b : Expr) : Option Expr := do
  return (← Folding.fold? op (← a.constant?) (← b.constant?)).toExpr

/-- The square root of a constant. -/
def foldRoot? (e : Expr) : Option Expr := do return (← Folding.root? (← e.constant?)).toExpr

end Expr

end FormCalculus
