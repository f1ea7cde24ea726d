import FormCalculus.Build.Product

/-!
Scalar expressions in the entries of a matrix without free indices, and the checks that the
closed forms share.
-/
set_option autoImplicit false

namespace FormCalculus

/-- A product of matrix entries, each given by row and column, with a sign. -/
structure Monomial where
  negative : Bool
  cells : List (Nat × Nat)

/-- A sum of signed products of matrix entries. -/
abbrev Polynomial := List Monomial

namespace Monomial

def plus (cells : List (Nat × Nat)) : Monomial := ⟨false, cells⟩

def minus (cells : List (Nat × Nat)) : Monomial := ⟨true, cells⟩

end Monomial

namespace Formula

/-- Refuses an operand with free indices. -/
def expectIndexFree (formula : Formula) (a : Expr) : Except LoweringError Unit :=
  if a.free.isEmpty then .ok () else .error (.freeIndices formula a)

/-- The shape of a matrix. -/
def matrixShape (formula : Formula) (a : Expr) : Except LoweringError (Nat × Nat) :=
  match a.shape with
  | [m, n] => .ok (m, n)
  | shape => .error (.unsupportedShape formula shape)

/-- The dimension of a square matrix without free indices. -/
def squareDim (formula : Formula) (a : Expr) : Except LoweringError Nat := do
  let (m, n) ← formula.matrixShape a
  if m ≠ n then throw (.notSquare a.shape)
  formula.expectIndexFree a
  return m

end Formula

namespace Expr

variable [Folding]

/-- The entry of a matrix at a row and a column. -/
def entry (a : Expr) (row column : Nat) : Except BuildError Expr := a.component [row, column]

/-- Multiplies by further entries, from left to right. -/
def timesEntries (a factor : Expr) : List (Nat × Nat) → Except BuildError Expr
  | [] => .ok factor
  | (row, column) :: cells => do
      timesEntries a (← contractedProduct factor (← a.entry row column)) cells

/-- The product of a monomial. The sign of one that leads a sum goes to its first factor. -/
def monomial (a : Expr) (leading : Bool) (term : Monomial) : Except BuildError Expr :=
  match term.cells with
  | [] => .ok (int 1)
  | (row, column) :: cells => do
      let first ← a.entry row column
      timesEntries a (← if leading && term.negative then scalarNeg first else pure first) cells

/-- Adds or subtracts the products of further monomials. -/
def addMonomials (a total : Expr) : Polynomial → Except BuildError Expr
  | [] => .ok total
  | term :: rest => do
      let product ← a.monomial false term
      addMonomials a (← if term.negative then total.scalarSub product else total.add product) rest

/-- The value of a polynomial in the entries of `a`. -/
def polynomial (a : Expr) : Polynomial → Except BuildError Expr
  | [] => .ok zero
  | first :: rest => do addMonomials a (← a.monomial true first) rest

/-- The matrix of the values of polynomials in the entries of `a`. -/
def polynomialMatrix (a : Expr) (rows : List (List Polynomial)) : Except BuildError Expr := do
  matrix (← rows.mapM fun row => row.mapM a.polynomial)

end Expr

end FormCalculus
