import FormCalculus.Formula.Entry

/-!
Adjugate and cofactor matrices in two, three and four dimensions, entry by entry.
-/
set_option autoImplicit false

namespace FormCalculus

namespace Formula

open Monomial

/-- The adjugate of a 2 by 2 matrix. -/
def adjugate2 : List (List Polynomial) :=
  [[[plus [(1, 1)]],
    [minus [(0, 1)]]],
   [[minus [(1, 0)]],
    [plus [(0, 0)]]]]

/-- The adjugate of a 3 by 3 matrix. -/
def adjugate3 : List (List Polynomial) :=
  [[[plus [(2, 2), (1, 1)], minus [(1, 2), (2, 1)]],
    [minus [(0, 1), (2, 2)], plus [(0, 2), (2, 1)]],
    [plus [(0, 1), (1, 2)], minus [(0, 2), (1, 1)]]],
   [[minus [(2, 2), (1, 0)], plus [(1, 2), (2, 0)]],
    [minus [(0, 2), (2, 0)], plus [(2, 2), (0, 0)]],
    [plus [(0, 2), (1, 0)], minus [(1, 2), (0, 0)]]],
   [[plus [(1, 0), (2, 1)], minus [(2, 0), (1, 1)]],
    [plus [(0, 1), (2, 0)], minus [(0, 0), (2, 1)]],
    [plus [(0, 0), (1, 1)], minus [(0, 1), (1, 0)]]]]

/-- The adjugate of a 4 by 4 matrix. -/
def adjugate4 : List (List Polynomial) :=
  [[[minus [(3, 3), (2, 1), (1, 2)], plus [(1, 2), (3, 1), (2, 3)], plus [(1, 1), (3, 3), (2, 2)],
      minus [(3, 1), (2, 2), (1, 3)], plus [(2, 1), (1, 3), (3, 2)],
      minus [(1, 1), (3, 2), (2, 3)]],
    [minus [(3, 1), (0, 2), (2, 3)], plus [(0, 1), (3, 2), (2, 3)],
      minus [(0, 3), (2, 1), (3, 2)], plus [(3, 3), (2, 1), (0, 2)],
      minus [(3, 3), (0, 1), (2, 2)], plus [(0, 3), (3, 1), (2, 2)]],
    [plus [(3, 1), (1, 3), (0, 2)], plus [(1, 1), (0, 3), (3, 2)], minus [(0, 3), (1, 2), (3, 1)],
      minus [(0, 1), (1, 3), (3, 2)], plus [(3, 3), (1, 2), (0, 1)],
      minus [(1, 1), (3, 3), (0, 2)]],
    [plus [(1, 1), (0, 2), (2, 3)], minus [(2, 1), (1, 3), (0, 2)], plus [(0, 3), (2, 1), (1, 2)],
      minus [(1, 2), (0, 1), (2, 3)], minus [(1, 1), (0, 3), (2, 2)],
      plus [(0, 1), (2, 2), (1, 3)]]],
   [[plus [(3, 3), (1, 2), (2, 0)], minus [(3, 0), (1, 2), (2, 3)], plus [(1, 0), (3, 2), (2, 3)],
      minus [(3, 3), (1, 0), (2, 2)], minus [(1, 3), (3, 2), (2, 0)],
      plus [(3, 0), (2, 2), (1, 3)]],
    [plus [(0, 3), (3, 2), (2, 0)], minus [(0, 3), (3, 0), (2, 2)], plus [(3, 3), (0, 0), (2, 2)],
      plus [(3, 0), (0, 2), (2, 3)], minus [(0, 0), (3, 2), (2, 3)],
      minus [(3, 3), (0, 2), (2, 0)]],
    [minus [(3, 3), (0, 0), (1, 2)], plus [(0, 0), (1, 3), (3, 2)],
      minus [(3, 0), (1, 3), (0, 2)], plus [(3, 3), (1, 0), (0, 2)],
      plus [(0, 3), (3, 0), (1, 2)], minus [(0, 3), (1, 0), (3, 2)]],
    [plus [(0, 3), (1, 0), (2, 2)], plus [(1, 3), (0, 2), (2, 0)], minus [(0, 0), (2, 2), (1, 3)],
      minus [(0, 3), (1, 2), (2, 0)], plus [(0, 0), (1, 2), (2, 3)],
      minus [(1, 0), (0, 2), (2, 3)]]],
   [[plus [(3, 1), (1, 3), (2, 0)], plus [(3, 3), (2, 1), (1, 0)], plus [(1, 1), (3, 0), (2, 3)],
      minus [(1, 0), (3, 1), (2, 3)], minus [(3, 0), (2, 1), (1, 3)],
      minus [(1, 1), (3, 3), (2, 0)]],
    [plus [(3, 3), (0, 1), (2, 0)], minus [(3, 3), (0, 0), (2, 1)],
      minus [(0, 3), (3, 1), (2, 0)], minus [(3, 0), (0, 1), (2, 3)],
      plus [(0, 0), (3, 1), (2, 3)], plus [(0, 3), (3, 0), (2, 1)]],
    [minus [(0, 0), (3, 1), (1, 3)], plus [(0, 3), (1, 0), (3, 1)],
      minus [(3, 3), (1, 0), (0, 1)], plus [(1, 1), (3, 3), (0, 0)],
      minus [(1, 1), (0, 3), (3, 0)], plus [(3, 0), (0, 1), (1, 3)]],
    [plus [(0, 0), (2, 1), (1, 3)], plus [(1, 0), (0, 1), (2, 3)], minus [(0, 3), (2, 1), (1, 0)],
      plus [(1, 1), (0, 3), (2, 0)], minus [(1, 1), (0, 0), (2, 3)],
      minus [(0, 1), (1, 3), (2, 0)]]],
   [[minus [(1, 2), (3, 1), (2, 0)], minus [(2, 1), (1, 0), (3, 2)],
      plus [(3, 0), (2, 1), (1, 2)], minus [(1, 1), (3, 0), (2, 2)],
      plus [(1, 0), (3, 1), (2, 2)], plus [(1, 1), (3, 2), (2, 0)]],
    [minus [(3, 0), (2, 1), (0, 2)], minus [(0, 1), (3, 2), (2, 0)],
      plus [(3, 1), (0, 2), (2, 0)], minus [(0, 0), (3, 1), (2, 2)],
      plus [(3, 0), (0, 1), (2, 2)], plus [(0, 0), (2, 1), (3, 2)]],
    [plus [(0, 0), (1, 2), (3, 1)], minus [(1, 0), (3, 1), (0, 2)], plus [(1, 1), (3, 0), (0, 2)],
      plus [(1, 0), (0, 1), (3, 2)], minus [(3, 0), (1, 2), (0, 1)],
      minus [(1, 1), (0, 0), (3, 2)]],
    [minus [(1, 1), (0, 2), (2, 0)], plus [(2, 1), (1, 0), (0, 2)], plus [(1, 2), (0, 1), (2, 0)],
      plus [(1, 1), (0, 0), (2, 2)], minus [(1, 0), (0, 1), (2, 2)],
      minus [(0, 0), (2, 1), (1, 2)]]]]

/-- The cofactors of a 2 by 2 matrix. -/
def cofactor2 : List (List Polynomial) :=
  [[[plus [(1, 1)]],
    [minus [(1, 0)]]],
   [[minus [(0, 1)]],
    [plus [(0, 0)]]]]

/-- The cofactors of a 3 by 3 matrix. -/
def cofactor3 : List (List Polynomial) :=
  [[[plus [(1, 1), (2, 2)], minus [(2, 1), (1, 2)]],
    [plus [(2, 0), (1, 2)], minus [(1, 0), (2, 2)]],
    [minus [(2, 0), (1, 1)], plus [(1, 0), (2, 1)]]],
   [[plus [(2, 1), (0, 2)], minus [(0, 1), (2, 2)]],
    [plus [(0, 0), (2, 2)], minus [(2, 0), (0, 2)]],
    [minus [(0, 0), (2, 1)], plus [(2, 0), (0, 1)]]],
   [[plus [(0, 1), (1, 2)], minus [(1, 1), (0, 2)]],
    [plus [(1, 0), (0, 2)], minus [(0, 0), (1, 2)]],
    [minus [(1, 0), (0, 1)], plus [(0, 0), (1, 1)]]]]

/-- The cofactors of a 4 by 4 matrix. -/
def cofactor4 : List (List Polynomial) :=
  [[[minus [(3, 1), (2, 2), (1, 3)], minus [(3, 2), (2, 3), (1, 1)],
      plus [(1, 3), (3, 2), (2, 1)], plus [(3, 1), (2, 3), (1, 2)], plus [(2, 2), (1, 1), (3, 3)],
      minus [(3, 3), (2, 1), (1, 2)]],
    [minus [(1, 0), (2, 2), (3, 3)], plus [(2, 0), (3, 3), (1, 2)], plus [(2, 2), (1, 3), (3, 0)],
      minus [(2, 3), (3, 0), (1, 2)], plus [(1, 0), (3, 2), (2, 3)],
      minus [(1, 3), (3, 2), (2, 0)]],
    [plus [(1, 0), (3, 3), (2, 1)], plus [(2, 3), (1, 1), (3, 0)], minus [(2, 0), (1, 1), (3, 3)],
      minus [(1, 3), (3, 0), (2, 1)], minus [(1, 0), (3, 1), (2, 3)],
      plus [(3, 1), (1, 3), (2, 0)]],
    [plus [(3, 0), (2, 1), (1, 2)], plus [(1, 0), (3, 1), (2, 2)], plus [(3, 2), (2, 0), (1, 1)],
      minus [(2, 2), (1, 1), (3, 0)], minus [(3, 1), (2, 0), (1, 2)],
      minus [(1, 0), (3, 2), (2, 1)]]],
   [[plus [(3, 1), (2, 2), (0, 3)], plus [(0, 2), (3, 3), (2, 1)], plus [(0, 1), (3, 2), (2, 3)],
      minus [(3, 1), (0, 2), (2, 3)], minus [(0, 1), (2, 2), (3, 3)],
      minus [(3, 2), (0, 3), (2, 1)]],
    [minus [(2, 2), (0, 3), (3, 0)], minus [(0, 2), (2, 0), (3, 3)],
      minus [(3, 2), (2, 3), (0, 0)], plus [(2, 2), (3, 3), (0, 0)],
      plus [(0, 2), (2, 3), (3, 0)], plus [(3, 2), (2, 0), (0, 3)]],
    [plus [(3, 1), (2, 3), (0, 0)], minus [(0, 1), (2, 3), (3, 0)],
      minus [(3, 1), (2, 0), (0, 3)], minus [(3, 3), (0, 0), (2, 1)],
      plus [(0, 3), (3, 0), (2, 1)], plus [(0, 1), (2, 0), (3, 3)]],
    [plus [(3, 2), (0, 0), (2, 1)], minus [(0, 2), (3, 0), (2, 1)], plus [(0, 1), (2, 2), (3, 0)],
      plus [(3, 1), (0, 2), (2, 0)], minus [(0, 1), (3, 2), (2, 0)],
      minus [(3, 1), (2, 2), (0, 0)]]],
   [[plus [(3, 1), (1, 3), (0, 2)], minus [(0, 2), (1, 1), (3, 3)],
      minus [(3, 1), (0, 3), (1, 2)], plus [(3, 2), (1, 1), (0, 3)],
      plus [(0, 1), (3, 3), (1, 2)], minus [(0, 1), (1, 3), (3, 2)]],
    [plus [(1, 3), (3, 2), (0, 0)], minus [(1, 0), (3, 2), (0, 3)],
      minus [(1, 3), (0, 2), (3, 0)], plus [(0, 3), (3, 0), (1, 2)],
      plus [(1, 0), (0, 2), (3, 3)], minus [(3, 3), (0, 0), (1, 2)]],
    [minus [(1, 0), (0, 1), (3, 3)], plus [(0, 1), (1, 3), (3, 0)],
      minus [(3, 1), (1, 3), (0, 0)], minus [(1, 1), (0, 3), (3, 0)],
      plus [(1, 0), (3, 1), (0, 3)], plus [(1, 1), (3, 3), (0, 0)]],
    [plus [(0, 2), (1, 1), (3, 0)], minus [(3, 2), (1, 1), (0, 0)],
      minus [(0, 1), (3, 0), (1, 2)], minus [(1, 0), (3, 1), (0, 2)],
      plus [(3, 1), (0, 0), (1, 2)], plus [(1, 0), (0, 1), (3, 2)]]],
   [[plus [(0, 3), (2, 1), (1, 2)], plus [(0, 2), (2, 3), (1, 1)], plus [(0, 1), (2, 2), (1, 3)],
      minus [(2, 2), (1, 1), (0, 3)], minus [(1, 3), (0, 2), (2, 1)],
      minus [(0, 1), (2, 3), (1, 2)]],
    [plus [(1, 0), (2, 2), (0, 3)], plus [(1, 3), (0, 2), (2, 0)], minus [(1, 0), (0, 2), (2, 3)],
      minus [(2, 0), (0, 3), (1, 2)], minus [(2, 2), (1, 3), (0, 0)],
      plus [(2, 3), (0, 0), (1, 2)]],
    [minus [(0, 1), (1, 3), (2, 0)], plus [(2, 0), (1, 1), (0, 3)], plus [(1, 3), (0, 0), (2, 1)],
      minus [(1, 0), (0, 3), (2, 1)], plus [(1, 0), (0, 1), (2, 3)],
      minus [(2, 3), (1, 1), (0, 0)]],
    [plus [(1, 0), (0, 2), (2, 1)], minus [(0, 2), (2, 0), (1, 1)], plus [(0, 1), (2, 0), (1, 2)],
      plus [(2, 2), (1, 1), (0, 0)], minus [(1, 0), (0, 1), (2, 2)],
      minus [(0, 0), (2, 1), (1, 2)]]]]

end Formula

namespace Expr

variable [Folding]

/-- The adjugate matrix, which times `a` is the determinant of `a` times the identity. -/
def adjugateFormula (a : Expr) : Except LoweringError Expr := do
  match ← Formula.adjugate.squareDim a with
  | 2 => (a.polynomialMatrix Formula.adjugate2).mapError .build
  | 3 => (a.polynomialMatrix Formula.adjugate3).mapError .build
  | 4 => (a.polynomialMatrix Formula.adjugate4).mapError .build
  | dim => throw (.dimensionNotImplemented .adjugate dim)

/-- The matrix of cofactors. -/
def cofactorFormula (a : Expr) : Except LoweringError Expr := do
  match ← Formula.cofactor.squareDim a with
  | 2 => (a.polynomialMatrix Formula.cofactor2).mapError .build
  | 3 => (a.polynomialMatrix Formula.cofactor3).mapError .build
  | 4 => (a.polynomialMatrix Formula.cofactor4).mapError .build
  | dim => throw (.dimensionNotImplemented .cofactor dim)

end Expr

end FormCalculus
