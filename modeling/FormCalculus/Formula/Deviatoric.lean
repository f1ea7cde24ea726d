import FormCalculus.Formula.Entry

/-!
The deviatoric part of a matrix, what is left of it without its mean diagonal, in two and three
dimensions. Off the diagonal it is the matrix itself.
-/
set_option autoImplicit false

namespace FormCalculus

/-- A fraction of a diagonal entry, to be added or taken away. -/
structure DiagonalShare where
  negative : Bool
  numerator : Int
  denominator : Nat
  place : Nat

namespace Formula

/-- The shares in a diagonal entry of the deviatoric part, by the row of the entry. -/
def deviatoricDiagonal : (dim row : Nat) → List DiagonalShare
  | 2, 0 => [⟨false, -1, 2, 1⟩, ⟨false, 1, 2, 0⟩]
  | 2, 1 => [⟨false, 1, 2, 1⟩, ⟨true, 1, 2, 0⟩]
  | 3, 0 => [⟨false, -1, 3, 1⟩, ⟨true, 1, 3, 2⟩, ⟨false, 2, 3, 0⟩]
  | 3, 1 => [⟨false, 2, 3, 1⟩, ⟨true, 1, 3, 2⟩, ⟨true, 1, 3, 0⟩]
  | 3, 2 => [⟨false, -1, 3, 1⟩, ⟨false, 2, 3, 2⟩, ⟨true, 1, 3, 0⟩]
  | _, _ => []

end Formula

namespace Expr

variable [Folding]

/-- A fraction as a double. -/
def fraction (numerator : Int) (denominator : Nat) : Expr :=
  real (.ofFloat (Float.ofInt numerator / Float.ofNat denominator))

/-- A fraction of a diagonal entry. -/
def diagonalShare (a : Expr) (share : DiagonalShare) : Except BuildError Expr := do
  contractedProduct (fraction share.numerator share.denominator) (← a.entry share.place share.place)

/-- Adds the shares up; the first one is never taken away. -/
def diagonalShares (a : Expr) : List DiagonalShare → Except BuildError Expr
  | [] => .ok zero
  | first :: rest => do
      rest.foldlM (fun total share => do
        let part ← a.diagonalShare share
        if share.negative then total.scalarSub part else total.add part) (← a.diagonalShare first)

/-- The deviatoric part of a matrix. -/
def deviatoricFormula (a : Expr) : Except LoweringError Expr := do
  let dim ← Formula.deviatoric.squareDim a
  if dim ≠ 2 ∧ dim ≠ 3 then throw (.dimensionNotImplemented .deviatoric dim)
  let entryAt (row column : Nat) : Except BuildError Expr :=
    if row = column then a.diagonalShares (Formula.deviatoricDiagonal dim row) else a.entry row column
  let rows := (List.range dim).mapM fun row => (List.range dim).mapM fun column => entryAt row column
  (do matrix (← rows)).mapError .build

end Expr

end FormCalculus
