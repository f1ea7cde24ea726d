import Mathlib.Tactic.FinCases
import Mathlib.Tactic.Ring
import FormCalculus.Formula.Adjugate
import FormCalculus.Proofs.Reading

/-!
The closed forms in a commutative ring: determinants expanded along their first row, and the
polynomials of the tables for adjugates and cofactors.
-/
set_option autoImplicit false

namespace FormCalculus

variable {R : Type*} [CommRing R]

section Minors

variable (entry : Nat → Nat → R)

/-- Determinant of the matrix that rows and columns make. -/
def minorAt (rows columns : List Nat) : R :=
  (Matrix.of fun i j : Fin rows.length => entry rows[i] (columns.getD j 0)).det

theorem minor_none (columns : List Nat) : minorAt entry [] columns = 1 :=
  Matrix.det_fin_zero

theorem minor_pair (r s c d : Nat) :
    minorAt entry [r, s] [c, d] = entry r c * entry s d - entry r d * entry s c :=
  Matrix.det_fin_two _

theorem succ_above_val {n : Nat} (place : Fin (n + 1)) (k : Fin n) :
    (place.succAbove k : Nat) = if (k : Nat) < place then (k : Nat) else k + 1 := by
  unfold Fin.succAbove
  by_cases below : (k : Nat) < place
  · rw [if_pos below, if_pos (by simpa [Fin.lt_def] using below)]
    rfl
  · rw [if_neg below, if_neg (by simpa [Fin.lt_def] using below)]
    rfl

/-- Expansion along the first row. -/
theorem minor_cons (row : Nat) (rows columns : List Nat) :
    minorAt entry (row :: rows) columns = ∑ place ∈ Finset.range (rows.length + 1),
      (-1) ^ place * entry row (columns.getD place 0) *
        minorAt entry rows (columns.eraseIdx place) := by
  rw [Finset.sum_range]
  refine (Matrix.det_succ_row_zero _).trans (Finset.sum_congr rfl fun place _ => ?_)
  refine congrArg _ (congrArg Matrix.det (Matrix.ext fun i j => ?_))
  show entry rows[i] (columns.getD (place.succAbove j) 0) = entry rows[i] _
  refine congrArg _ ?_
  rw [succ_above_val, List.getD_eq_getElem?_getD, List.getD_eq_getElem?_getD, List.getElem?_eraseIdx]
  split <;> rfl

theorem minor_whole (n : Nat) : minorAt entry (List.range n) (List.range n) =
    (Matrix.of fun i j : Fin n => entry i j).det := by
  rw [← Matrix.det_submatrix_equiv_self (finCongr List.length_range)]
  refine congrArg Matrix.det (Matrix.ext fun i j => ?_)
  show entry (List.range n)[(i : Nat)] ((List.range n).getD j 0) = entry i j
  rw [List.getElem_range, List.getD_eq_getElem?_getD, List.getElem?_eq_getElem j.isLt,
    List.getElem_range, Option.getD_some]

theorem sum_places (term : Nat → Nat → R) (columns : List Nat) :
    (columns.zipIdx.map fun place => term place.1 place.2).sum =
      ∑ place ∈ Finset.range columns.length, term (columns.getD place 0) place := by
  show _ = ((List.range columns.length).map fun place => term (columns.getD place 0) place).sum
  refine congrArg List.sum (List.ext_getElem (by simp) fun place small small' => ?_)
  have inside : place < columns.length := by simpa using small
  simp [inside]

end Minors

/-- A product of entries with its sign. -/
def Monomial.value (entry : Nat → Nat → R) (term : Monomial) : R :=
  let product := (term.cells.map fun cell => entry cell.1 cell.2).prod
  if term.negative then -product else product

namespace Formula

def polynomialValue (entry : Nat → Nat → R) (terms : Polynomial) : R :=
  (terms.map (Monomial.value entry)).sum

/-- The polynomial of a table at a row and a column. -/
def polynomialAt (table : List (List Polynomial)) (row column : Nat) : Polynomial :=
  (table.getD row []).getD column []

/-- A product of at least one entry of the first rows and columns. -/
structure IsMonomial (n : Nat) (term : Monomial) : Prop where
  some : term.cells ≠ []
  below : ∀ cell ∈ term.cells, cell.1 < n ∧ cell.2 < n

instance (n : Nat) (term : Monomial) : Decidable (IsMonomial n term) :=
  decidable_of_iff (term.cells ≠ [] ∧ ∀ cell ∈ term.cells, cell.1 < n ∧ cell.2 < n)
    ⟨fun both => ⟨both.1, both.2⟩, fun monomial => ⟨monomial.some, monomial.below⟩⟩

/-- A square table of sums of products of entries. -/
structure IsTable (n : Nat) (table : List (List Polynomial)) : Prop where
  height : table.length = n
  widths : ∀ row ∈ table, row.length = n
  monomials : ∀ row ∈ table, ∀ terms ∈ row, ∀ term ∈ terms, IsMonomial n term

/-- The polynomials of the table are the entries of what `form` makes of a matrix. -/
structure Tabulates (n : Nat) (table : List (List Polynomial))
    (form : Matrix (Fin n) (Fin n) R → Matrix (Fin n) (Fin n) R) : Prop where
  square : IsTable n table
  entries : ∀ (entry : Nat → Nat → R) (i j : Fin n),
    polynomialValue entry (polynomialAt table i j) = form (Matrix.of fun i j => entry i j) i j

theorem adjugate2_tabulates : Tabulates 2 adjugate2 (Matrix.adjugate (α := R)) := by
  refine ⟨⟨rfl, by decide, by decide⟩, fun entry i j => ?_⟩
  rw [Matrix.adjugate_fin_two]
  fin_cases i <;> fin_cases j <;>
    simp [polynomialValue, polynomialAt, adjugate2, Monomial.value, Monomial.plus, Monomial.minus]

theorem adjugate3_tabulates : Tabulates 3 adjugate3 (Matrix.adjugate (α := R)) := by
  refine ⟨⟨rfl, by decide, by decide⟩, fun entry i j => ?_⟩
  rw [Matrix.adjugate_fin_three]
  fin_cases i <;> fin_cases j <;>
    simp [polynomialValue, polynomialAt, adjugate3, Monomial.value, Monomial.plus, Monomial.minus] <;> ring

theorem adjugate4_tabulates : Tabulates 4 adjugate4 (Matrix.adjugate (α := R)) := by
  refine ⟨⟨rfl, by decide, by decide⟩, fun entry i j => ?_⟩
  rw [Matrix.adjugate_fin_succ_eq_det_submatrix, Matrix.det_fin_three]
  fin_cases i <;> fin_cases j <;>
    simp [polynomialValue, polynomialAt, adjugate4, Monomial.value, Monomial.plus, Monomial.minus,
      Fin.succAbove] <;> ring

theorem cofactor2_tabulates : Tabulates 2 cofactor2 fun m : Matrix _ _ R => m.adjugate.transpose := by
  refine ⟨⟨rfl, by decide, by decide⟩, fun entry i j => ?_⟩
  rw [Matrix.adjugate_fin_two]
  fin_cases i <;> fin_cases j <;>
    simp [polynomialValue, polynomialAt, cofactor2, Monomial.value, Monomial.plus, Monomial.minus]

theorem cofactor3_tabulates : Tabulates 3 cofactor3 fun m : Matrix _ _ R => m.adjugate.transpose := by
  refine ⟨⟨rfl, by decide, by decide⟩, fun entry i j => ?_⟩
  rw [Matrix.adjugate_fin_three]
  fin_cases i <;> fin_cases j <;>
    simp [polynomialValue, polynomialAt, cofactor3, Monomial.value, Monomial.plus, Monomial.minus] <;> ring

theorem cofactor4_tabulates : Tabulates 4 cofactor4 fun m : Matrix _ _ R => m.adjugate.transpose := by
  refine ⟨⟨rfl, by decide, by decide⟩, fun entry i j => ?_⟩
  rw [Matrix.transpose_apply, Matrix.adjugate_fin_succ_eq_det_submatrix, Matrix.det_fin_three]
  fin_cases i <;> fin_cases j <;>
    simp [polynomialValue, polynomialAt, cofactor4, Monomial.value, Monomial.plus, Monomial.minus,
      Fin.succAbove] <;> ring

end Formula

end FormCalculus
