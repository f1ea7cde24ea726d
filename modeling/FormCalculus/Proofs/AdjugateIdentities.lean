import FormCalculus.Proofs.BuildingFormulas
import FormCalculus.Proofs.DeterminantExpansion

/-!
Polynomials in the entries of a matrix, and the adjugates and cofactors that are tables of them: in
two, three and four dimensions they can always be built, and in any commutative ring they are what
their names say.
-/
set_option autoImplicit false

namespace FormCalculus

open Expr Formula

namespace Valuation

variable {R : Type*} [CommRing R] {P : Expr → Prop} {v : Valuation R} {a e : Expr} {n : Nat}

section Polynomials

variable [kept : KeptByBuilding P] [Folding] (exact : v.Exact) {entry : Nat → Nat → R}
  (entries : v.GivesEntries P a n entry) {x : R}

include exact entries

theorem times_entries_gives {cells : List (Nat × Nat)}
    (inside : ∀ cell ∈ cells, cell.1 < n ∧ cell.2 < n) (factor : v.Gives P e x) :
    ∃ r, a.timesEntries e cells = .ok r ∧
      v.Gives P r (x * (cells.map fun cell => entry cell.1 cell.2).prod) := by
  induction cells generalizing e x with
  | nil => exact ⟨e, rfl, factor.congr (mul_one x).symm⟩
  | cons cell cells ih =>
      obtain ⟨⟨row, column⟩, others⟩ := List.forall_mem_cons.mp inside
      obtain ⟨next, found, gives⟩ := entries cell.1 cell.2 row column
      obtain ⟨product, times, product_gives⟩ := factor.product exact gives
      obtain ⟨r, run, total⟩ := ih others product_gives
      refine ⟨r, ?_, total.congr ?_⟩
      · rw [timesEntries, found, except_ok_bind, times, except_ok_bind, run]
      · rw [List.map_cons, List.prod_cons, mul_assoc]

theorem monomial_gives {term : Monomial} (leading : Bool) (product : IsMonomial n term) :
    ∃ r, a.monomial leading term = .ok r ∧
      v.Gives P r (if leading && term.negative then -(term.cells.map fun cell => entry cell.1 cell.2).prod
        else (term.cells.map fun cell => entry cell.1 cell.2).prod) := by
  obtain ⟨negative, cells⟩ := term
  obtain ⟨some, below⟩ := product
  obtain _ | ⟨⟨row, column⟩, cells⟩ := cells
  · exact absurd rfl some
  obtain ⟨⟨small, small'⟩, others⟩ := List.forall_mem_cons.mp below
  obtain ⟨first, found, gives⟩ := entries row column small small'
  simp only [monomial, found, except_ok_bind]
  split
  · obtain ⟨negated, signed, negative_gives⟩ := gives.neg exact
    obtain ⟨r, run, product⟩ := times_entries_gives exact entries others negative_gives
    refine ⟨r, ?_, product.congr (by rw [List.map_cons, List.prod_cons, neg_mul])⟩
    rw [signed, except_ok_bind, run]
  · obtain ⟨r, run, product⟩ := times_entries_gives exact entries others gives
    exact ⟨r, run, product.congr (by rw [List.map_cons, List.prod_cons])⟩

theorem add_monomials_gives {terms : Polynomial} (products : ∀ term ∈ terms, IsMonomial n term)
    (total : v.Gives P e x) :
    ∃ r, a.addMonomials e terms = .ok r ∧ v.Gives P r (x + polynomialValue entry terms) := by
  induction terms generalizing e x with
  | nil => exact ⟨e, rfl, total.congr (add_zero x).symm⟩
  | cons term rest ih =>
      obtain ⟨here, others⟩ := List.forall_mem_cons.mp products
      obtain ⟨product, made, gives⟩ := monomial_gives exact entries false here
      have added : ∃ next, (if term.negative then e.scalarSub product else e.add product) = .ok next ∧
          v.Gives P next (x + term.value entry) := by
        unfold Monomial.value
        split
        · obtain ⟨next, run, difference⟩ := total.sub exact gives
          exact ⟨next, run, difference.congr (sub_eq_add_neg _ _)⟩
        · exact total.add exact gives
      obtain ⟨next, sum, next_gives⟩ := added
      obtain ⟨r, run, whole⟩ := ih others next_gives
      refine ⟨r, ?_, whole.congr ?_⟩
      · rw [addMonomials, made, except_ok_bind]
        by_cases negative : term.negative = true
        · rw [if_pos negative] at sum ⊢
          rw [sum]
          exact run
        · rw [if_neg negative] at sum ⊢
          rw [sum]
          exact run
      · rw [add_assoc]
        rfl

theorem polynomial_gives {terms : Polynomial} (products : ∀ term ∈ terms, IsMonomial n term) :
    ∃ r, a.polynomial terms = .ok r ∧ v.Gives P r (polynomialValue entry terms) := by
  cases terms with
  | nil => exact ⟨zero, rfl, gives_zero⟩
  | cons first rest =>
      obtain ⟨here, others⟩ := List.forall_mem_cons.mp products
      obtain ⟨start, made, gives⟩ := monomial_gives exact entries true here
      obtain ⟨r, run, total⟩ := add_monomials_gives exact entries others gives
      refine ⟨r, ?_, total⟩
      rw [polynomial, made, except_ok_bind, run]

end Polynomials

/-- A matrix without free indices, with the entries of `A` for the values of its components. -/
structure HasMatrix (v : Valuation R) (a : Expr) (A : Matrix (Fin n) (Fin n) R) : Prop where
  square : a.shape = [n, n]
  closed : a.free = ∅
  entries : ∀ i j : Fin n, ∃ e, a.component [(i : Nat), (j : Nat)] = .ok e ∧ v.value e = A i j

theorem GivesEntries.has_matrix {entry : Nat → Nat → R} (entries : v.GivesEntries P a n entry)
    (square : a.shape = [n, n]) (closed : a.free = ∅) :
    v.HasMatrix a (Matrix.of fun i j : Fin n => entry i j) := by
  refine ⟨square, closed, fun i j => ?_⟩
  obtain ⟨e, found, gives⟩ := entries i j i.isLt j.isLt
  exact ⟨e, found, gives.value⟩

/-- The components of a list have the values of those of its entries. -/
theorem list_tensor_value {list : List Expr} {r x y : Expr} {position : Nat} {rest : Component}
    (made : listTensor list = .ok r) (found : list[position]? = some e)
    (run : r.component (position :: rest) = .ok x) (below : e.component rest = .ok y) :
    v.value x = v.value y := by
  obtain rfl | ⟨zero, zero'⟩ := list_tensor_component made found run below
  · rfl
  · rw [value_of_is_zero zero, value_of_is_zero zero']

/-- The components of a vector of scalars have the values of these. -/
theorem vector_entry [kept : KeptByBuilding P] {row : List Expr} {w : Expr} {j : Nat}
    (scalars : ∀ e ∈ row, v.Gives P e (v.value e)) (run : vector row = .ok w)
    (found : row[j]? = some e) : ∃ x, w.component [j] = .ok x ∧ v.value x = v.value e := by
  obtain ⟨small, _⟩ := List.getElem?_eq_some_iff.mp found
  have good : P w := kept.built (.vector nofun (fun e inside => .given (scalars e inside).good) run)
  obtain ⟨w', run', shape, _⟩ := vector_total (List.ne_nil_of_length_pos (Nat.zero_lt_of_lt small))
    fun e inside => ⟨(scalars e inside).scalar, (scalars e inside).closed⟩
  have lies : Component.Lies [j] w.shape := by
    rw [Except.ok.inj (run.symm.trans run'), shape]
    exact .cons small .nil
  obtain ⟨x, component⟩ := typed_component_total (kept.typed good) lies
  exact ⟨x, component, list_tensor_value (vector_cases run).2 found component
    (component_whole (scalars e (List.mem_of_getElem? found)).scalar)⟩

/-- A table of scalars without free indices can be made into a matrix. -/
theorem matrix_gives [kept : KeptByBuilding P] {rows : List (List Expr)} {entry : Nat → Nat → R}
    (dim : n ≠ 0) (height : rows.length = n) (widths : ∀ row ∈ rows, row.length = n)
    (each : ∀ i j row e, rows[i]? = some row → row[j]? = some e → v.Gives P e (entry i j)) :
    ∃ r, matrix rows = .ok r ∧ v.HasMatrix r (Matrix.of fun i j : Fin n => entry i j) := by
  have scalars : ∀ row ∈ rows, ∀ e ∈ row, v.Gives P e (v.value e) := by
    intro row member e inside
    obtain ⟨i, found⟩ := List.mem_iff_getElem?.mp member
    obtain ⟨j, place⟩ := List.mem_iff_getElem?.mp inside
    exact { each i j row e found place with value := rfl }
  have nonempty : rows ≠ [] := fun none => dim (by rw [← height, none]; rfl)
  obtain ⟨r, run, square, closed⟩ := matrix_total nonempty dim widths fun row member e inside =>
    ⟨(scalars row member e inside).scalar, (scalars row member e inside).closed⟩
  rw [height] at square
  have good : P r := kept.built (.matrix nofun (fun row member e inside =>
    .given (scalars row member e inside).good) run)
  refine ⟨r, run, square, closed, fun i j => ?_⟩
  obtain ⟨x, found, _⟩ := v.closed_entries good square closed i j i.isLt j.isLt
  -- A component of the matrix is one of a row, which is an entry.
  obtain ⟨vectors, made, list⟩ := (except_bind_ok _ _ _).mp run
  have small : (i : Nat) < vectors.length := (mapM_ok made).length_eq ▸ height ▸ i.isLt
  have found_vector := List.getElem?_eq_getElem small
  obtain ⟨row, place, row_run⟩ := mapM_get made found_vector
  have small' : (j : Nat) < row.length := widths row (List.mem_of_getElem? place) ▸ j.isLt
  have found_entry := List.getElem?_eq_getElem small'
  obtain ⟨y, below, value⟩ :=
    vector_entry (scalars row (List.mem_of_getElem? place)) row_run found_entry
  refine ⟨x, found, ?_⟩
  calc v.value x = v.value y := list_tensor_value list found_vector found below
    _ = v.value row[j] := value
    _ = entry i j := (each i j row _ place found_entry).value

/-- A table of polynomials gives the matrix that it tabulates. -/
theorem polynomial_matrix_gives [kept : KeptByBuilding P] [Folding] (exact : v.Exact)
    {entry : Nat → Nat → R} (entries : v.GivesEntries P a n entry) (dim : n ≠ 0)
    {table : List (List Polynomial)} {form : Matrix (Fin n) (Fin n) R → Matrix (Fin n) (Fin n) R}
    (tabulates : Tabulates n table form) :
    ∃ r, (a.polynomialMatrix table).mapError LoweringError.build = .ok r ∧
      v.HasMatrix r (form (Matrix.of fun i j : Fin n => entry i j)) := by
  obtain ⟨square, values⟩ := tabulates
  -- Each entry of the table can be made, hence each row, hence the table.
  have polynomial {row : List Polynomial} {terms : Polynomial} (member : row ∈ table)
      (inside : terms ∈ row) : ∃ e, a.polynomial terms = .ok e ∧
        v.Gives P e (polynomialValue entry terms) :=
    polynomial_gives exact entries (square.monomials row member terms inside)
  obtain ⟨rows, made⟩ := mapM_total fun (row : List Polynomial) member =>
    mapM_total fun terms inside => (polynomial member inside).imp fun _ => And.left
  have height : rows.length = n := (mapM_ok made).length_eq.symm.trans square.height
  have widths : ∀ row ∈ rows, row.length = n := fun row member => by
    obtain ⟨i, found⟩ := List.mem_iff_getElem?.mp member
    obtain ⟨terms, place, each⟩ := mapM_get made found
    exact (mapM_ok each).length_eq.symm.trans (square.widths terms (List.mem_of_getElem? place))
  have each (i j : Nat) (row : List Expr) (e : Expr) (found : rows[i]? = some row)
      (inside : row[j]? = some e) : v.Gives P e (polynomialValue entry (polynomialAt table i j)) := by
    obtain ⟨row', place, each⟩ := mapM_get made found
    obtain ⟨terms, place', run⟩ := mapM_get each inside
    obtain ⟨e', run', gives⟩ :=
      polynomial (List.mem_of_getElem? place) (List.mem_of_getElem? place')
    have same : polynomialAt table i j = terms := by simp [polynomialAt, place, place']
    exact Except.ok.inj (run'.symm.trans run) ▸ same ▸ gives
  obtain ⟨r, run, gives⟩ := matrix_gives dim height widths each
  have whole : a.polynomialMatrix table = .ok r := (except_bind_ok _ _ _).mpr ⟨rows, made, run⟩
  refine ⟨r, (except_map_error_ok _ _ _).mpr whole, gives.square, gives.closed, fun i j => ?_⟩
  obtain ⟨e, found, value⟩ := gives.entries i j
  exact ⟨e, found, value.trans (values entry i j)⟩

section Formulas

variable [kept : KeptByBuilding P] [Folding] (exact : v.Exact) {entry : Nat → Nat → R}
  (entries : v.GivesEntries P a n entry) (square : a.shape = [n, n]) (unindexed : a.free = ∅)

include exact entries square unindexed

theorem adjugate_gives (dims : n = 2 ∨ n = 3 ∨ n = 4) : ∃ r, a.adjugateFormula = .ok r ∧
    v.HasMatrix r (Matrix.of fun i j : Fin n => entry i j).adjugate := by
  unfold adjugateFormula
  rw [square_dim_runs square unindexed, except_ok_bind]
  obtain rfl | rfl | rfl := dims
  · exact polynomial_matrix_gives exact entries nofun adjugate2_tabulates
  · exact polynomial_matrix_gives exact entries nofun adjugate3_tabulates
  · exact polynomial_matrix_gives exact entries nofun adjugate4_tabulates

theorem cofactors_give (dims : n = 2 ∨ n = 3 ∨ n = 4) : ∃ r, a.cofactorFormula = .ok r ∧
    v.HasMatrix r (Matrix.of fun i j : Fin n => entry i j).adjugate.transpose := by
  unfold cofactorFormula
  rw [square_dim_runs square unindexed, except_ok_bind]
  obtain rfl | rfl | rfl := dims
  · exact polynomial_matrix_gives exact entries nofun cofactor2_tabulates
  · exact polynomial_matrix_gives exact entries nofun cofactor3_tabulates
  · exact polynomial_matrix_gives exact entries nofun cofactor4_tabulates

end Formulas

end Valuation

/-- The adjugate and the matrix of cofactors of a matrix without free indices can be built in two,
three and four dimensions. The adjugate times the matrix, on either side, is its determinant times the
identity, and the cofactors, the transposed adjugate, are the signed minors. -/
theorem adjugate_and_cofactors {R : Type*} [CommRing R] (v : Valuation R) {a : Expr} {k : Nat}
    (small : 1 ≤ k ∧ k ≤ 3) (made : Constructible a) (square : a.shape = [k + 1, k + 1])
    (unindexed : a.free = ∅) (exact : v.FoldsExactly fun folding => @adjugateFormula folding a)
    (exact' : v.FoldsExactly fun folding => @cofactorFormula folding a) :
    ∃ (b c : Expr) (A B C : Matrix (Fin (k + 1)) (Fin (k + 1)) R),
      a.adjugateFormula = .ok b ∧ a.cofactorFormula = .ok c ∧
      v.HasMatrix a A ∧ v.HasMatrix b B ∧ v.HasMatrix c C ∧
      A * B = A.det • 1 ∧ B * A = A.det • 1 ∧ C = B.transpose ∧
      ∀ i j, C i j = (-1) ^ ((i : Nat) + j) * (A.submatrix i.succAbove j.succAbove).det := by
  have entries := v.closed_entries made.well_typed square unindexed
  have dims : k + 1 = 2 ∨ k + 1 = 3 ∨ k + 1 = 4 := by omega
  -- The runs under exact folds are the same runs, and each of their folds keeps values.
  obtain ⟨b, run, adjugate⟩ := @Valuation.adjugate_gives R _ WellTyped v a _ _ v.exactFolding
    v.exact_folding_exact _ entries square unindexed dims
  obtain ⟨c, run', cofactors⟩ := @Valuation.cofactors_give R _ WellTyped v a _ _
    v.exactFolding v.exact_folding_exact _ entries square unindexed dims
  refine ⟨b, c, _, _, _, exact.symm.trans run, exact'.symm.trans run',
    entries.has_matrix square unindexed, adjugate, cofactors, Matrix.mul_adjugate _,
    Matrix.adjugate_mul _, rfl, fun i j => ?_⟩
  rw [Matrix.transpose_apply, Matrix.adjugate_fin_succ_eq_det_submatrix]

section Sample

/-- The adjugate and the cofactors of the cube, of determinant 3. -/
theorem cube_adjugate : ∃ (b c : Expr) (A B C : Matrix (Fin 3) (Fin 3) ℤ),
    sampleCube.adjugateFormula = .ok b ∧ sampleCube.cofactorFormula = .ok c ∧
    sampleValuation.HasMatrix sampleCube A ∧ sampleValuation.HasMatrix b B ∧
    sampleValuation.HasMatrix c C ∧ A * B = A.det • 1 ∧ B * A = A.det • 1 ∧ C = B.transpose := by
  have exact : sampleValuation.FoldsExactly fun folding => @adjugateFormula folding sampleCube := by
    unfold Valuation.FoldsExactly
    cbv
  have exact' : sampleValuation.FoldsExactly fun folding => @cofactorFormula folding sampleCube := by
    unfold Valuation.FoldsExactly
    cbv
  obtain ⟨b, c, A, B, C, run, run', matrix, adjugate, cofactors, left, right, swapped, _⟩ :=
    adjugate_and_cofactors sampleValuation (k := 2) (by decide) (.terminal _) rfl rfl exact exact'
  exact ⟨b, c, A, B, C, run, run', matrix, adjugate, cofactors, left, right, swapped⟩

end Sample

end FormCalculus
