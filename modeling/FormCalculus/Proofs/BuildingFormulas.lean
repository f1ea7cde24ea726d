import FormCalculus.Proofs.Stable
import FormCalculus.Proofs.FormulaCases

/-!
The closed forms of the compound operators are put together from the constructors of index notation
and hand on what those do.
-/
set_option autoImplicit false

namespace FormCalculus.Stable

open Expr

variable {P : Expr → Prop} {a b e r : Expr} {supply after : Supply}

/-- The rows of a table are made entry by entry. -/
theorem table {α β : Type} (make : α → β → Except BuildError Expr) {places : List α}
    (columns : α → List β) {rows : List (List Expr)}
    (built : ∀ row column e, make row column = .ok e → P e)
    (run : places.mapM (fun row => (columns row).mapM (make row)) = .ok rows) :
    ∀ row ∈ rows, ∀ e ∈ row, P e := by
  intro row member
  obtain ⟨place, pair⟩ := partner_left (mapM_ok run).length_eq member
  exact each (fun column _ => built place column) (List.forall₂_zip (mapM_ok run) pair)

variable [Folding] (stable : Stable P)

include stable

theorem times_entries {cells : List (Nat × Nat)} (tensor : P a)
    (factor : P e) (run : a.timesEntries e cells = .ok r) : P r := by
  induction cells generalizing e with
  | nil =>
      cases run
      exact factor
  | cons cell rest ih =>
      simp only [timesEntries, except_bind_ok] at run
      obtain ⟨next, found, product, first, others⟩ := run
      exact ih (stable.contracted_product factor (stable.component tensor found) first) others

theorem monomial {leading : Bool} {term : Monomial} (tensor : P a)
    (run : a.monomial leading term = .ok r) : P r := by
  obtain ⟨_, rfl⟩ | ⟨row, column, cells, first, start, _, found, sign, times⟩ := monomial_cases run
  · exact stable.int 1
  · have first := stable.component tensor found
    refine stable.times_entries tensor ?_ times
    split at sign
    · exact stable.scalar_neg first sign
    · cases sign
      exact first

theorem add_monomials {terms : Polynomial} (tensor : P a) (total : P e)
    (run : a.addMonomials e terms = .ok r) : P r := by
  induction terms generalizing e with
  | nil =>
      cases run
      exact total
  | cons term rest ih =>
      obtain ⟨product, next, made, sum, others⟩ := add_monomials_cons run
      have product := stable.monomial tensor made
      refine ih ?_ others
      split at sum
      · exact stable.scalar_sub total product sum
      · exact stable.add total product sum

theorem polynomial {terms : Polynomial} (tensor : P a)
    (run : a.polynomial terms = .ok r) : P r := by
  cases terms with
  | nil =>
      cases run
      exact stable.zeros _ _
  | cons first rest =>
      obtain ⟨start, found, others⟩ := (except_bind_ok _ _ _).mp run
      exact stable.add_monomials tensor (stable.monomial tensor found) others

theorem polynomial_matrix {rows : List (List Polynomial)} (tensor : P a)
    (run : a.polynomialMatrix rows = .ok r) : P r := by
  obtain ⟨values, found, last⟩ := (except_bind_ok _ _ _).mp run
  exact stable.matrix (table (fun _ => a.polynomial) id
    (fun _ _ _ => stable.polynomial tensor) found) last

theorem uses_table {tables : List (Nat × List (List Polynomial))} (tensor : P a)
    (uses : a.UsesTable tables r) : P r := by
  obtain ⟨_, _, _, _, _, made⟩ := uses
  exact stable.polynomial_matrix tensor made

theorem minor {p q s t : Except BuildError Expr} (left : ∀ e, p = .ok e → P e)
    (right : ∀ e, q = .ok e → P e) (left' : ∀ e, s = .ok e → P e)
    (right' : ∀ e, t = .ok e → P e) (minor : IsMinor p q s t r) : P r := by
  obtain ⟨w, x, y, z, first, second, pw, qx, product, sy, tz, product', difference⟩ := minor
  exact stable.scalar_sub (stable.contracted_product (left w pw) (right x qx) product)
    (stable.contracted_product (left' y sy) (right' z tz) product') difference

theorem cross_formula (left : P a) (right : P b) (run : a.crossFormula b = .ok r) : P r := by
  obtain ⟨_, x, y, z, first, second, third, last⟩ := cross_formula_cases run
  have left (position : Component) (e : Expr) (found : a.component position = .ok e) :=
    stable.component left found
  have right (position : Component) (e : Expr) (found : b.component position = .ok e) :=
    stable.component right found
  refine stable.vector ?_ last
  exact List.forall_mem_cons.mpr ⟨stable.minor (left _) (right _) (left _) (right _) first,
    operands_pair (stable.minor (left _) (right _) (left _) (right _) second)
      (stable.minor (left _) (right _) (left _) (right _) third)⟩

theorem adds_row {row : Nat} {rest : Nat → Except BuildError Expr} {places : List (Nat × Nat)}
    (tensor : P a) (below : ∀ place e, rest place = .ok e → P e)
    (total : P e) (run : AddsRow (a.AddsCofactor row rest) e places r) : P r := by
  induction run with
  | nil => exact total
  | cons step _ ih =>
      obtain ⟨entry, signed, cofactor, product, found, sign, made, times, sum⟩ := step
      have signed := stable.contracted_product (stable.int _) (stable.component tensor found) sign
      exact ih (stable.add total
        (stable.contracted_product signed (below _ _ made) times) sum)

theorem laplace {rows columns : List Nat} (tensor : P a)
    (run : a.laplace rows columns = .ok r) : P r := by
  induction rows generalizing columns r with
  | nil =>
      rw [Expr.laplace] at run
      cases run
      exact stable.int 1
  | cons row rows ih =>
      obtain ⟨_, _, _, _, _, pair⟩ | sum := laplace_cases run
      · have entry (position : Component) (e : Expr) (found : a.component position = .ok e) :=
          stable.component tensor found
        exact stable.minor (entry _) (entry _) (entry _) (entry _) pair
      · exact stable.adds_row tensor (fun _ _ made => ih made) (stable.zeros _ _) sum

theorem square_determinant (tensor : P a) (run : a.squareDeterminant = .ok r) : P r := by
  obtain ⟨_, rfl⟩ | ⟨_, _, _, _, ⟨_, found⟩ | expansion⟩ := square_determinant_cases run
  · exact stable.zeros _ _
  · exact stable.component tensor found
  · exact stable.laplace tensor expansion

theorem gram_matrix (tensor : P a) (run : a.gramMatrix supply = .ok (r, after)) : P r := by
  simp only [Expr.gramMatrix, Fresh.bind_ok, Fresh.lift_ok] at run
  obtain ⟨_, _, _, _, _, _, _, _, _, left, _, ⟨first, _⟩, right, _, ⟨second, _⟩, product, _,
    ⟨third, _⟩, last, _⟩ := run
  exact stable.as_tensor (stable.contracted_product (stable.index tensor first)
    (stable.index tensor second) third) last

theorem column_at {column : Nat} {i : Index} (tensor : P a)
    (run : a.columnAt column supply = .ok ((i, r), after)) : P r := by
  simp only [Expr.columnAt, Fresh.bind_ok, Fresh.lift_ok, Fresh.pure_ok, Prod.mk.injEq] at run
  obtain ⟨_, _, _, _, _, ⟨found, _⟩, ⟨_, rfl⟩, _⟩ := run
  exact stable.index tensor found

theorem norm (scalar : P e) (run : e.norm = .ok r) : P r := by
  obtain ⟨square, product, root⟩ := (except_bind_ok _ _ _).mp run
  exact stable.sqrt (stable.contracted_product scalar scalar product) root

theorem pseudo_determinant (tensor : P a)
    (run : a.pseudoDeterminantFormula supply = .ok (r, after)) : P r := by
  have column {position : Nat} {s : Supply} {pair : Index × Expr} {s' : Supply} {v : Expr}
      (found : a.columnAt position s = .ok (pair, s')) (made : pair.2.asTensor [pair.1] = .ok v) :
      P v :=
    stable.as_tensor (stable.column_at tensor found) made
  simp only [Expr.pseudoDeterminantFormula, Fresh.bind_ok, Fresh.lift_ok] at run
  obtain ⟨_, _, _, _, _, _, run⟩ := run
  split at run
  · simp only [Fresh.bind_ok, Fresh.lift_ok, Fresh.map_error_ok] at run
    obtain ⟨_, _, found, root, _⟩ := run
    exact stable.norm (stable.column_at tensor found) root
  · split at run
    · simp only [Fresh.bind_ok, Fresh.lift_ok, Fresh.map_error_ok] at run
      obtain ⟨_, _, ⟨_, _, found, made, _⟩, _, _, ⟨_, _, found', made', _⟩, normal, _, ⟨cross, _⟩, _,
        _, _, _, _, ⟨component, _⟩, root, _⟩ := run
      have normal := stable.cross_formula (column found made) (column found' made') cross
      exact stable.norm (stable.index normal component) root
    · simp only [Fresh.bind_ok, Fresh.lift_ok, Fresh.map_error_ok] at run
      obtain ⟨_, _, gram, _, _, ⟨determinant, _⟩, root, _⟩ := run
      exact stable.sqrt
        (stable.square_determinant (stable.gram_matrix tensor gram) determinant) root

theorem determinant_formula (tensor : P a)
    (run : a.determinantFormula supply = .ok (r, after)) : P r := by
  obtain ⟨_, rfl⟩ | ⟨_, rfl⟩ | ⟨_, _, square⟩ | ⟨_, _, _, _, pseudo⟩ :=
    determinant_formula_cases run
  · exact stable.zeros _ _
  · exact tensor
  · exact stable.square_determinant tensor square
  · exact stable.pseudo_determinant tensor pseudo

theorem square_inverse (tensor : P a) (run : a.squareInverse supply = .ok (r, after)) : P r := by
  obtain ⟨_, ⟨_, entry, reciprocal, found, quotient, last⟩ | ⟨adjugate, determinant, first, second,
    quotient⟩⟩ := square_inverse_cases run
  · have reciprocal := stable.scalar_quotient (stable.real _) (stable.component tensor found) quotient
    exact stable.matrix (List.forall_mem_singleton.mpr
      (List.forall_mem_singleton.mpr reciprocal)) last
  · exact stable.divide (stable.uses_table tensor (adjugate_formula_cases first))
      (stable.square_determinant tensor second) quotient

theorem pseudo_inverse (tensor : P a)
    (run : a.pseudoInverseFormula supply = .ok (r, after)) : P r := by
  simp only [Expr.pseudoInverseFormula, Fresh.bind_ok, Fresh.lift_ok] at run
  obtain ⟨_, _, _, _, _, _, run⟩ := run
  split at run
  · simp only [Fresh.bind_ok, Fresh.lift_ok, Fresh.map_error_ok] at run
    obtain ⟨_, _, _, _, _, _, _, _, _, entry, _, ⟨found, _⟩, transposed, _, ⟨tensor', _⟩, column, _,
      ⟨found', _⟩, square, _, ⟨product, _⟩, last⟩ := run
    have column := stable.index tensor found'
    exact stable.divide (stable.as_tensor (stable.index tensor found) tensor')
      (stable.contracted_product column column product) last
  · simp only [Fresh.bind_ok, Fresh.lift_ok, Fresh.map_error_ok] at run
    obtain ⟨gram, _, made, inverse, _, inverted, _, _, _, _, _, _, _, _, _, left, _, ⟨first, _⟩, right,
      _, ⟨second, _⟩, product, _, ⟨third, _⟩, last, _⟩ := run
    have inverse := stable.square_inverse (stable.gram_matrix tensor made) inverted
    exact stable.as_tensor (stable.contracted_product (stable.index inverse first)
      (stable.index tensor second) third) last

theorem inverse_formula (tensor : P a) (run : a.inverseFormula supply = .ok (r, after)) : P r := by
  unfold Expr.inverseFormula at run
  cases shape : a.shape with
  | nil =>
      simp only [shape, Fresh.map_error_ok, Fresh.lift_ok] at run
      exact stable.scalar_quotient (stable.real _) tensor run.1
  | cons m rest =>
      obtain _ | ⟨n, _ | ⟨_, _⟩⟩ := rest
      · simp [shape] at run
      · simp only [shape] at run
        split at run
        · exact stable.square_inverse tensor run
        · exact stable.pseudo_inverse tensor run
      · simp [shape] at run

theorem diagonal_share {share : DiagonalShare} (tensor : P a)
    (run : a.diagonalShare share = .ok r) : P r := by
  obtain ⟨entry, found, product⟩ := diagonal_share_cases run
  exact stable.contracted_product (stable.real _) (stable.component tensor found) product

theorem deviatoric_entry {dim row column : Nat} (tensor : P a)
    (run : a.deviatoricEntry dim row column = .ok r) : P r := by
  unfold deviatoricEntry at run
  split at run
  · generalize Formula.deviatoricDiagonal dim row = shares at run
    cases shares with
    | nil =>
        cases run
        exact stable.zeros _ _
    | cons first rest =>
        obtain ⟨start, made, sum⟩ := diagonal_shares_cons run
        have start := stable.diagonal_share tensor made
        clear made run
        induction sum with
        | nil => exact start
        | cons part step _ ih =>
            have part := stable.diagonal_share tensor part
            refine ih ?_
            split at step
            · exact stable.scalar_sub start part step
            · exact stable.add start part step
  · exact stable.component tensor run

theorem deviatoric_formula (tensor : P a) (run : a.deviatoricFormula = .ok r) : P r := by
  obtain ⟨_, n, rows, _, _, made, last⟩ := deviatoric_formula_cases run
  exact stable.matrix (table (a.deviatoricEntry n) (fun _ => List.range n)
    (fun _ _ _ => stable.deviatoric_entry tensor) made) last

end FormCalculus.Stable
