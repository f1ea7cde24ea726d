import FormCalculus.Lowering
import FormCalculus.Proofs.Construction

/-!
What a successful run of a closed form went through: the shape and the free indices it found, and
the expressions that it made on its way.
-/
set_option autoImplicit false

namespace FormCalculus

namespace Formula

variable {formula : Formula} {a : Expr}

theorem expect_index_free_ok {u : Unit} (run : formula.expectIndexFree a = .ok u) : a.free = ∅ := by
  unfold expectIndexFree at run
  split at run
  · exact FreeIndices.is_empty_iff.mp ‹_›
  · cases run

theorem matrix_shape_ok {m n : Nat} (run : formula.matrixShape a = .ok (m, n)) : a.shape = [m, n] := by
  unfold matrixShape at run
  split at run
  · rename_i m' n' shape
    cases run
    exact shape
  · cases run

theorem square_dim_ok {n : Nat} (run : formula.squareDim a = .ok n) :
    a.shape = [n, n] ∧ a.free = ∅ := by
  simp only [squareDim, except_bind_ok, Prod.exists] at run
  obtain ⟨m, k, shape, run⟩ := run
  obtain ⟨square, run⟩ := except_if_ok (by simp) run
  simp only [except_bind_ok, except_pure_ok] at run
  obtain ⟨_, free, rfl⟩ := run
  have shape := matrix_shape_ok shape
  rw [← not_not.mp square] at shape
  exact ⟨shape, expect_index_free_ok free⟩

theorem expect_index_free_runs (unindexed : a.free = ∅) : formula.expectIndexFree a = .ok () :=
  if_pos (FreeIndices.is_empty_iff.mpr unindexed)

theorem matrix_shape_runs {m n : Nat} (shape : a.shape = [m, n]) :
    formula.matrixShape a = .ok (m, n) := by
  simp only [matrixShape, shape]

theorem square_dim_runs {n : Nat} (square : a.shape = [n, n]) (unindexed : a.free = ∅) :
    formula.squareDim a = .ok n := by
  simp [squareDim, matrix_shape_runs square, expect_index_free_runs unindexed]

end Formula

namespace Expr

/-- A choice between two steps, each handing its result on. -/
theorem except_choice_ok {ε α β : Type} {p : Prop} [Decidable p] {first second : Except ε α}
    {next : α → Except ε β} {r : β}
    (run : (if p then first >>= next else second >>= next) = .ok r) :
    ∃ x, (if p then first else second) = .ok x ∧ next x = .ok r := by
  by_cases holds : p
  · rw [if_pos holds] at run ⊢
    exact (except_bind_ok _ _ _).mp run
  · rw [if_neg holds] at run ⊢
    exact (except_bind_ok _ _ _).mp run

variable [Folding] {a b e r : Expr} {supply after : Supply}

theorem monomial_cases {leading : Bool} {term : Monomial} (run : a.monomial leading term = .ok r) :
    (term.cells = [] ∧ r = int 1) ∨ ∃ row column cells first start,
      term.cells = (row, column) :: cells ∧ a.entry row column = .ok first ∧
      (if leading && term.negative then first.scalarNeg else .ok first) = .ok start ∧
      a.timesEntries start cells = .ok r := by
  unfold monomial at run
  split at run
  · cases run
    exact .inl ⟨‹_›, rfl⟩
  · rename_i row column cells same
    obtain ⟨first, found, run⟩ := (except_bind_ok _ _ _).mp run
    obtain ⟨start, signed, times⟩ := except_choice_ok run
    exact .inr ⟨row, column, cells, first, start, same, found, signed, times⟩

theorem add_monomials_cons {term : Monomial} {rest : Polynomial}
    (run : a.addMonomials e (term :: rest) = .ok r) :
    ∃ product total, a.monomial false term = .ok product ∧
      (if term.negative then e.scalarSub product else e.add product) = .ok total ∧
      a.addMonomials total rest = .ok r := by
  obtain ⟨product, made, run⟩ := (except_bind_ok _ _ _).mp run
  obtain ⟨total, sum, others⟩ := except_choice_ok run
  exact ⟨product, total, made, sum, others⟩

/-- The product of two scalars less that of two others. -/
def IsMinor (p q s t : Except BuildError Expr) (r : Expr) : Prop :=
  ∃ w x y z left right, p = .ok w ∧ q = .ok x ∧ contractedProduct w x = .ok left ∧
    s = .ok y ∧ t = .ok z ∧ contractedProduct y z = .ok right ∧ left.scalarSub right = .ok r

theorem cross_formula_cases (run : a.crossFormula b = .ok r) :
    (∀ v ∈ [a, b], v.shape = [3] ∧ v.free = ∅) ∧ ∃ x y z,
      IsMinor (a.component [1]) (b.component [2]) (a.component [2]) (b.component [1]) x ∧
      IsMinor (a.component [2]) (b.component [0]) (a.component [0]) (b.component [2]) y ∧
      IsMinor (a.component [0]) (b.component [1]) (a.component [1]) (b.component [0]) z ∧
      vector [x, y, z] = .ok r := by
  have minor {i j : Nat} {e : Expr} (made : (do
      let left ← contractedProduct (← a.component [i]) (← b.component [j])
      let right ← contractedProduct (← a.component [j]) (← b.component [i])
      left.scalarSub right) = .ok e) :
      IsMinor (a.component [i]) (b.component [j]) (a.component [j]) (b.component [i]) e := by
    simp only [except_bind_ok] at made
    obtain ⟨w, p, x, q, left, pq, y, s, z, t, right, st, difference⟩ := made
    exact ⟨w, x, y, z, left, right, p, q, pq, s, t, st, difference⟩
  unfold crossFormula at run
  obtain ⟨_, checks, run⟩ := (except_bind_ok _ _ _).mp run
  refine ⟨check_each (fun v next body => ?_) checks, ?_⟩
  · obtain ⟨shape, body⟩ := except_if_ok (by simp) body
    simp only [except_bind_ok, except_pure_ok] at body
    obtain ⟨_, free, rfl⟩ := body
    exact ⟨⟨not_not.mp shape, Formula.expect_index_free_ok free⟩, rfl⟩
  · have run := (except_map_error_ok _ _ _).mp run
    obtain ⟨x, first, run⟩ := (except_bind_ok _ _ _).mp run
    obtain ⟨y, second, run⟩ := (except_bind_ok _ _ _).mp run
    obtain ⟨z, third, run⟩ := (except_bind_ok _ _ _).mp run
    exact ⟨x, y, z, minor first, minor second, minor third, run⟩

theorem minor_pair_cases {p q c d : Nat} (run : a.minorPair p q c d = .ok r) :
    IsMinor (a.entry p c) (a.entry q d) (a.entry p d) (a.entry q c) r := by
  simp only [minorPair, except_bind_ok] at run
  obtain ⟨w, p, x, q, left, pq, y, s, z, t, right, st, difference⟩ := run
  exact ⟨w, x, y, z, left, right, p, q, pq, s, t, st, difference⟩

/-- Adds the entry of a row at a column, with the sign of its place, times the determinant of what
is left without them. -/
def AddsCofactor (a : Expr) (row : Nat) (rest : Nat → Except BuildError Expr) (total : Expr)
    (column place : Nat) (next : Expr) : Prop :=
  ∃ entry signed cofactor product, a.entry row column = .ok entry ∧
    contractedProduct (int (if place % 2 = 0 then 1 else -1)) entry = .ok signed ∧
    rest place = .ok cofactor ∧ contractedProduct signed cofactor = .ok product ∧
    total.add product = .ok next

/-- Totals of a row, each of them from the one before it. -/
inductive AddsRow (step : Expr → Nat → Nat → Expr → Prop) : Expr → List (Nat × Nat) → Expr → Prop
  | nil {total : Expr} : AddsRow step total [] total
  | cons {total next r : Expr} {column place : Nat} {rest : List (Nat × Nat)} :
      step total column place next → AddsRow step next rest r →
      AddsRow step total ((column, place) :: rest) r

theorem laplace_cases {row : Nat} {rows columns : List Nat}
    (run : a.laplace (row :: rows) columns = .ok r) :
    (∃ next c d, rows = [next] ∧ columns = [c, d] ∧
      IsMinor (a.entry row c) (a.entry next d) (a.entry row d) (a.entry next c) r) ∨
    AddsRow (AddsCofactor a row fun place => a.laplace rows (columns.eraseIdx place)) zero
      columns.zipIdx r := by
  have fold {places : List (Nat × Nat)} {start : Expr}
      (sum : places.foldlM (fun total pair => do
        let sign := int (if pair.2 % 2 = 0 then 1 else -1)
        let signed ← contractedProduct sign (← a.entry row pair.1)
        let cofactor ← laplace a rows (columns.eraseIdx pair.2)
        total.add (← contractedProduct signed cofactor)) start = .ok r) :
      AddsRow (AddsCofactor a row fun place => a.laplace rows (columns.eraseIdx place)) start
        places r := by
    induction places generalizing start with
    | nil =>
        cases sum
        exact .nil
    | cons head rest ih =>
        obtain ⟨column, place⟩ := head
        rw [List.foldlM_cons, except_bind_ok] at sum
        obtain ⟨next, step, others⟩ := sum
        simp only [except_bind_ok] at step
        obtain ⟨entry, found, signed, sign, cofactor, below, product, made, total⟩ := step
        exact .cons ⟨entry, signed, cofactor, product, found, sign, below, made, total⟩ (ih others)
  unfold laplace at run
  split at run
  · exact .inl ⟨_, _, _, rfl, rfl, minor_pair_cases run⟩
  · exact .inr (fold run)

theorem square_determinant_cases (run : a.squareDeterminant = .ok r) :
    (a.isZero = true ∧ r = zero) ∨ ∃ n, a.shape = [n, n] ∧ a.free = ∅ ∧ n ≠ 0 ∧
      ((n = 1 ∧ a.entry 0 0 = .ok r) ∨ a.laplace (List.range n) (List.range n) = .ok r) := by
  unfold squareDeterminant at run
  split at run
  · exact .inl ⟨‹_›, ((except_pure_ok _ _).mp run).symm⟩
  · obtain ⟨n, dim, run⟩ := (except_bind_ok _ _ _).mp run
    obtain ⟨shape, free⟩ := Formula.square_dim_ok dim
    obtain ⟨rows, run⟩ := except_if_ok (by simp) run
    refine .inr ⟨n, shape, free, rows, ?_⟩
    split at run
    · exact .inl ⟨‹_›, (except_map_error_ok LoweringError.build _ _).mp run⟩
    · exact .inr ((except_map_error_ok _ _ _).mp run)

theorem determinant_formula_cases (run : a.determinantFormula supply = .ok (r, after)) :
    (a.isZero = true ∧ r = zero) ∨ (a.shape = [] ∧ r = a) ∨
      (∃ n, a.shape = [n, n] ∧ a.squareDeterminant = .ok r) ∨
      (∃ m n, a.shape = [m, n] ∧ m ≠ n ∧ a.pseudoDeterminantFormula supply = .ok (r, after)) := by
  unfold determinantFormula at run
  split at run
  · exact .inl ⟨‹_›, ((Fresh.pure_ok _ _).mp run).1.symm⟩
  · cases shape : a.shape with
    | nil =>
        simp only [shape] at run
        exact .inr (.inl ⟨rfl, ((Fresh.pure_ok _ _).mp run).1.symm⟩)
    | cons m rest =>
        obtain _ | ⟨n, _ | ⟨_, _⟩⟩ := rest
        · simp [shape] at run
        · by_cases square : m = n
          · simp only [shape, if_pos square] at run
            subst square
            exact .inr (.inr (.inl ⟨m, rfl, ((Fresh.lift_ok _ _).mp run).1⟩))
          · simp only [shape, if_neg square] at run
            exact .inr (.inr (.inr ⟨m, n, rfl, square, run⟩))
        · simp [shape] at run

/-- A table of polynomials for each dimension it is known in. -/
def UsesTable (a : Expr) (tables : List (Nat × List (List Polynomial))) (r : Expr) : Prop :=
  a.free = ∅ ∧ ∃ n table, (n, table) ∈ tables ∧ a.shape = [n, n] ∧ a.polynomialMatrix table = .ok r

theorem adjugate_formula_cases (run : a.adjugateFormula = .ok r) :
    UsesTable a [(2, Formula.adjugate2), (3, Formula.adjugate3), (4, Formula.adjugate4)] r := by
  obtain ⟨n, dim, run⟩ := (except_bind_ok _ _ _).mp run
  obtain ⟨shape, free⟩ := Formula.square_dim_ok dim
  split at run
  · exact ⟨free, _, _, by simp, shape, (except_map_error_ok _ _ _).mp run⟩
  · exact ⟨free, _, _, by simp, shape, (except_map_error_ok _ _ _).mp run⟩
  · exact ⟨free, _, _, by simp, shape, (except_map_error_ok _ _ _).mp run⟩
  · simp at run

theorem cofactor_formula_cases (run : a.cofactorFormula = .ok r) :
    UsesTable a [(2, Formula.cofactor2), (3, Formula.cofactor3), (4, Formula.cofactor4)] r := by
  obtain ⟨n, dim, run⟩ := (except_bind_ok _ _ _).mp run
  obtain ⟨shape, free⟩ := Formula.square_dim_ok dim
  split at run
  · exact ⟨free, _, _, by simp, shape, (except_map_error_ok _ _ _).mp run⟩
  · exact ⟨free, _, _, by simp, shape, (except_map_error_ok _ _ _).mp run⟩
  · exact ⟨free, _, _, by simp, shape, (except_map_error_ok _ _ _).mp run⟩
  · simp at run

theorem square_inverse_cases (run : a.squareInverse supply = .ok (r, after)) :
    a.free = ∅ ∧
      ((a.shape.headD 0 = 1 ∧ ∃ entry reciprocal, a.entry 0 0 = .ok entry ∧
          one.scalarQuotient entry = .ok reciprocal ∧ matrix [[reciprocal]] = .ok r) ∨
        ∃ adjugate determinant, a.adjugateFormula = .ok adjugate ∧
          a.squareDeterminant = .ok determinant ∧
          adjugate.divide determinant supply = .ok (r, after)) := by
  unfold squareInverse at run
  obtain ⟨_, _, checked, run⟩ := (Fresh.bind_ok _ _ _).mp run
  obtain ⟨unindexed, rfl⟩ := (Fresh.lift_ok _ _).mp checked
  refine ⟨Formula.expect_index_free_ok unindexed, ?_⟩
  split at run
  · simp only [Fresh.bind_ok, Fresh.map_error_ok, Fresh.lift_ok] at run
    obtain ⟨entry, _, ⟨found, rfl⟩, reciprocal, _, ⟨quotient, rfl⟩, last, _⟩ := run
    exact .inl ⟨‹_›, entry, reciprocal, found, quotient, last⟩
  · simp only [Fresh.bind_ok, Fresh.map_error_ok, Fresh.lift_ok] at run
    obtain ⟨adjugate, _, ⟨first, rfl⟩, determinant, _, ⟨second, rfl⟩, last⟩ := run
    exact .inr ⟨adjugate, determinant, first, second, last⟩

theorem diagonal_share_cases {share : DiagonalShare} (run : a.diagonalShare share = .ok r) :
    ∃ entry, a.entry share.place share.place = .ok entry ∧
      contractedProduct (fraction share.numerator share.denominator) entry = .ok r :=
  (except_bind_ok _ _ _).mp run

/-- What adding or taking away shares one by one went through. -/
inductive AddsShares (a : Expr) : Expr → List DiagonalShare → Expr → Prop
  | nil {total : Expr} : AddsShares a total [] total
  | cons {total part next r : Expr} {share : DiagonalShare} {rest : List DiagonalShare} :
      a.diagonalShare share = .ok part →
      (if share.negative then total.scalarSub part else total.add part) = .ok next →
      AddsShares a next rest r → AddsShares a total (share :: rest) r

theorem diagonal_shares_cons {first : DiagonalShare} {rest : List DiagonalShare}
    (run : a.diagonalShares (first :: rest) = .ok r) :
    ∃ start, a.diagonalShare first = .ok start ∧ AddsShares a start rest r := by
  obtain ⟨start, found, others⟩ := (except_bind_ok _ _ _).mp run
  refine ⟨start, found, ?_⟩
  clear run found
  induction rest generalizing start with
  | nil =>
      cases others
      exact .nil
  | cons share rest ih =>
      rw [List.foldlM_cons, except_bind_ok] at others
      obtain ⟨next, step, others⟩ := others
      obtain ⟨part, made, sum⟩ := (except_bind_ok _ _ _).mp step
      exact .cons made sum (ih next others)

/-- An entry of the deviatoric part: shares of the diagonal on it, the matrix itself off it. -/
def deviatoricEntry (a : Expr) (dim row column : Nat) : Except BuildError Expr :=
  if row = column then a.diagonalShares (Formula.deviatoricDiagonal dim row) else a.entry row column

theorem deviatoric_formula_cases (run : a.deviatoricFormula = .ok r) :
    a.free = ∅ ∧ ∃ n table, (n = 2 ∨ n = 3) ∧ a.shape = [n, n] ∧
      (List.range n).mapM (fun row => (List.range n).mapM (a.deviatoricEntry n row)) = .ok table ∧
      matrix table = .ok r := by
  obtain ⟨n, dim, run⟩ := (except_bind_ok _ _ _).mp run
  obtain ⟨shape, free⟩ := Formula.square_dim_ok dim
  obtain ⟨known, run⟩ := except_if_ok (by simp) run
  obtain ⟨table, rows, last⟩ := (except_bind_ok _ _ _).mp ((except_map_error_ok _ _ _).mp run)
  exact ⟨free, n, table, by omega, shape, rows, last⟩

end Expr

end FormCalculus
