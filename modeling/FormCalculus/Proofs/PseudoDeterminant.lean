import FormCalculus.Proofs.ExpansionValue
import FormCalculus.Proofs.GramFormulas

/-!
The pseudo-determinant of a matrix is the square root of the determinant of its Gram matrix, in any
commutative ring and for any number of rows and columns, also where it is the length of a single column
or of the normal of two columns in space.
-/
set_option autoImplicit false

namespace FormCalculus

open Expr Denotes

universe u

namespace Expr

variable [Folding] {a r : Expr}

/-- The square of the length of a single column. -/
def columnRadicand (a : Expr) : Fresh LoweringError Expr := do
  let (_, column) ← Fresh.mapError .build (a.columnAt 0)
  Fresh.mapError .build (column.contractedProduct column)

/-- A column of a matrix, as a vector. -/
def columnVector (a : Expr) (column : Nat) : Fresh BuildError Expr := do
  let (i, component) ← a.columnAt column
  asTensor component [i]

/-- The square of the length of the normal of two columns. -/
def normalRadicand (a : Expr) : Fresh LoweringError Expr := do
  let first ← Fresh.mapError .build (a.columnVector 0)
  let second ← Fresh.mapError .build (a.columnVector 1)
  let normal ← crossFormula first second
  let i ← Fresh.newIndex
  let component ← Fresh.mapError .build (normal.indexBy [i])
  Fresh.mapError .build (component.contractedProduct component)

def gramRadicand (a : Expr) : Fresh LoweringError Expr := do
  let gram ← Fresh.mapError .build a.gramMatrix
  gram.squareDeterminant

/-- What the pseudo-determinant of a matrix of `m` rows and `n` columns is the square root of. -/
def pseudoRadicand (a : Expr) (m n : Nat) : Fresh LoweringError Expr :=
  if n = 1 then a.columnRadicand else if n = 2 ∧ m = 3 then a.normalRadicand else a.gramRadicand

theorem pseudo_determinant_of_radicand {m n : Nat} {s : Expr} {supply after : Supply}
    (shape : a.shape = [m, n]) (unindexed : a.free = ∅)
    (radicand : a.pseudoRadicand m n supply = .ok (s, after)) (root : s.sqrt = .ok r) :
    a.pseudoDeterminantFormula supply = .ok (r, after) := by
  -- The norm of a component is the root of its product with itself.
  have norm_ok {component : Expr} (times : component.contractedProduct component = .ok s) :
      component.norm = .ok r := (except_bind_ok _ _ _).mpr ⟨s, times, root⟩
  unfold pseudoDeterminantFormula
  refine (Fresh.bind_ok _ _ _).mpr
    ⟨(m, n), supply, (Fresh.lift_ok _ _).mpr ⟨Formula.matrix_shape_runs shape, rfl⟩, ?_⟩
  refine (Fresh.bind_ok _ _ _).mpr
    ⟨(), supply, (Fresh.lift_ok _ _).mpr ⟨Formula.expect_index_free_runs unindexed, rfl⟩, ?_⟩
  -- The formula and what its root is taken of go the same way.
  unfold pseudoRadicand at radicand
  by_cases single : n = 1
  · simp only [if_pos single, columnRadicand, Fresh.bind_ok, Fresh.map_error_ok, Fresh.lift_ok] at radicand ⊢
    obtain ⟨column, between, found, times, same⟩ := radicand
    exact ⟨column, between, found, norm_ok times, same⟩
  by_cases space : n = 2 ∧ m = 3
  · simp only [if_neg single, if_pos space, normalRadicand, columnVector, Fresh.bind_ok,
      Fresh.map_error_ok, Fresh.lift_ok] at radicand ⊢
    obtain ⟨first, between, left, second, between', right, normal, _, cross, i, last, taken, component,
      _, found, times, same⟩ := radicand
    exact ⟨first, between, left, second, between', right, normal, _, cross, i, last, taken, component,
      _, found, norm_ok times, same⟩
  · simp only [if_neg single, if_neg space, gramRadicand, Fresh.bind_ok, Fresh.map_error_ok,
      Fresh.lift_ok] at radicand ⊢
    obtain ⟨gram, between, made, determinant⟩ := radicand
    exact ⟨gram, between, made, s, after, determinant, root, rfl⟩

end Expr

variable {R : Type*} [CommRing R]

/-- The square of the length of the normal of two columns is their Gram determinant. -/
theorem cross_square (g : Component → R) :
    ∑ z ∈ Finset.range 3, crossAt (fun c => g [c.headD 0, 0]) (fun c => g [c.headD 0, 1]) z *
        crossAt (fun c => g [c.headD 0, 0]) (fun c => g [c.headD 0, 1]) z =
      (Matrix.of fun i j : Fin 2 => gramOf 3 g [(i : Nat), (j : Nat)]).det := by
  rw [Matrix.det_fin_two]
  simp only [Finset.sum_range_succ, Finset.sum_range_zero, crossAt, gramOf, tableOf, Matrix.of_apply,
    Fin.val_zero, Fin.val_one, List.getD_cons_zero, List.getD_cons_succ, List.headD_cons]
  ring

namespace Represents

variable {P : Expr → Prop} [kept : KeptByBuilding P] {v : RingValuation R} {a b e r : Expr}
  {m n : Nat} {g : Component → R} {f : Nat → R}

variable [Folding] (exact : v.Exact)

include exact

theorem cross_total {p q : Component → R} (left : Represents P v a [3] Closed fun _ => p)
    (right : Represents P v b [3] Closed fun _ => q) :
    ∃ r, a.crossFormula b = .ok r ∧
      Represents P v r [3] Closed fun _ c => crossAt p q (c.headD 0) := by
  have passes : ∀ e ∈ [a, b], e.shape = [3] ∧ e.free = ∅ := by
    simp [left.shaped, right.shaped, left.closed_free, right.closed_free]
  have minor (i j : Nat) (small : i < 3) (small' : j < 3) :=
    of_total fun ρ => Valuation.minor_gives (v.scalars_exact exact ρ)
      (left.component_gives (.cons small .nil) ρ) (right.component_gives (.cons small' .nil) ρ)
      (left.component_gives (.cons small' .nil) ρ) (right.component_gives (.cons small .nil) ρ)
  obtain ⟨x, first, x_minor⟩ := minor 1 2 (by decide) (by decide)
  obtain ⟨y, second, y_minor⟩ := minor 2 0 (by decide) (by decide)
  obtain ⟨z, third, z_minor⟩ := minor 0 1 (by decide) (by decide)
  -- The minors in the order of the components, the middle one with its rows swapped.
  have each (k : Nat) (e : Expr) (found : [x, y, z][k]? = some e) :
      Represents P v e [] Closed fun _ _ => crossAt p q k := by
    match k, found with
    | 0, rfl => exact x_minor
    | 1, rfl => exact y_minor
    | 2, rfl => exact z_minor
  have scalars : ∀ e ∈ [x, y, z], e.shape = [] ∧ e.free = ∅ := by
    simp [x_minor.shaped, y_minor.shaped, z_minor.shaped, x_minor.closed_free, y_minor.closed_free,
      z_minor.closed_free]
  obtain ⟨r, run, _⟩ := vector_total (List.cons_ne_nil _ _) scalars
  refine ⟨r, ?_, (list_tensor each (vector_cases run).2).congr fun ρ c length => ?_⟩
  · unfold crossFormula
    rw [each_passes fun e member => ?_]
    · simp only [first, second, third, except_ok_bind, run]
      rfl
    · obtain ⟨shape, unindexed⟩ := passes e member
      simp [shape, Formula.expect_index_free_runs unindexed]
  · obtain ⟨i, rfl⟩ := List.length_eq_one_iff.mp length
    show (if i < 3 then _ else _) = crossAt p q i
    by_cases inside : i < 3
    · rw [if_pos inside]
    · obtain ⟨k, rfl⟩ := Nat.exists_eq_add_of_le' (Nat.not_lt.mp inside)
      rw [if_neg inside]
      rfl

omit [Folding] exact in
theorem column_vector_total (steady : v.Steady) (matrix : Represents P v a [m, n] Closed fun _ => g)
    {j : Nat} (inside : j < n) (supply : Supply) :
    ∃ column, a.columnVector j supply = .ok (column, { supply with index := supply.index + 1 }) ∧
      Represents P v column [m] Closed fun _ c => g [c.headD 0, j] := by
  obtain ⟨k, component, first, found, entry⟩ := matrix.column_total inside supply
  obtain ⟨column, run, represents⟩ := entry.vector_over (f := fun z => g [z, j]) steady found
  exact ⟨column, (Fresh.bind_ok _ _ _).mpr ⟨_, _, first, (Fresh.lift_ok _ _).mpr ⟨run, rfl⟩⟩, represents⟩

theorem column_radicand (matrix : Represents P v a [m, 1] Closed fun _ => g) (supply : Supply) :
    ∃ s after, a.columnRadicand supply = .ok (s, after) ∧
      Represents P v s [] Closed fun _ _ => gramOf m g [0, 0] := by
  obtain ⟨k, column, first, found, component⟩ := matrix.column_total Nat.zero_lt_one supply
  obtain ⟨s, times, square⟩ := component.length_total exact (f := fun z => g [z, 0]) found
  refine ⟨s, { supply with index := supply.index + 1 }, ?_, square⟩
  simp only [columnRadicand, Fresh.bind_ok, Fresh.map_error_ok, Fresh.lift_ok]
  exact ⟨_, _, first, times, rfl⟩

theorem normal_radicand (steady : v.Steady) (matrix : Represents P v a [3, 2] Closed fun _ => g)
    (supply : Supply) :
    ∃ s after, a.normalRadicand supply = .ok (s, after) ∧ Represents P v s [] Closed fun _ _ =>
      (Matrix.of fun i j : Fin 2 => gramOf 3 g [(i : Nat), (j : Nat)]).det := by
  -- Each column takes an index, and the normal a third one.
  obtain ⟨left, first, left_represents⟩ :=
    matrix.column_vector_total steady (j := 0) (by decide) supply
  obtain ⟨right, second, right_represents⟩ :=
    matrix.column_vector_total steady (j := 1) (by decide) { supply with index := supply.index + 1 }
  obtain ⟨normal, cross, normal_represents⟩ := left_represents.cross_total exact right_represents
  obtain ⟨component, found, dim, entry⟩ :=
    normal_represents.at_index_total ⟨supply.index + 1 + 1⟩
  obtain ⟨s, times, square⟩ := entry.length_total exact dim
  refine ⟨s, { supply with index := supply.index + 1 + 1 + 1 }, ?_, square.congr fun _ _ _ =>
    cross_square g⟩
  simp only [normalRadicand, Fresh.bind_ok, Fresh.map_error_ok, Fresh.lift_ok, Fresh.new_index_ok]
  exact ⟨left, _, first, right, _, second, normal, _, ⟨cross, rfl⟩, _, _, ⟨rfl, rfl⟩, component, _,
    ⟨found, rfl⟩, times, rfl⟩

/-- Along each of the paths, what the root is taken of is the determinant of the Gram matrix. -/
theorem pseudo_radicand (steady : v.Steady) (matrix : Represents P v a [m, n] Closed fun _ => g)
    (columns : n ≠ 0) (supply : Supply) :
    ∃ s after, a.pseudoRadicand m n supply = .ok (s, after) ∧ Represents P v s [] Closed fun _ _ =>
      (Matrix.of fun i j : Fin n => gramOf m g [(i : Nat), (j : Nat)]).det := by
  unfold pseudoRadicand
  by_cases single : n = 1
  · subst single
    obtain ⟨s, after, run, square⟩ := matrix.column_radicand exact supply
    rw [if_pos rfl]
    refine ⟨s, after, run, square.congr fun ρ c _ => ?_⟩
    rw [Matrix.det_fin_one]
    rfl
  by_cases space : n = 2 ∧ m = 3
  · obtain ⟨rfl, rfl⟩ := space
    rw [if_neg single, if_pos ⟨rfl, rfl⟩]
    exact matrix.normal_radicand exact steady supply
  · obtain ⟨gram, after, made, gram_represents⟩ := matrix.gram_total exact steady supply
    obtain ⟨s, determinant, represents⟩ := gram_represents.square_determinant_total exact columns
    rw [if_neg single, if_neg space]
    refine ⟨s, after, ?_, represents⟩
    simp only [gramRadicand, Fresh.bind_ok, Fresh.map_error_ok, Fresh.lift_ok]
    exact ⟨gram, after, made, determinant, rfl⟩

end Represents

/-- The matrix of the components of an expression. -/
def RingValuation.matrix (v : RingValuation R) (e : Expr) (ρ : Assignment) (m n : Nat) :
    Matrix (Fin m) (Fin n) R := Matrix.of fun i j => v.value e ρ [(i : Nat), (j : Nat)]

/-- In the ring of one element everything has its one value. -/
def RingValuation.trivial : RingValuation PUnit.{1} where
  value _ _ _ := 0
  real _ := 0
  real_one _ _ := rfl
  zero _ _ _ _ := rfl
  int _ _ _ := rfl
  double _ _ _ := rfl
  identity _ _ _ _ := rfl
  sum _ _ _ _ _ _ := rfl
  product _ _ _ _ _ _ := rfl
  indexed _ _ _ _ _ _ := rfl
  indexSum _ _ _ _ _ _ := rfl
  componentTensor _ _ _ _ _ _ _ := rfl
  listTensor _ _ _ _ _ _ := rfl

/-- The pseudo-determinant of a matrix without free indices can be built, whatever the number of its
rows and columns. It is the square root of a scalar that is, in every commutative ring, the determinant
of the transposed matrix times the matrix. -/
theorem pseudo_determinant_squares {a : Expr} {m n : Nat} (supply : Supply) (columns : 1 ≤ n)
    (made : Constructible a) (shape : a.shape = [m, n]) (unindexed : a.free = ∅) :
    ∃ s r after, a.pseudoRadicand m n supply = .ok (s, after) ∧ s.sqrt = .ok r ∧
      a.pseudoDeterminantFormula supply = .ok (r, after) ∧ s.shape = [] ∧ s.free = ∅ ∧
      ∀ {R : Type u} [CommRing R] (v : RingValuation R), v.Steady →
        (v.FoldsExactly fun folding => @pseudoRadicand folding a m n supply) → ∀ ρ,
          v.value s ρ [] = ((v.matrix a ρ m n).transpose * v.matrix a ρ m n).det := by
  have some : n ≠ 0 := Nat.one_le_iff_ne_zero.mp columns
  -- In the trivial ring every fold is exact, so that what is built is built at all.
  have exact : RingValuation.trivial.Exact := fun _ _ _ _ _ _ _ => rfl
  have steady : RingValuation.trivial.Steady := fun _ _ => rfl
  obtain ⟨s, after, radicand, scalar⟩ :=
    (Represents.of_constructible steady made shape unindexed fun _ => 0).pseudo_radicand exact steady
      some supply
  obtain ⟨r, root⟩ := sqrt_total scalar.shaped
  refine ⟨s, r, after, radicand, root,
    pseudo_determinant_of_radicand shape unindexed radicand root, scalar.shaped, scalar.closed_free,
    fun v steady exact ρ => ?_⟩
  -- The run under exact folds is the same run.
  have run : @pseudoRadicand v.exactFolding a m n supply = .ok (s, after) := exact.trans radicand
  let folding := v.exactFolding
  obtain ⟨s', after', run', gram⟩ :=
    (Represents.of_constructible steady made shape unindexed ρ).pseudo_radicand
      v.exact_folding_exact steady some supply
  obtain ⟨rfl, rfl⟩ : s' = s ∧ after' = after := by simpa using run'.symm.trans run
  rw [gram.value ρ [] rfl, gram_entries]
  rfl

section Sample

/-- A matrix field of a single column. -/
def sampleColumn : Expr := .terminal (.coefficient ⟨0, .tensor [2, 1] 2⟩)

/-- The square of the length of the column with components 2 and 3 is 13. -/
theorem root_of_column : ∃ s r after, sampleColumn.pseudoRadicand 2 1 {} = .ok (s, after) ∧
    s.sqrt = .ok r ∧ sampleColumn.pseudoDeterminantFormula {} = .ok (r, after) ∧
      (sampleReading.valuation none).value s (fun _ => 0) [] = 13 := by
  let v := (sampleReading.valuation none).toRing
  have steady : v.Steady := Reading.valuation_steady (fun _ _ _ => rfl) none
  have exact : v.FoldsExactly fun folding => @pseudoRadicand folding sampleColumn 2 1 {} := by
    unfold RingValuation.FoldsExactly
    cbv
  have entry (i j : Nat) : v.value sampleColumn (fun _ => 0) [i, j] = (i : ℚ) + j + 2 := by
    show (([i, j].sum : Nat) : ℚ) + 2 = _
    simp
  have made : Constructible sampleColumn := .terminal _
  have shape : sampleColumn.shape = [2, 1] := rfl
  obtain ⟨s, r, after, radicand, root, run, _, _, value⟩ :=
    pseudo_determinant_squares {} le_rfl made shape rfl
  refine ⟨s, r, after, radicand, root, run, (value v steady exact _).trans ?_⟩
  rw [Matrix.det_fin_one, Matrix.mul_apply, Fin.sum_univ_two]
  norm_num [RingValuation.matrix, entry]

end Sample

end FormCalculus
