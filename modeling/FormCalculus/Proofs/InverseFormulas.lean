import Mathlib.Algebra.BigOperators.Field
import FormCalculus.Proofs.ExpansionValue
import FormCalculus.Proofs.GramFormulas

/-!
Inverses invert. The inverse of a square matrix is its adjugate over its determinant; that of another
matrix, with any number of rows, is the inverse of its Gram matrix times the transposed matrix, and
for a single column the transposed column over the square of its length.
-/
set_option autoImplicit false

namespace FormCalculus

open Expr Denotes

variable {K : Type} [Field K]

/-- The matrix of the first rows and columns of a tensor. -/
def rectangleOf (m n : Nat) (entry : Component → K) : Matrix (Fin m) (Fin n) K :=
  Matrix.of fun i j => entry [i, j]

theorem square_of_gram (m n : Nat) (entry : Component → K) :
    squareOf n (gramOf m entry) = (rectangleOf m n entry).transpose * rectangleOf m n entry :=
  gram_entries m n entry

theorem square_of_entries {n : Nat} (matrix : Matrix (Fin n) (Fin n) K) :
    squareOf n (entryOf matrix) = matrix := by
  ext i j
  show (if inside : _ then _ else _) = _
  rw [dif_pos ⟨i.isLt, j.isLt⟩]

/-- What the inverse of a matrix that is not square is made of. -/
inductive PseudoInverts [Folding] (a : Expr) : Expr → Prop
  | column {i j k : Index} {m : Nat} {entry transposed column square r : Expr} {later after : Supply} :
      a.shape = [m, 1] → [i, j, k].Nodup → a.indexBy [i, j] = .ok entry →
      entry.asTensor [j, i] = .ok transposed → a.index [.free k, .fixed 0] = .ok column →
      column.contractedProduct column = .ok square →
      transposed.divide square later = .ok (r, after) → PseudoInverts a r
  | gram {i j k : Index} {gram inverse left right product r : Expr}
      {first second third : Supply} : [i, j, k].Nodup → a.gramMatrix first = .ok (gram, second) →
      gram.squareInverse second = .ok (inverse, third) → inverse.indexBy [j, i] = .ok left →
      a.indexBy [k, i] = .ok right → left.contractedProduct right = .ok product →
      product.asTensor [j, k] = .ok r → PseudoInverts a r

theorem pseudo_inverse_cases [Folding] {a r : Expr} {supply after : Supply}
    (run : a.pseudoInverseFormula supply = .ok (r, after)) : PseudoInverts a r := by
  simp only [pseudoInverseFormula, Fresh.bind_ok, Fresh.lift_ok] at run
  obtain ⟨⟨m, n⟩, _, ⟨dims, _⟩, _, _, _, run⟩ := run
  have shape := Formula.matrix_shape_ok dims
  split at run
  · rename_i single
    obtain rfl : n = 1 := single
    rw [Fresh.map_error_ok] at run
    obtain ⟨i, j, k, _, distinct, run⟩ := Fresh.three_indices run
    simp only [Fresh.bind_ok, Fresh.lift_ok] at run
    obtain ⟨entry, _, ⟨first, _⟩, transposed, _, ⟨swapped, _⟩, column, _, ⟨second, _⟩, square, _,
      ⟨times, _⟩, last⟩ := run
    exact .column shape distinct first swapped second times last
  · obtain ⟨gram, _, made, run⟩ := (Fresh.bind_ok _ _ _).mp run
    obtain ⟨inverse, _, inverted, run⟩ := (Fresh.bind_ok _ _ _).mp run
    rw [Fresh.map_error_ok] at made run
    obtain ⟨i, j, k, _, distinct, run⟩ := Fresh.three_indices run
    simp only [Fresh.bind_ok, Fresh.lift_ok] at run
    obtain ⟨left, _, ⟨first, _⟩, right, _, ⟨second, _⟩, product, _, ⟨times, _⟩, last, _⟩ := run
    exact .gram distinct made inverted first second times last

namespace Represents

variable {P : Expr → Prop} [kept : KeptByBuilding P] {v : TensorValuation K} {a b e r : Expr}
  {m n p : Nat} {g : Component → K} {supply after : Supply}

variable [Folding] (exact : v.Exact) (steady : v.Steady)

include exact steady

theorem column_inverse {i j k : Index} {entry column transposed square : Expr}
    (matrix : Represents P v.toRing a [m, 1] Closed fun _ => g) (regular : gramOf m g [0, 0] ≠ 0)
    (distinct : i ≠ j) (first : a.indexBy [i, j] = .ok entry)
    (swapped : entry.asTensor [j, i] = .ok transposed)
    (second : a.index [.free k, .fixed 0] = .ok column)
    (times : column.contractedProduct column = .ok square)
    (last : transposed.divide square supply = .ok (r, after)) :
    ∃ h : Component → K, Represents P v.toRing r [1, m] Closed (fun _ => h) ∧
      rectangleOf 1 m h * rectangleOf m 1 g = 1 := by
  refine ⟨_, (matrix.transposed steady distinct first swapped).divide exact steady
    (matrix.column_square exact.ring second times) nofun last, ?_⟩
  ext x y
  obtain ⟨rfl, rfl⟩ : x = 0 ∧ y = 0 := ⟨Subsingleton.elim x 0, Subsingleton.elim y 0⟩
  rw [Matrix.mul_apply, Matrix.one_apply_eq]
  calc ∑ z : Fin m, g [z, 0] / gramOf m g [0, 0] * g [z, 0]
      = (∑ z : Fin m, g [z, 0] * g [z, 0]) / gramOf m g [0, 0] := by
        rw [Finset.sum_div]
        exact Finset.sum_congr rfl fun z _ => div_mul_eq_mul_div _ _ _
    _ = gramOf m g [0, 0] / gramOf m g [0, 0] :=
        congrArg (· / _) (Fin.sum_univ_eq_sum_range (fun z => g [z, 0] * g [z, 0]) m)
    _ = 1 := div_self regular

/-- The inverse of the Gram matrix times the transposed matrix. -/
theorem gram_inverse {i j k : Index} {gram inverse left right product : Expr}
    {first second third : Supply} (unit : ∀ ρ c, v.value one ρ c = 1)
    (matrix : Represents P v.toRing a [m, n] Closed fun _ => g)
    (regular : (squareOf n (gramOf m g)).det ≠ 0) (distinct : [i, j, k].Nodup)
    (made : a.gramMatrix first = .ok (gram, second))
    (inverted : gram.squareInverse second = .ok (inverse, third))
    (left_made : inverse.indexBy [j, i] = .ok left) (right_made : a.indexBy [k, i] = .ok right)
    (times : left.contractedProduct right = .ok product) (run : product.asTensor [j, k] = .ok r) :
    ∃ h : Component → K, Represents P v.toRing r [n, m] Closed (fun _ => h) ∧
      rectangleOf n m h * rectangleOf m n g = 1 := by
  obtain ⟨ij, ik, jk⟩ : i ≠ j ∧ i ≠ k ∧ j ≠ k := by simpa [and_assoc] using distinct
  have inverse := (matrix.gram_matrix exact.ring steady made).square_inverse exact steady unit inverted
  obtain ⟨_, found, left⟩ := inverse.at_pair ij.symm left_made
  obtain ⟨_, known, right⟩ := matrix.at_pair ik.symm right_made
  let w : Component → K := entryOf (squareOf n (gramOf m g))⁻¹
  refine ⟨_, matrix_product exact.ring steady (G := fun x z => w [x, z]) (H := fun z y => g [y, z])
    (by simp [jk, ij.symm, ik.symm]) left (right.weaken fun x d => Or.symm) found
    (FreeIndices.contains_iff.mpr ⟨n, known⟩) times run, ?_⟩
  have product : rectangleOf n m (tableOf fun x y => ∑ z ∈ Finset.range n, w [x, z] * g [y, z]) =
      squareOf n w * (rectangleOf m n g).transpose := by
    ext x y
    rw [Matrix.mul_apply]
    exact (Fin.sum_univ_eq_sum_range (fun z => w [x, z] * g [y, z]) n).symm
  rw [square_of_entries] at product
  rw [product, Matrix.mul_assoc, ← square_of_gram]
  exact Matrix.nonsing_inv_mul _ (isUnit_iff_ne_zero.mpr regular)

/-- The inverse of a matrix that is not square is one from the left. -/
theorem pseudo_inverse (unit : ∀ ρ c, v.value one ρ c = 1)
    (matrix : Represents P v.toRing a [m, n] Closed fun _ => g)
    (regular : (squareOf n (gramOf m g)).det ≠ 0) (made : PseudoInverts a r) :
    ∃ h : Component → K, Represents P v.toRing r [n, m] Closed (fun _ => h) ∧
      rectangleOf n m h * rectangleOf m n g = 1 := by
  cases made with
  | column shape distinct first swapped second times last =>
      obtain ⟨rfl, rfl⟩ : m = _ ∧ n = 1 := by simpa [matrix.shaped] using shape
      obtain ⟨outside, _⟩ := List.nodup_cons.mp distinct
      rw [Matrix.det_fin_one] at regular
      exact matrix.column_inverse exact steady regular (fun same => outside (by simp [same])) first
        swapped second times last
  | gram distinct made inverted first second times last =>
      exact matrix.gram_inverse exact steady unit regular distinct made inverted first second times last

end Represents

/-- The matrix of the components of an expression. -/
def TensorValuation.matrix (v : TensorValuation K) (e : Expr) (ρ : Assignment) (m n : Nat) :
    Matrix (Fin m) (Fin n) K := rectangleOf m n (v.value e ρ)

/-- The inverse of a matrix without free indices, of any number of rows, inverts it from the left and,
if it is square, from the right, where the determinant of the matrix or else of its Gram matrix is not
zero. -/
theorem inverse_inverts (v : TensorValuation K) (steady : v.Steady) (ρ : Assignment) {a r : Expr}
    {m n : Nat} {supply after : Supply} (made : Constructible a) (shape : a.shape = [m, n])
    (unindexed : a.free = ∅) (square : m = n → (v.matrix a ρ n n).det ≠ 0)
    (other : m ≠ n → ((v.matrix a ρ m n).transpose * v.matrix a ρ m n).det ≠ 0)
    (exact : v.FoldsExactly fun folding => @inverseFormula folding a supply)
    (run : a.inverseFormula supply = .ok (r, after)) :
    r.shape = [n, m] ∧ r.free = ∅ ∧ v.matrix r ρ n m * v.matrix a ρ m n = 1 ∧
      (m = n → v.matrix a ρ m n * v.matrix r ρ n m = 1) := by
  -- The run under exact folds is the same run, and each of its folds keeps values.
  have run : @inverseFormula v.exactFolding a supply = .ok (r, after) := exact.trans run
  let folding := v.exactFolding
  have exact := v.exact_folding_exact
  have unit (ρ : Assignment) (c : Component) : v.value one ρ c = 1 :=
    v.toRing.value_of_is_one (by decide +kernel)
  have matrix : Represents WellTyped v.toRing a [m, n] Closed fun _ => v.value a ρ :=
    .of_constructible steady made shape unindexed ρ
  unfold inverseFormula at run
  simp only [shape] at run
  by_cases same : m = n
  · subst same
    rw [if_pos rfl] at run
    have inverse := matrix.square_inverse exact steady unit run
    have entries : v.matrix r ρ m m = (v.matrix a ρ m m)⁻¹ := by
      rw [← square_of_entries (v.matrix a ρ m m)⁻¹]
      exact Matrix.ext fun i j => inverse.value ρ [(i : Nat), (j : Nat)] rfl
    have unit : IsUnit (v.matrix a ρ m m).det := isUnit_iff_ne_zero.mpr (square rfl)
    refine ⟨inverse.shaped, inverse.closed_free, ?_, fun _ => ?_⟩
    · rw [entries, Matrix.nonsing_inv_mul _ unit]
    · rw [entries, Matrix.mul_nonsing_inv _ unit]
  · rw [if_neg same] at run
    have regular : (squareOf n (gramOf m (v.value a ρ))).det ≠ 0 := by
      rw [square_of_gram]
      exact other same
    obtain ⟨h, inverse, left⟩ :=
      matrix.pseudo_inverse exact steady unit regular (pseudo_inverse_cases run)
    have entries : v.matrix r ρ n m = rectangleOf n m h :=
      Matrix.ext fun i j => inverse.value ρ [(i : Nat), (j : Nat)] rfl
    refine ⟨inverse.shaped, inverse.closed_free, ?_, fun square => absurd square same⟩
    rw [entries]
    exact left

section Sample

/-- A matrix field of three rows and two columns. -/
def sampleColumns : Expr := .terminal (.coefficient ⟨0, .tensor [3, 2] 3⟩)

def sampleEntries : Matrix (Fin 3) (Fin 2) ℚ := Matrix.of fun i j => ((i : Nat) : ℚ) + (j : Nat) + 2

theorem sample_columns_runs : ∃ r after, sampleColumns.inverseFormula {} = .ok (r, after) := by
  cbv
  exact ⟨_, _, rfl⟩

/-- There is nothing to fold in it. -/
theorem sample_columns_exact (v : TensorValuation K) :
    v.FoldsExactly fun folding => @inverseFormula folding sampleColumns {} := by
  unfold TensorValuation.FoldsExactly
  cbv

/-- The matrix with rows 2, 3 and 3, 4 and 4, 5 has an inverse from the left. -/
theorem inverse_of_columns : ∃ r after, sampleColumns.inverseFormula {} = .ok (r, after) ∧
    r.shape = [2, 3] ∧ r.free = ∅ ∧
      (sampleReading.valuation none).matrix r (fun _ => 0) 2 3 * sampleEntries = 1 := by
  obtain ⟨r, after, run⟩ := sample_columns_runs
  have entries : (sampleReading.valuation none).matrix sampleColumns (fun _ => 0) 3 2 =
      sampleEntries := by
    ext i j
    show (([(i : Nat), (j : Nat)].sum : Nat) : ℚ) + 2 = (i : Nat) + (j : Nat) + 2
    simp
  have regular : (sampleEntries.transpose * sampleEntries).det ≠ 0 := by
    rw [Matrix.det_fin_two]
    norm_num [Matrix.mul_apply, Fin.sum_univ_three, sampleEntries]
  have two : sampleColumns.shape = [3, 2] := rfl
  obtain ⟨shape, closed, left, _⟩ := inverse_inverts (sampleReading.valuation none)
    (Reading.valuation_steady (fun _ _ _ => rfl) none) (fun _ => 0) (.terminal _) two rfl nofun
    (fun _ => entries.symm ▸ regular) (sample_columns_exact _) run
  exact ⟨r, after, run, shape, closed, entries ▸ left⟩

end Sample

end FormCalculus
