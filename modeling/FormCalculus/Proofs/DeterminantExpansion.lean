import Mathlib.LinearAlgebra.Matrix.Determinant.Basic
import FormCalculus.Proofs.Constructible
import FormCalculus.Proofs.FormulaCases
import FormCalculus.Proofs.ScalarValues

/-!
Determinants in every dimension: the expansion along the first row always succeeds, and gives the
signed sum over the permutations, in any commutative ring.
-/
set_option autoImplicit false

namespace FormCalculus

open Expr

namespace Valuation

variable {R : Type*} [CommRing R] {v : Valuation R} {P : Expr → Prop} {a e : Expr} {x : R}

/-- The entries of the first rows and columns of a matrix. -/
def GivesEntries (v : Valuation R) (P : Expr → Prop) (a : Expr) (n : Nat) (entry : Nat → Nat → R) :
    Prop :=
  ∀ i j, i < n → j < n → ∃ e, a.entry i j = .ok e ∧ v.Gives P e (entry i j)

theorem sign_of_place (place : Nat) :
    (((if place % 2 = 0 then 1 else -1 : Int64).toInt : Int) : R) = (-1) ^ place := by
  rcases Nat.mod_two_eq_zero_or_one place with even | odd
  · rw [if_pos even, (Nat.even_iff.mpr even).neg_one_pow]
    exact Int.cast_one
  · rw [if_neg (by omega), (Nat.odd_iff.mpr odd).neg_one_pow]
    show ((-1 : Int) : R) = -1
    rw [Int.cast_neg, Int.cast_one]

theorem fold_gives {α : Type} {step : Expr → α → Except BuildError Expr}
    {list : List α} (term : α → R) (start : v.Gives P e x)
    (steps : ∀ p ∈ list, ∀ e x, v.Gives P e x → ∃ next, step e p = .ok next ∧ v.Gives P next (x + term p)) :
    ∃ r, list.foldlM step e = .ok r ∧ v.Gives P r (x + (list.map term).sum) := by
  induction list generalizing e x with
  | nil => exact ⟨e, rfl, start.congr (add_zero x).symm⟩
  | cons p list ih =>
      obtain ⟨here, others⟩ := List.forall_mem_cons.mp steps
      obtain ⟨next, first, gives⟩ := here e x start
      obtain ⟨r, run, total⟩ := ih gives others
      refine ⟨r, ?_, total.congr ?_⟩
      · rw [List.foldlM_cons, first, except_ok_bind, run]
      · rw [List.map_cons, List.sum_cons, add_assoc]

/-- The product of two scalars less that of two others can be built. -/
theorem minor_gives [kept : KeptByBuilding P] [Folding] (exact : v.Exact)
    {p q s t : Except BuildError Expr} {w x y z : R} (first : ∃ e, p = .ok e ∧ v.Gives P e w)
    (second : ∃ e, q = .ok e ∧ v.Gives P e x) (third : ∃ e, s = .ok e ∧ v.Gives P e y)
    (fourth : ∃ e, t = .ok e ∧ v.Gives P e z) :
    ∃ r, (do
        let left ← contractedProduct (← p) (← q)
        let right ← contractedProduct (← s) (← t)
        left.scalarSub right) = .ok r ∧ v.Gives P r (w * x - y * z) := by
  obtain ⟨_, rfl, first⟩ := first
  obtain ⟨_, rfl, second⟩ := second
  obtain ⟨_, rfl, third⟩ := third
  obtain ⟨_, rfl, fourth⟩ := fourth
  obtain ⟨left, times, product⟩ := first.product exact second
  obtain ⟨right, times', product'⟩ := third.product exact fourth
  obtain ⟨r, run, difference⟩ := product.sub exact product'
  refine ⟨r, ?_, difference⟩
  simp only [times, times', except_ok_bind, run]

section Expansion

variable [kept : KeptByBuilding P] [Folding] (exact : v.Exact) {n : Nat} {entry : Nat → Nat → R}
  (entries : v.GivesEntries P a n entry)

include exact entries

theorem pair_gives {r s c d : Nat} (first : r < n) (second : s < n) (left : c < n) (right : d < n) :
    ∃ e, a.minorPair r s c d = .ok e ∧ v.Gives P e (minorAt entry [r, s] [c, d]) := by
  rw [minor_pair]
  exact minor_gives exact (entries r c first left) (entries s d second right)
    (entries r d first right) (entries s c second left)

/-- A cofactor, with the sign of its place, can be added. -/
theorem cofactor_gives {row column place : Nat} {total : Expr} {small : R}
    {rest : Except BuildError Expr} (inside : row < n) (inside' : column < n) (start : v.Gives P total x)
    (below : ∃ e, rest = .ok e ∧ v.Gives P e small) :
    ∃ next, (do
        let signed ← contractedProduct (int (if place % 2 = 0 then 1 else -1)) (← a.entry row column)
        let cofactor ← rest
        total.add (← contractedProduct signed cofactor)) = .ok next ∧
      v.Gives P next (x + (-1) ^ place * entry row column * small) := by
  obtain ⟨e, found, gives⟩ := entries row column inside inside'
  obtain ⟨signed, sign, product⟩ := (gives_int _).product exact gives
  obtain ⟨cofactor, rfl, minor⟩ := below
  obtain ⟨term, times, product'⟩ := product.product exact minor
  obtain ⟨next, run, sum⟩ := start.add exact product'
  refine ⟨next, ?_, sum.congr (by rw [sign_of_place])⟩
  simp only [found, sign, times, except_ok_bind, run]

theorem laplace_gives {rows columns : List Nat} (length : columns.length = rows.length)
    (inside : ∀ i ∈ rows, i < n) (inside' : ∀ j ∈ columns, j < n) :
    ∃ r, a.laplace rows columns = .ok r ∧ v.Gives P r (minorAt entry rows columns) := by
  induction rows generalizing columns with
  | nil => exact ⟨int 1, rfl, (gives_int 1).congr (by rw [minor_none]; exact Int.cast_one)⟩
  | cons row rows ih =>
      obtain ⟨here, others⟩ := List.forall_mem_cons.mp inside
      unfold laplace
      split
      · rename_i next c d
        exact pair_gives exact entries here (others next (by simp)) (inside' c (by simp))
          (inside' d (by simp))
      · refine (fold_gives (fun place => (-1) ^ place.2 * entry row place.1 *
          minorAt entry rows (columns.eraseIdx place.2)) gives_zero ?_).imp fun r made =>
            ⟨made.1, made.2.congr ?_⟩
        · intro ⟨column, place⟩ member e x start
          obtain ⟨below, rfl⟩ : ∃ below : place < columns.length, columns[place] = column := by
            have found := List.mk_mem_zipIdx_iff_getElem?.mp member
            exact List.getElem?_eq_some_iff.mp found
          refine cofactor_gives exact entries here (inside' _ (List.getElem_mem below)) start ?_
          refine ih ?_ others fun j member => inside' j (List.mem_of_mem_eraseIdx member)
          rw [List.length_eraseIdx_of_lt below, length, List.length_cons, Nat.add_sub_cancel]
        · rw [zero_add, minor_cons, sum_places fun column place => (-1) ^ place * entry row column *
            minorAt entry rows (columns.eraseIdx place), length]
          rfl

end Expansion

/-- The value of the component of a matrix at a row and a column. -/
def entryValue (v : Valuation R) (a : Expr) (i j : Nat) : R :=
  match a.entry i j with
  | .ok e => v.value e
  | .error _ => 0

/-- A matrix without free indices has its components for entries. -/
theorem closed_entries [kept : KeptByBuilding P] {n : Nat} (good : P a) (square : a.shape = [n, n])
    (unindexed : a.free = ∅) : v.GivesEntries P a n (v.entryValue a) := by
  intro i j row column
  have lies : Component.Lies [i, j] a.shape := square ▸ .cons row (.cons column .nil)
  obtain ⟨e, run⟩ := typed_component_total (kept.typed good) lies
  obtain ⟨_, scalar, free⟩ := subscripted_stored (kept.typed good) (subscript_cases run)
  have entry : P e := kept.subscript good (fun i inside => by simp at inside) run
  have closed : e.free = ∅ := by
    refine FreeIndices.ext_dim fun k d => ?_
    have absent : e.free.dim? k ≠ some d := fun found => by
      rcases free k d found with known | item
      · simp [unindexed] at known
      · simpa using (List.of_mem_zip item).1
    simpa using absent
  refine ⟨e, run, entry, scalar, closed, ?_⟩
  unfold entryValue
  rw [show a.entry i j = .ok e from run]

section Whole

variable [kept : KeptByBuilding P] [Folding] (exact : v.Exact) {n : Nat} {entry : Nat → Nat → R}
  (entries : v.GivesEntries P a n entry) (square : a.shape = [n, n]) (unindexed : a.free = ∅)

include exact entries square unindexed

theorem square_determinant_gives (rows : n ≠ 0) : ∃ r, a.squareDeterminant = .ok r ∧
    v.Gives P r (Matrix.of fun i j : Fin n => entry i j).det := by
  have dim : Formula.determinant.squareDim a = .ok n := Formula.square_dim_runs square unindexed
  unfold squareDeterminant
  by_cases vanishes : a.isZero = true
  · rw [if_pos vanishes]
    refine ⟨zero, rfl, gives_zero.congr ?_⟩
    have none : Matrix.of (fun i j : Fin n => entry i j) = 0 := Matrix.ext fun i j => by
      obtain ⟨e, found, gives⟩ := entries i j i.isLt j.isLt
      exact gives.value.symm.trans (value_of_is_zero (component_of_zero vanishes found))
    have some : Nonempty (Fin n) := ⟨⟨0, Nat.pos_of_ne_zero rows⟩⟩
    rw [none, Matrix.det_zero]
  · rw [if_neg vanishes, dim, except_ok_bind, if_neg rows]
    by_cases single : n = 1
    · subst single
      obtain ⟨e, found, gives⟩ := entries 0 0 Nat.one_pos Nat.one_pos
      refine ⟨e, ?_, gives.congr (by rw [Matrix.det_fin_one]; rfl)⟩
      rw [if_pos rfl, found]
      rfl
    · obtain ⟨r, run, gives⟩ := laplace_gives exact entries
        (rfl : (List.range n).length = (List.range n).length) (fun i => List.mem_range.mp)
        (fun j => List.mem_range.mp)
      refine ⟨r, ?_, gives.congr (minor_whole _ n)⟩
      rw [if_neg single]
      exact (except_map_error_ok _ _ _).mpr run

theorem determinant_gives (rows : n ≠ 0) (supply : Supply) :
    ∃ r, a.determinantFormula supply = .ok (r, supply) ∧
      v.Gives P r (Matrix.of fun i j : Fin n => entry i j).det := by
  obtain ⟨r, run, gives⟩ := square_determinant_gives exact entries square unindexed rows
  refine ⟨r, ?_, gives⟩
  unfold determinantFormula
  by_cases vanishes : a.isZero = true
  · unfold squareDeterminant at run
    rw [if_pos vanishes] at run ⊢
    cases run
    rfl
  · rw [if_neg vanishes]
    simp only [square, if_true]
    exact (Fresh.lift_ok _ _).mpr ⟨run, rfl⟩

end Whole

end Valuation

/-- The determinant of a matrix without free indices can be built in every dimension, and is the sum
over the permutations of the signed products of the components that they pick. -/
theorem determinant_is_signed_sum {R : Type*} [CommRing R] (v : Valuation R) {a : Expr} {n : Nat}
    (supply : Supply) (rows : n ≠ 0) (made : Constructible a) (square : a.shape = [n, n])
    (unindexed : a.free = ∅)
    (exact : v.FoldsExactly fun folding => @determinantFormula folding a supply) :
    ∃ (r : Expr) (entry : Fin n → Fin n → Expr),
      (∀ i j : Fin n, a.component [(i : Nat), (j : Nat)] = .ok (entry i j)) ∧
      a.determinantFormula supply = .ok (r, supply) ∧ r.shape = [] ∧ r.free = ∅ ∧
      v.value r = ∑ σ : Equiv.Perm (Fin n), Equiv.Perm.sign σ • ∏ i, v.value (entry i (σ i)) := by
  have entries := v.closed_entries made.well_typed square unindexed
  -- The run under exact folds is the same run, and each of its folds keeps values.
  obtain ⟨r, run, gives⟩ :=
    @Valuation.determinant_gives R _ v WellTyped a _ v.exactFolding v.exact_folding_exact n _ entries
      square unindexed rows supply
  choose entry found each using fun i j : Fin n => entries i j i.isLt j.isLt
  refine ⟨r, entry, found, exact.symm.trans run, gives.scalar, gives.closed, ?_⟩
  rw [gives.value, ← Matrix.det_transpose, Matrix.det_apply]
  refine Finset.sum_congr rfl fun σ _ => congrArg _ (Finset.prod_congr rfl fun i _ => ?_)
  exact (each i (σ i)).value.symm

section Sample

/-- A matrix field of three rows and columns. -/
def sampleCube : Expr := .terminal (.coefficient ⟨0, .tensor [3, 3] 3⟩)

/-- The component at row `i` and column `j` is `i * j + i + 2 * j`, and one more on the diagonal. -/
def sampleValuation : Valuation ℤ where
  atom
    | .node .indexed [_, .terminal (.multiIndex [.fixed i, .fixed j])] _ _ =>
        i * j + i + 2 * j + if i = j then 1 else 0
    | _ => 0
  real _ := 1
  real_one _ _ := rfl

/-- The determinant of the matrix with rows 1, 2, 4 and 1, 5, 7 and 2, 6, 11 is 3. -/
theorem determinant_of_cube : ∃ r, sampleCube.determinantFormula {} = .ok (r, {}) ∧
    r.shape = [] ∧ r.free = ∅ ∧ sampleValuation.value r = 3 := by
  have exact : sampleValuation.FoldsExactly fun folding => @determinantFormula folding sampleCube {} := by
    unfold Valuation.FoldsExactly
    cbv
  obtain ⟨r, entry, found, run, scalar, closed, value⟩ :=
    determinant_is_signed_sum sampleValuation {} (by decide : 3 ≠ 0) (.terminal _) rfl rfl exact
  refine ⟨r, run, scalar, closed, value.trans ?_⟩
  have component (i j : Fin 3) : sampleCube.component [(i : Nat), (j : Nat)] =
      .ok (.node .indexed [sampleCube, multiIndex [.fixed i, .fixed j]] [] ∅) := by
    fin_cases i <;> fin_cases j <;> rfl
  have entries (i j : Fin 3) : sampleValuation.value (entry i j) =
      i * j + i + 2 * j + if (i : Nat) = j then 1 else 0 := by
    rw [← Except.ok.inj ((component i j).symm.trans (found i j))]
    rfl
  simp only [entries]
  decide +kernel

end Sample

end FormCalculus
