import FormCalculus.Proofs.AdjugateIdentities
import FormCalculus.Proofs.Representing

/-!
The closed forms of a matrix without free indices: what they make has, in a commutative ring, the
determinant of the matrix of its components, and in a field the entries of its adjugate, its
cofactors and its inverse.
-/
set_option autoImplicit false

namespace FormCalculus

open Expr Formula Denotes

namespace Represents

variable {P : Expr → Prop} [kept : KeptByBuilding P] {a e r : Expr} {n : Nat} {shape : Shape}
  {A : Index → Nat → Prop}

section Ring

variable {R : Type*} [CommRing R] {v : RingValuation R} {f : Assignment → Component → R}

/-- A scalar without free indices represents what it gives under each assignment. -/
theorem of_gives {x : Assignment → R} (gives : ∀ ρ, (v.scalars ρ).Gives P e (x ρ)) :
    Represents P v e [] Closed fun ρ _ => x ρ := by
  obtain ⟨good, scalar, closed, _⟩ := gives fun _ => 0
  refine ⟨good, fair_of_closed (kept.typed good) closed, scalar, fun i d found => ?_,
    fun ρ c empty => ?_⟩
  · simp [closed] at found
  · rw [List.eq_nil_of_length_eq_zero empty, ← v.scalars_value]
    exact (gives ρ).value

/-- What can be built under every assignment, and gives its value there, is one expression. -/
theorem of_total {ε : Type} {act : Except ε Expr} {x : Assignment → R}
    (total : ∀ ρ, ∃ e, act = .ok e ∧ (v.scalars ρ).Gives P e (x ρ)) :
    ∃ e, act = .ok e ∧ Represents P v e [] Closed fun ρ _ => x ρ := by
  obtain ⟨e, run, _⟩ := total fun _ => 0
  refine ⟨e, run, of_gives fun ρ => ?_⟩
  obtain ⟨e', run', gives⟩ := total ρ
  exact Except.ok.inj (run'.symm.trans run) ▸ gives

theorem component_gives {c : Component} (tensor : Represents P v a shape Closed f) (lies : c.Lies shape)
    (ρ : Assignment) : ∃ e, a.component c = .ok e ∧ (v.scalars ρ).Gives P e (f ρ c) := by
  obtain ⟨e, run⟩ := typed_component_total tensor.typed (tensor.shaped ▸ lies)
  have entry := tensor.component run
  refine ⟨e, run, entry.good, entry.shaped, entry.closed_free, ?_⟩
  rw [v.scalars_value]
  exact entry.value ρ [] rfl

theorem gives_entries (matrix : Represents P v a [n, n] Closed f) (ρ : Assignment) :
    (v.scalars ρ).GivesEntries P a n fun i j => f ρ [i, j] :=
  fun _ _ row column => matrix.component_gives (.cons row (.cons column .nil)) ρ

variable [Folding] (exact : v.Exact)

include exact

theorem polynomial {terms : Polynomial} (matrix : Represents P v a [n, n] Closed f)
    (products : ∀ term ∈ terms, IsMonomial n term) (run : a.polynomial terms = .ok r) :
    Represents P v r [] Closed fun ρ _ => polynomialValue (fun i j => f ρ [i, j]) terms := by
  refine of_gives fun ρ => ?_
  obtain ⟨r', run', gives⟩ :=
    Valuation.polynomial_gives (v.scalars_exact exact ρ) (matrix.gives_entries ρ) products
  exact Except.ok.inj (run'.symm.trans run) ▸ gives

theorem square_determinant_total (matrix : Represents P v a [n, n] Closed f) (rows : n ≠ 0) :
    ∃ r, a.squareDeterminant = .ok r ∧ Represents P v r [] Closed fun ρ _ =>
      (Matrix.of fun i j : Fin n => f ρ [(i : Nat), (j : Nat)]).det :=
  of_total fun ρ => Valuation.square_determinant_gives (v.scalars_exact exact ρ)
    (matrix.gives_entries ρ) matrix.shaped matrix.closed_free rows

theorem square_determinant (matrix : Represents P v a [n, n] A f) (rows : n ≠ 0)
    (run : a.squareDeterminant = .ok r) :
    Represents P v r [] Closed fun ρ _ =>
      (Matrix.of fun i j : Fin n => f ρ [(i : Nat), (j : Nat)]).det := by
  obtain ⟨vanishes, rfl⟩ | ⟨_, _, unindexed, _⟩ := square_determinant_cases run
  · -- A zero may have free indices.
    refine (self (kept.built (.zeros [] ∅)) rfl).congr fun ρ c _ => ?_
    have none : (Matrix.of fun i j : Fin n => f ρ [(i : Nat), (j : Nat)]) = 0 := Matrix.ext fun i j => by
      show f ρ [i, j] = 0
      rw [← matrix.value ρ [(i : Nat), (j : Nat)] rfl, v.value_of_is_zero vanishes]
    have some : Nonempty (Fin n) := ⟨⟨0, Nat.pos_of_ne_zero rows⟩⟩
    rw [none, Matrix.det_zero]
    exact v.value_of_is_zero rfl
  · obtain ⟨r', run', determinant⟩ := (matrix.close unindexed).square_determinant_total exact rows
    exact Except.ok.inj (run'.symm.trans run) ▸ determinant

end Ring

section Field

variable {K : Type} [Field K] {v : TensorValuation K} {f g : Assignment → Component → K} [Folding]
  (exact : v.Exact)

section Tables

include exact

theorem polynomial_matrix {table : List (List Polynomial)}
    {form : Matrix (Fin n) (Fin n) K → Matrix (Fin n) (Fin n) K}
    (matrix : Represents P v.toRing a [n, n] Closed f) (tabulates : Tabulates n table form)
    (run : a.polynomialMatrix table = .ok r) :
    Represents P v.toRing r [n, n] Closed fun ρ => entryOf (form (squareOf n (f ρ))) := by
  obtain ⟨square, entries⟩ := tabulates
  obtain ⟨rows, made, run⟩ := (except_bind_ok _ _ _).mp run
  refine Represents.square ((mapM_ok made).length_eq.symm.trans square.height) (fun row member => ?_)
    (fun i j row e found inside => ?_) run
  · obtain ⟨i, found⟩ := List.mem_iff_getElem?.mp member
    obtain ⟨terms, place, each⟩ := mapM_get made found
    exact (mapM_ok each).length_eq.symm.trans (square.widths terms (List.mem_of_getElem? place))
  · obtain ⟨row', place, each⟩ := mapM_get made found
    obtain ⟨terms, place', run⟩ := mapM_get each inside
    have same : polynomialAt table i j = terms := by simp [polynomialAt, place, place']
    have products := square.monomials row' (List.mem_of_getElem? place) terms
      (List.mem_of_getElem? place')
    refine (matrix.polynomial exact.ring products run).congr fun ρ c _ => ?_
    rw [← same]
    exact entries (fun i j => f ρ [i, j]) i j

theorem uses_table {tables : List (Nat × List (List Polynomial))}
    (matrix : Represents P v.toRing a [n, n] A f)
    (form : ∀ n, Matrix (Fin n) (Fin n) K → Matrix (Fin n) (Fin n) K)
    (tabulates : ∀ n table, (n, table) ∈ tables → Tabulates n table (form n))
    (made : UsesTable a tables r) :
    Represents P v.toRing r [n, n] Closed fun ρ => entryOf (form n (squareOf n (f ρ))) := by
  obtain ⟨unindexed, m, table, member, shape, run⟩ := made
  obtain rfl : n = m := by simpa [matrix.shaped] using shape
  exact (matrix.close unindexed).polynomial_matrix exact (tabulates n table member) run

theorem adjugate_formula (matrix : Represents P v.toRing a [n, n] A f) (run : a.adjugateFormula = .ok r) :
    Represents P v.toRing r [n, n] Closed fun ρ => entryOf (squareOf n (f ρ)).adjugate := by
  refine matrix.uses_table exact (fun n => Matrix.adjugate) (fun n table member => ?_)
    (adjugate_formula_cases run)
  simp only [List.mem_cons, Prod.mk.injEq, List.not_mem_nil, or_false] at member
  obtain ⟨rfl, rfl⟩ | ⟨rfl, rfl⟩ | ⟨rfl, rfl⟩ := member
  · exact adjugate2_tabulates
  · exact adjugate3_tabulates
  · exact adjugate4_tabulates

theorem cofactor_formula (matrix : Represents P v.toRing a [n, n] A f) (run : a.cofactorFormula = .ok r) :
    Represents P v.toRing r [n, n] Closed fun ρ => entryOf (squareOf n (f ρ)).adjugate.transpose := by
  refine matrix.uses_table exact (fun n m => m.adjugate.transpose) (fun n table member => ?_)
    (cofactor_formula_cases run)
  simp only [List.mem_cons, Prod.mk.injEq, List.not_mem_nil, or_false] at member
  obtain ⟨rfl, rfl⟩ | ⟨rfl, rfl⟩ | ⟨rfl, rfl⟩ := member
  · exact cofactor2_tabulates
  · exact cofactor3_tabulates
  · exact cofactor4_tabulates

end Tables

section Quotients

variable (steady : v.Steady) {supply after : Supply}

include exact steady

/-- A tensor is divided component by component. -/
theorem divide (tensor : Represents P v.toRing a shape Closed f) (divisor : Represents P v.toRing e [] Closed g)
    (some : shape ≠ []) (run : a.divide e supply = .ok (r, after)) :
    Represents P v.toRing r shape Closed fun ρ c => f ρ c / g ρ [] := by
  have other : a.isScalar = false := by
    rw [isScalar, tensor.shaped]
    exact List.isEmpty_eq_false_iff.mpr some
  simp only [Expr.divide, Fresh.bind_ok, Fresh.lift_ok, other, Bool.false_eq_true, if_false] at run
  obtain ⟨_, _, ⟨_, rfl⟩, indices, _, taken, component, _, ⟨first, _⟩, quotient, _, ⟨second, _⟩, last,
    _⟩ := run
  obtain ⟨rfl, _⟩ := (Fresh.new_indices_ok _ _).mp taken
  have fresh : FreshFor Closed (Fresh.nextIndices supply a.rank) := fresh_next nofun _
  obtain ⟨length, _, entry⟩ := tensor.index_by fresh first
  have scalar := (entry.scalar_quotient exact divisor second).weaken fun i d known =>
    known.resolve_right id
  refine (over_fresh steady fresh scalar length last).congr fun ρ c same => ?_
  rw [Assignment.bind_all_zip fresh.distinct (length.trans same.symm),
    fresh_steady steady fresh tensor same, fresh_steady steady fresh divisor rfl]

omit [Folding] exact steady in
theorem inverse_entries (m : Matrix (Fin n) (Fin n) K) {c : Component} (length : c.length = 2) :
    entryOf m⁻¹ c = entryOf m.adjugate c / m.det := by
  obtain ⟨i, j, rfl⟩ := List.length_eq_two.mp length
  show (if inside : _ then _ else _) = (if inside : _ then _ else _) / _
  by_cases inside : i < n ∧ j < n
  · rw [dif_pos inside, dif_pos inside, Matrix.inv_def, Ring.inverse_eq_inv', div_eq_inv_mul]
    rfl
  · rw [dif_neg inside, dif_neg inside, zero_div]

/-- The inverse is the adjugate over the determinant, of a single entry its reciprocal. -/
theorem square_inverse (unit : ∀ ρ c, v.value one ρ c = 1) (matrix : Represents P v.toRing a [n, n] A f)
    (run : a.squareInverse supply = .ok (r, after)) :
    Represents P v.toRing r [n, n] Closed fun ρ => entryOf (squareOf n (f ρ))⁻¹ := by
  obtain ⟨unindexed, ⟨single, entry, reciprocal, found, quotient, run⟩ |
    ⟨adjugate, determinant, first, second, run⟩⟩ := square_inverse_cases run
  · obtain rfl : n = 1 := by simpa [matrix.shaped] using single
    obtain ⟨scalar, closed⟩ := real_stored (.ofFloat 1)
    have unit : Represents P v.toRing Expr.one [] Closed fun _ _ => (1 : K) := by
      exact (scalar ▸ self (kept.built (.real _)) closed).congr fun ρ c _ => unit ρ c
    have quotient := (unit.scalar_quotient exact ((matrix.close unindexed).component found)
      quotient).weaken fun i d known => known.elim id id
    refine Represents.square rfl (by simp) (fun i j row e place inside => ?_) run
    obtain rfl : [reciprocal] = row := by simpa [eq_comm] using List.mem_of_getElem? place
    obtain rfl : reciprocal = e := by simpa [eq_comm] using List.mem_of_getElem? inside
    refine quotient.congr fun ρ c _ => ?_
    rw [Matrix.inv_def, Ring.inverse_eq_inv', Matrix.adjugate_fin_one, Matrix.det_fin_one,
      Subsingleton.elim i j, Matrix.smul_apply, Matrix.one_apply_eq, smul_eq_mul, mul_one, one_div]
    rfl
  · have rows : n ≠ 0 := by
      obtain ⟨_, m, table, member, shape, _⟩ := adjugate_formula_cases first
      obtain rfl : n = m := by simpa [matrix.shaped] using shape
      rintro rfl
      simp at member
    refine ((matrix.adjugate_formula exact first).divide exact steady
      (matrix.square_determinant exact.ring rows second) nofun run).congr fun ρ c length => ?_
    rw [inverse_entries _ length]
    rfl

end Quotients

end Field

end Represents

end FormCalculus
