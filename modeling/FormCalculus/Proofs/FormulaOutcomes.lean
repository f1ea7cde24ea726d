import FormCalculus.Proofs.IndexFree

/-!
How the closed forms end. Each of them gives an expression of its shape or declines its operand, for a
reason that holds of the operand; only an inverse can also find on its way that it divides by zero. No
row, column or entry is looked up where there is none.
-/
set_option autoImplicit false

namespace FormCalculus

open Expr

namespace Expr

/-- The expansion along the first row with its rows and columns looked up by their places. Where there is
nothing at a place, it ends with `emptyDeterminant`. -/
def laplaceByPlace (a : Expr) : (rows columns : List Nat) → Except LoweringError Expr
  | [], _ => .error .emptyDeterminant
  | [row, next], columns =>
      match columns[0]?, columns[1]? with
      | some c, some d => (a.minorPair row next c d).mapError .build
      | _, _ => .error .emptyDeterminant
  | row :: rows, columns =>
      columns.zipIdx.foldlM (fun total (column, place) => do
        let sign := int (if place % 2 = 0 then 1 else -1)
        let signed ← (do contractedProduct sign (← a.entry row column)).mapError .build
        let cofactor ← laplaceByPlace a rows (columns.eraseIdx place)
        (do total.add (← contractedProduct signed cofactor)).mapError .build) zero

theorem map_error_bind {ε δ α β : Type} {f : ε → δ} (act : Except ε α) (next : α → Except ε β) :
    (act >>= next).mapError f = act.mapError f >>= fun r => (next r).mapError f := by
  cases act <;> rfl

theorem fold_map_error {ε δ α β : Type} {f : ε → δ} {step : β → α → Except ε β}
    {step' : β → α → Except δ β} {list : List α}
    (same : ∀ x ∈ list, ∀ b, step' b x = (step b x).mapError f) (start : β) :
    list.foldlM step' start = (list.foldlM step start).mapError f := by
  induction list generalizing start with
  | nil => rfl
  | cons x list ih =>
      obtain ⟨here, others⟩ := List.forall_mem_cons.mp same
      rw [List.foldlM_cons, List.foldlM_cons, here]
      cases step start x with
      | ok next => exact ih others next
      | error e => rfl

/-- With as many columns as rows, and at least two, every place that is looked up has something. -/
theorem laplace_by_place {a : Expr} {rows columns : List Nat} (two : 2 ≤ rows.length)
    (same : columns.length = rows.length) :
    a.laplaceByPlace rows columns = (a.laplace rows columns).mapError .build := by
  -- Two rows are the last to be expanded, so that one row or none is never met.
  induction rows generalizing columns with
  | nil => simp at two
  | cons row rows ih =>
      by_cases pair : rows.length = 1
      · obtain ⟨next, rfl⟩ := List.length_eq_one_iff.mp pair
        obtain ⟨c, d, rfl⟩ := List.length_eq_two.mp same
        rfl
      · have more : 2 ≤ rows.length := by
          rw [List.length_cons] at two
          omega
        obtain _ | ⟨second, _ | ⟨third, rest⟩⟩ := rows
        · simp at more
        · simp at more
        unfold laplaceByPlace laplace
        dsimp only
        apply fold_map_error
        rintro ⟨column, place⟩ member total
        -- A row and a column are left out, so that there are as many of both again.
        have inside : place < columns.length := by
          have found := List.mk_mem_zipIdx_iff_getElem?.mp member
          exact (List.getElem?_eq_some_iff.mp found).1
        have left : (columns.eraseIdx place).length = (second :: third :: rest).length := by
          rw [List.length_eraseIdx_of_lt inside, same, List.length_cons, Nat.add_sub_cancel]
        have below := ih more left
        simp only [map_error_bind, bind_assoc, below]

end Expr

namespace Formula

variable {a b : Expr} {supply : Supply}

theorem Unknown.declines {formula : Formula} {m n : Nat} (shape : a.shape = [m, n]) (e : LoweringError)
    (unknown : formula.Unknown n e) : Declines a e := by
  obtain ⟨other, rfl⟩ := unknown
  exact .dimension shape other

theorem square_delivers {formula : Formula} {next : Nat → Except LoweringError Expr} (typed : WellTyped a)
    (other : a.shape.length ≠ 2 → ¬ formula.Takes a.shape)
    (runs : ∀ n, IndexFree a [n, n] →
      Delivers (formula.Unknown n) (formula.squareDim a >>= next) fun r => r.shape = [n, n]) :
    Delivers (Declines a) (formula.squareDim a >>= next) fun r => r.shape = a.shape := by
  by_cases known : ∃ n, a.shape = [n, n] ∧ a.free = ∅
  · obtain ⟨n, square, closed⟩ := known
    rw [square]
    exact (runs n ⟨typed, square, closed⟩).widen (Unknown.declines square)
  · -- Of anything else the check does not let the rest begin.
    apply (square_dim_delivers other).bind
    intro n square
    exact absurd ⟨n, square⟩ known

theorem matrix_delivers {formula : Formula} {next : Nat × Nat → Fresh LoweringError Expr}
    {act : Fresh LoweringError Expr} {declared : LoweringError → Prop} {post : Expr × Supply → Prop}
    (typed : WellTyped a) (other : a.shape.length ≠ 2 → ¬ formula.Takes a.shape)
    (errors : ∀ e, Declines a e → declared e)
    (checks : act = do
      let dims ← formula.matrixShape a
      formula.expectIndexFree a
      next dims)
    (runs : ∀ m n, IndexFree a [m, n] → Delivers declared (act supply) post) :
    Delivers declared (act supply) post := by
  by_cases known : ∃ m n, a.shape = [m, n] ∧ a.free = ∅
  · obtain ⟨m, n, shape, closed⟩ := known
    exact runs m n ⟨typed, shape, closed⟩
  · rw [checks]
    apply ((matrix_shape_delivers other).widen errors).lift.fresh_bind
    intro dims later shape
    apply (expect_index_free_delivers.widen errors).lift.fresh_bind
    intro _ _ closed
    exact absurd ⟨dims.1, dims.2, shape, closed⟩ known

theorem adjugate_delivers (typed : WellTyped a) :
    Delivers (Declines a) a.adjugateFormula fun r => r.shape = a.shape := by
  apply square_delivers typed id
  intro n square
  exact square.adjugate.imp fun r => IndexFree.shaped

theorem cofactor_delivers (typed : WellTyped a) :
    Delivers (Declines a) a.cofactorFormula fun r => r.shape = a.shape := by
  apply square_delivers typed id
  intro n square
  exact square.cofactors.imp fun r => IndexFree.shaped

theorem deviatoric_delivers (typed : WellTyped a) :
    Delivers (Declines a) a.deviatoricFormula fun r => r.shape = a.shape := by
  apply square_delivers typed id
  intro n square
  by_cases known : n = 2 ∨ n = 3
  · obtain ⟨r, run, shape⟩ := square.deviatoric known
    exact .of_ok run shape
  · rw [square_dim_runs square.shaped square.closed, except_ok_bind, if_pos (by omega)]
    exact ⟨known, rfl⟩

theorem cross_delivers (typed : WellTyped a) (typed' : WellTyped b) :
    Delivers (fun e => Declines a e ∨ Declines b e) (a.crossFormula b) fun r => r.shape = [3] := by
  by_cases known : ∀ v ∈ [a, b], v.shape = [3] ∧ v.free = ∅
  · obtain ⟨⟨left, left_closed⟩, ⟨right, right_closed⟩, _⟩ :=
      List.forall_mem_cons.mp known |>.imp id List.forall_mem_cons.mp
    have left : IndexFree a [3] := ⟨typed, left, left_closed⟩
    have right : IndexFree b [3] := ⟨typed', right, right_closed⟩
    obtain ⟨r, run, cross⟩ := left.represents.cross_total trivial_exact right.represents
    exact .of_ok run cross.shaped
  · -- One of the two checks refuses; which one depends on the order of the operands.
    unfold crossFormula
    apply Delivers.bind (Delivers.each fun v member => ?_) fun _ passed => absurd passed known
    have declined (e : LoweringError) (reason : Declines v e) : Declines a e ∨ Declines b e := by
      rcases List.mem_pair.mp member with rfl | rfl
      · exact .inl reason
      · exact .inr reason
    by_cases shape : v.shape = [3]
    · rw [if_neg (not_not.mpr shape)]
      apply (expect_index_free_delivers.widen declined).bind
      intro _ closed
      exact ⟨rfl, shape, closed⟩
    · rw [if_pos shape]
      exact declined _ (.shape shape)

theorem unsupported {formula : Formula} {shape : Shape} (same : a.shape = shape)
    (other : ¬ formula.Takes shape) : Declines a (.unsupportedShape formula shape) := by
  subst same
  exact .shape other

section Squares

variable {n : Nat} (typed : WellTyped a) (square : a.shape = [n, n]) (some : n ≠ 0) (supply : Supply)

include typed square some

theorem square_determinant_delivers :
    Delivers (Declines a) a.squareDeterminant fun r => r.shape = [] := by
  by_cases closed : a.free = ∅
  · have matrix : IndexFree a [n, n] := ⟨typed, square, closed⟩
    obtain ⟨r, run, scalar⟩ := matrix.determinant some
    exact .of_ok run scalar.shaped
  · unfold squareDeterminant
    by_cases zero : a.isZero = true
    · rw [if_pos zero]
      rfl
    · rw [if_neg zero]
      apply (square_dim_delivers fun rank => absurd (congrArg List.length square) rank).bind
      intro n checked
      exact absurd checked.2 closed

theorem square_inverse_delivers :
    Delivers (fun e => Declines a e ∨ DividesByZero e) (a.squareInverse supply) fun pair =>
      pair.1.shape = a.shape.reverse := by
  by_cases closed : a.free = ∅
  · have matrix : IndexFree a [n, n] := ⟨typed, square, closed⟩
    rw [square]
    apply ((matrix.inverse some supply).widen fun e declined => ?_).imp fun pair => IndexFree.shaped
    exact declined.symm.imp_left (Unknown.declines square e)
  · unfold squareInverse
    apply (expect_index_free_delivers.widen fun e => .inl).lift.fresh_bind
    intro _ _ checked
    exact absurd checked closed

end Squares

section Columns

variable (typed : WellTyped a) (columns : ∀ m n, a.shape = [m, n] → n ≠ 0) (supply : Supply)

include typed columns

theorem pseudo_determinant_delivers :
    Delivers (Declines a) (a.pseudoDeterminantFormula supply) fun pair => pair.1.shape = [] := by
  apply matrix_delivers typed id (fun e => id) rfl
  intro m n matrix
  obtain ⟨r, after, run, scalar⟩ := matrix.pseudo_determinant (columns m n matrix.shaped) supply
  exact .of_ok run scalar

theorem pseudo_inverse_delivers :
    Delivers (fun e => Declines a e ∨ DividesByZero e) (a.pseudoInverseFormula supply) fun pair =>
      pair.1.shape = a.shape.reverse := by
  apply matrix_delivers typed id (fun e => .inl) rfl
  intro m n matrix
  rw [matrix.shaped]
  apply (matrix.pseudo_inverse (columns m n matrix.shaped) supply).widen
  intro e declined
  exact declined.symm.imp_left (Unknown.declines matrix.shaped e)

theorem determinant_delivers :
    Delivers (Declines a) (a.determinantFormula supply) fun pair => pair.1.shape = [] := by
  unfold determinantFormula
  by_cases zero : a.isZero = true
  · rw [if_pos zero]
    rfl
  rw [if_neg zero]
  cases shape : a.shape with
  | nil => exact shape
  | cons m rest =>
      obtain _ | ⟨n, _ | ⟨k, more⟩⟩ := rest
      · exact unsupported shape (by simp [Takes])
      · by_cases square : m = n
        · subst square
          simp only [if_true]
          exact (square_determinant_delivers typed shape (columns m m shape)).lift
        · simp only [if_neg square]
          exact pseudo_determinant_delivers typed columns supply
      · exact unsupported shape (by simp [Takes])

theorem inverse_delivers :
    Delivers (fun e => Declines a e ∨ DividesByZero e) (a.inverseFormula supply) fun pair =>
      pair.1.shape = a.shape.reverse := by
  unfold inverseFormula
  cases shape : a.shape with
  | nil =>
      -- A scalar may have free indices; the reciprocal has the same.
      obtain ⟨unit, unit_closed⟩ := real_stored (.ofFloat 1)
      have union : a.free.IsUnion one.free a.free := by
        rw [show one.free = ∅ from unit_closed]
        exact FreeIndices.is_union_empty a.free
      have reciprocal : Delivers (fun e => Declines a (.build e) ∨ DividesByZero (.build e))
          (one.scalarQuotient a) fun r => r.shape = [] := by
        apply ((IndexFree.scalar_quotient unit shape union).widen fun e => .inr).imp
        intro r run
        exact (scalar_quotient_type run).1
      exact .fresh_map_error _ reciprocal.lift
  | cons m rest =>
      obtain _ | ⟨n, _ | ⟨k, more⟩⟩ := rest
      · exact .inl (unsupported shape (by simp [Takes]))
      · by_cases square : m = n
        · subst square
          simp only [if_true]
          rw [← shape]
          exact square_inverse_delivers typed shape (columns m m shape) supply
        · simp only [if_neg square]
          rw [← shape]
          exact pseudo_inverse_delivers typed columns supply
      · exact .inl (unsupported shape (by simp [Takes]))

end Columns

end Formula

/-- The closed forms of an expression that is no matrix without columns. The entries of a matrix without
free indices can all be selected, and are scalars without free indices. Each form gives an expression of
its shape or declines the operand for what is the matter with it; an inverse can divide by zero besides.
Nothing else that is built can fail, and in the expansion of a determinant, along the rows that are left,
no row or column is looked up where there is none. -/
theorem formulas_deliver {a : Expr} (made : Constructible a) (columns : ∀ m n, a.shape = [m, n] → n ≠ 0)
    (supply : Supply) :
    (∀ m n, a.shape = [m, n] → a.free = ∅ → ∀ i j, i < m → j < n →
      ∃ e, a.entry i j = .ok e ∧ e.shape = [] ∧ e.free = ∅) ∧
    Delivers (Declines a) (a.determinantFormula supply) (fun r => r.1.shape = []) ∧
    Delivers (Declines a) (a.pseudoDeterminantFormula supply) (fun r => r.1.shape = []) ∧
    Delivers (fun e => Declines a e ∨ DividesByZero e) (a.inverseFormula supply)
      (fun r => r.1.shape = a.shape.reverse) ∧
    Delivers (fun e => Declines a e ∨ DividesByZero e) (a.pseudoInverseFormula supply)
      (fun r => r.1.shape = a.shape.reverse) ∧
    Delivers (Declines a) a.adjugateFormula (fun r => r.shape = a.shape) ∧
    Delivers (Declines a) a.cofactorFormula (fun r => r.shape = a.shape) ∧
    Delivers (Declines a) a.deviatoricFormula (fun r => r.shape = a.shape) ∧
    (∀ b c, Constructible b → Constructible c →
      Delivers (fun e => Declines b e ∨ Declines c e) (b.crossFormula c) fun r => r.shape = [3]) ∧
    ∀ (b : Expr) (n : Nat), 2 ≤ n → b.laplaceByPlace (List.range n) (List.range n) =
      (b.laplace (List.range n) (List.range n)).mapError .build := by
  have typed := made.well_typed
  refine ⟨?_, Formula.determinant_delivers typed columns supply,
    Formula.pseudo_determinant_delivers typed columns supply, Formula.inverse_delivers typed columns supply,
    Formula.pseudo_inverse_delivers typed columns supply, Formula.adjugate_delivers typed,
    Formula.cofactor_delivers typed, Formula.deviatoric_delivers typed, ?_, ?_⟩
  · intro m n shape closed i j row column
    have matrix : IndexFree a [m, n] := ⟨typed, shape, closed⟩
    obtain ⟨e, found, scalar⟩ := matrix.entry row column
    exact ⟨e, found, scalar.shaped, scalar.closed⟩
  · intro b c made_b made_c
    exact Formula.cross_delivers made_b.well_typed made_c.well_typed
  · intro b n two
    have length : 2 ≤ (List.range n).length := by rwa [List.length_range]
    exact laplace_by_place length rfl

section Sample

/-- A single column has no adjugate, but an inverse, which is a row. -/
theorem column_delivers : Declines sampleColumn (.notSquare [2, 1]) ∧
    sampleColumn.adjugateFormula = .error (.notSquare [2, 1]) ∧
    ∃ r after, sampleColumn.inverseFormula {} = .ok (r, after) ∧ r.shape = [1, 2] := by
  have shape : sampleColumn.shape = [2, 1] := rfl
  have made : Constructible sampleColumn := .terminal _
  obtain ⟨_, _, _, inverse, _, adjugate, _⟩ := formulas_deliver made (by simp [shape]) {}
  have refused : sampleColumn.adjugateFormula = .error (.notSquare [2, 1]) := by cbv
  have runs : ∃ r after, sampleColumn.inverseFormula {} = .ok (r, after) := by
    cbv
    exact ⟨_, _, rfl⟩
  obtain ⟨r, after, run⟩ := runs
  rw [refused] at adjugate
  rw [run] at inverse
  exact ⟨adjugate, refused, r, after, run, inverse⟩

end Sample

end FormCalculus
