import FormCalculus.Proofs.Delivering
import FormCalculus.Proofs.FreshAxes
import FormCalculus.Proofs.PseudoDeterminant

/-!
Tensors without free indices. Their components are scalars without free indices, and of such scalars the
sums, the differences and the products can always be built; quotients, where the divisor is not zero.
Hence determinants, adjugates, Gram matrices and what else is made of components alone.
-/
set_option autoImplicit false

namespace FormCalculus

open Expr Denotes

/-- A tensor of the given shape without free indices. -/
structure IndexFree (e : Expr) (shape : Shape) : Prop where
  typed : WellTyped e
  shaped : e.shape = shape
  closed : e.free = ∅

-- In the ring of one element every fold is exact, so that what has a value there is built at all.
section Trivial

variable {R : Type*} [CommRing R] {e : Expr} {shape : Shape}

theorem trivial_steady : RingValuation.trivial.Steady := fun _ _ => rfl

theorem trivial_exact : RingValuation.trivial.Exact := fun _ _ _ _ _ _ _ => rfl

theorem IndexFree.represents (tensor : IndexFree e shape) :
    Represents WellTyped RingValuation.trivial e shape Closed fun _ _ => 0 :=
  tensor.shaped ▸ Represents.self tensor.typed tensor.closed

theorem Represents.index_free {v : RingValuation R} {f : Assignment → Component → R}
    (tensor : Represents WellTyped v e shape Closed f) : IndexFree e shape :=
  ⟨tensor.typed, tensor.shaped, tensor.closed_free⟩

def trivialScalars : Valuation PUnit.{1} := RingValuation.trivial.scalars fun _ => 0

theorem trivial_scalars_exact : trivialScalars.Exact :=
  RingValuation.trivial.scalars_exact trivial_exact _

theorem IndexFree.gives (scalar : IndexFree e []) : trivialScalars.Gives WellTyped e 0 :=
  ⟨scalar.typed, scalar.shaped, scalar.closed, rfl⟩

theorem Valuation.Gives.index_free {v : Valuation R} {x : R} (gives : v.Gives WellTyped e x) :
    IndexFree e [] := ⟨gives.good, gives.scalar, gives.closed⟩

end Trivial

theorem Built.index_free {r : Expr} {shape : Shape} (built : Built (fun _ => True) WellTyped r)
    (shaped : r.shape = shape) (closed : r.free = ∅) : IndexFree r shape :=
  ⟨built.well_typed fun _ typed => typed, shaped, closed⟩

namespace IndexFree

variable {a b e r : Expr} {m n : Nat} {supply : Supply}

section Scalars

theorem component {shape : Shape} {c : Component} (tensor : IndexFree a shape) (lies : c.Lies shape) :
    ∃ e, a.component c = .ok e ∧ IndexFree e [] := by
  obtain ⟨e, run⟩ := typed_component_total tensor.typed (tensor.shaped ▸ lies)
  exact ⟨e, run, (tensor.represents.component run).index_free⟩

theorem entry (matrix : IndexFree a [m, n]) {i j : Nat} (row : i < m) (column : j < n) :
    ∃ e, a.entry i j = .ok e ∧ IndexFree e [] :=
  matrix.component (.cons row (.cons column .nil))

theorem entries (matrix : IndexFree a [n, n]) :
    trivialScalars.GivesEntries WellTyped a n fun _ _ => 0 := by
  intro i j row column
  obtain ⟨e, run, scalar⟩ := matrix.entry row column
  exact ⟨e, run, scalar.gives⟩

theorem sum (left : IndexFree a []) (right : IndexFree b []) :
    ∃ r, a.add b = .ok r ∧ IndexFree r [] := by
  obtain ⟨r, run, gives⟩ := left.gives.add trivial_scalars_exact right.gives
  exact ⟨r, run, gives.index_free⟩

theorem difference (left : IndexFree a []) (right : IndexFree b []) :
    ∃ r, a.scalarSub b = .ok r ∧ IndexFree r [] := by
  obtain ⟨r, run, gives⟩ := left.gives.sub trivial_scalars_exact right.gives
  exact ⟨r, run, gives.index_free⟩

theorem product (left : IndexFree a []) (right : IndexFree b []) :
    ∃ r, a.contractedProduct b = .ok r ∧ IndexFree r [] := by
  obtain ⟨r, run, gives⟩ := left.gives.product trivial_scalars_exact right.gives
  exact ⟨r, run, gives.index_free⟩

theorem of_real (value : Binary64) : IndexFree (real value) [] := by
  obtain ⟨scalar, closed⟩ := real_stored value
  have built : Built (fun _ => True) WellTyped (real value) := .real value
  exact built.index_free scalar closed

end Scalars

section Tables

/-- Scalars made place by place can be made into a matrix. -/
theorem table {make : Nat → Nat → Except BuildError Expr} (width : n ≠ 0)
    (each : ∀ i j, i < n → j < n → ∃ e, make i j = .ok e ∧ IndexFree e []) :
    ∃ rows r, (List.range n).mapM (fun i => (List.range n).mapM (make i)) = .ok rows ∧
      matrix rows = .ok r ∧ r.shape = [n, n] := by
  have row (i : Nat) (small : i < n) : ∃ made, (List.range n).mapM (make i) = .ok made := by
    apply mapM_total
    intro j inside
    obtain ⟨e, run, _⟩ := each i j small (List.mem_range.mp inside)
    exact ⟨e, run⟩
  obtain ⟨rows, made⟩ := mapM_total fun i inside => row i (List.mem_range.mp inside)
  have height : rows.length = n := (mapM_ok made).length_eq.symm.trans List.length_range
  -- Every row comes from a place, and so does every entry of it.
  have origin (made_row : List Expr) (member : made_row ∈ rows) :
      ∃ i < n, (List.range n).mapM (make i) = .ok made_row := by
    obtain ⟨i, inside, run⟩ := pairs_member (mapM_ok made) member
    exact ⟨i, List.mem_range.mp inside, run⟩
  have nonempty : rows ≠ [] := fun none => width (by rw [← height, none]; rfl)
  obtain ⟨r, run, shape, _⟩ := matrix_total nonempty width
    (fun made_row member => by
      obtain ⟨i, _, run⟩ := origin made_row member
      exact (mapM_ok run).length_eq.symm.trans List.length_range)
    (fun made_row member e place => by
      obtain ⟨i, small, run⟩ := origin made_row member
      obtain ⟨j, inside, run⟩ := pairs_member (mapM_ok run) place
      obtain ⟨e', run', scalar⟩ := each i j small (List.mem_range.mp inside)
      cases run'.symm.trans run
      exact ⟨scalar.shaped, scalar.closed⟩)
  exact ⟨rows, r, made, run, height ▸ shape⟩

theorem polynomials {rows : List (List Polynomial)} {declared : LoweringError → Prop}
    {form : Matrix (Fin n) (Fin n) PUnit.{1} → Matrix (Fin n) (Fin n) PUnit.{1}}
    (square : IndexFree a [n, n]) (some : n ≠ 0) (tabulates : Formula.Tabulates n rows form) :
    Delivers declared ((a.polynomialMatrix rows).mapError LoweringError.build) fun r =>
      IndexFree r [n, n] := by
  obtain ⟨r, run, matrix⟩ :=
    Valuation.polynomial_matrix_gives trivial_scalars_exact square.entries some tabulates
  have built : Built (fun _ => True) WellTyped r :=
    (Built.stable fun _ _ => trivial).polynomial_matrix (.given square.typed)
      ((except_map_error_ok _ _ _).mp run)
  exact .of_ok run (built.index_free matrix.square matrix.closed)

theorem adjugate (square : IndexFree a [n, n]) :
    Delivers (Formula.Unknown .adjugate n) a.adjugateFormula fun r => IndexFree r [n, n] := by
  unfold adjugateFormula
  rw [Formula.square_dim_runs square.shaped square.closed, except_ok_bind]
  split
  · exact square.polynomials nofun Formula.adjugate2_tabulates
  · exact square.polynomials nofun Formula.adjugate3_tabulates
  · exact square.polynomials nofun Formula.adjugate4_tabulates
  · rename_i two three four
    exact ⟨fun known => known.elim two fun known => known.elim three four, rfl⟩

theorem cofactors (square : IndexFree a [n, n]) :
    Delivers (Formula.Unknown .cofactor n) a.cofactorFormula fun r => IndexFree r [n, n] := by
  unfold cofactorFormula
  rw [Formula.square_dim_runs square.shaped square.closed, except_ok_bind]
  split
  · exact square.polynomials nofun Formula.cofactor2_tabulates
  · exact square.polynomials nofun Formula.cofactor3_tabulates
  · exact square.polynomials nofun Formula.cofactor4_tabulates
  · rename_i two three four
    exact ⟨fun known => known.elim two fun known => known.elim three four, rfl⟩

theorem determinant (square : IndexFree a [n, n]) (some : n ≠ 0) :
    ∃ r, a.squareDeterminant = .ok r ∧ IndexFree r [] := by
  obtain ⟨r, run, scalar⟩ := square.represents.square_determinant_total trivial_exact some
  exact ⟨r, run, scalar.index_free⟩

theorem gram (matrix : IndexFree a [m, n]) (supply : Supply) :
    ∃ r after, a.gramMatrix supply = .ok (r, after) ∧ IndexFree r [n, n] := by
  obtain ⟨r, after, run, gram⟩ := matrix.represents.gram_total trivial_exact trivial_steady supply
  exact ⟨r, after, run, gram.index_free⟩

end Tables

section Deviatoric

theorem share_inside (known : n = 2 ∨ n = 3) :
    ∀ row < n, ∀ share ∈ Formula.deviatoricDiagonal n row, share.place < n := by
  rcases known with rfl | rfl <;> decide

theorem share (square : IndexFree a [n, n]) {share : DiagonalShare} (inside : share.place < n) :
    ∃ r, a.diagonalShare share = .ok r ∧ IndexFree r [] := by
  obtain ⟨e, found, scalar⟩ := square.entry inside inside
  obtain ⟨r, times, product⟩ := (of_real _).product scalar
  exact ⟨r, (except_bind_ok _ _ _).mpr ⟨e, found, times⟩, product⟩

theorem shares (square : IndexFree a [n, n]) {list : List DiagonalShare}
    (inside : ∀ share ∈ list, share.place < n) :
    ∃ r, a.diagonalShares list = .ok r ∧ IndexFree r [] := by
  cases list with
  | nil => exact ⟨zero, rfl, .terminal _, rfl, rfl⟩
  | cons first rest =>
      obtain ⟨here, others⟩ := List.forall_mem_cons.mp inside
      obtain ⟨start, made, scalar⟩ := square.share here
      rw [diagonalShares, made, except_ok_bind]
      clear inside here made
      -- Whatever the total so far, the next share can be added or taken away.
      induction rest generalizing start with
      | nil => exact ⟨start, rfl, scalar⟩
      | cons share rest ih =>
          obtain ⟨here, others⟩ := List.forall_mem_cons.mp others
          obtain ⟨part, made, part_scalar⟩ := square.share here
          rw [List.foldlM_cons, made, except_ok_bind]
          by_cases negative : share.negative = true
          · obtain ⟨total, run, total_scalar⟩ := scalar.difference part_scalar
            rw [if_pos negative, run]
            exact ih others total total_scalar
          · obtain ⟨total, run, total_scalar⟩ := scalar.sum part_scalar
            rw [if_neg negative, run]
            exact ih others total total_scalar

theorem deviatoric (square : IndexFree a [n, n]) (known : n = 2 ∨ n = 3) :
    ∃ r, a.deviatoricFormula = .ok r ∧ r.shape = [n, n] := by
  have each (i j : Nat) (row : i < n) (column : j < n) :
      ∃ e, a.deviatoricEntry n i j = .ok e ∧ IndexFree e [] := by
    unfold deviatoricEntry
    by_cases diagonal : i = j
    · rw [if_pos diagonal]
      exact square.shares (share_inside known i row)
    · rw [if_neg diagonal]
      exact square.entry row column
  obtain ⟨rows, r, made, run, shape⟩ := table (by omega) each
  refine ⟨r, ?_, shape⟩
  unfold deviatoricFormula
  rw [Formula.square_dim_runs square.shaped square.closed, except_ok_bind, if_neg (by omega)]
  exact (except_map_error_ok _ _ _).mpr ((except_bind_ok _ _ _).mpr ⟨rows, made, run⟩)

end Deviatoric

section Quotients

theorem scalar_quotient_bound {indices : List Index} (left : ¬ a.LeavesFree indices)
    (run : a.scalarQuotient b = .ok r) : ¬ r.LeavesFree indices := by
  -- A quotient is no component of a tensor, unless it is the dividend.
  obtain ⟨_, _, free, _, ⟨_, rfl⟩ | folded | ⟨_, rfl⟩ | rfl⟩ := scalar_quotient_cases run
  · exact not_leaves_free nofun
  · obtain ⟨_, _, z, _, _, _, rfl⟩ := fold_some folded
    exact not_leaves_free (by cases z <;> nofun)
  · exact left
  · exact not_leaves_free nofun

theorem scalar_quotient {free : FreeIndices} (left : a.shape = []) (right : b.shape = [])
    (union : free.IsUnion a.free b.free) :
    Delivers (fun e => DividesByZero (.build e)) (a.scalarQuotient b) fun r =>
      a.scalarQuotient b = .ok r := by
  by_cases zero : b.isZero = true
  · have refused : a.scalarQuotient b = .error (.invalidOperand .division (.zeroDivisor a)) := by
      unfold scalarQuotient
      rw [expect_scalar_runs left, expect_scalar_runs right]
      simp only [zero, except_ok_bind, if_true]
      rfl
    rw [refused]
    exact .intro a
  · obtain ⟨r, run⟩ := scalar_quotient_total left right union (eq_false_of_ne_true zero)
    exact .of_ok run run

theorem ratio (left : IndexFree a []) (right : IndexFree b []) :
    Delivers (fun e => DividesByZero (.build e)) (a.scalarQuotient b) fun r => IndexFree r [] := by
  have union : FreeIndices.IsUnion ∅ a.free b.free := by
    rw [left.closed, right.closed]
    exact FreeIndices.is_union_empty ∅
  apply (scalar_quotient left.shaped right.shaped union).imp
  intro r run
  obtain ⟨scalar, free⟩ := scalar_quotient_type run
  have built : Built (fun _ => True) WellTyped r :=
    .scalar_quotient trivial (.given left.typed) (.given right.typed) run
  exact built.index_free scalar (free.unique union)

theorem ratio_tensor {indices : List Index} {component ratio : Expr} {shape : Shape}
    (tensor : IndexFree a shape) (divisor : IndexFree b []) (some : indices ≠ []) (distinct : indices.Nodup)
    (length : indices.length = shape.length) (along : Along a indices component)
    (run : component.scalarQuotient b = .ok ratio) :
    ∃ t, ratio.asTensor indices = .ok t ∧ IndexFree t shape := by
  -- Over a scalar, the component of a tensor along indices makes a tensor along them again.
  obtain ⟨typed, rfl, closed⟩ := tensor
  obtain ⟨scalar, free⟩ := scalar_quotient_type run
  have ratio_typed : WellTyped ratio := by
    have built : Built (fun _ => True) WellTyped ratio :=
      .scalar_quotient trivial (.given along.typed) (.given divisor.typed) run
    exact built.well_typed fun _ typed => typed
  -- Free in the quotient are the indices, and nothing else.
  have dims (i : Index) (d : Nat) :
      ratio.free.dim? i = .some d ↔ (i, d) ∈ indices.zip a.shape := by
    rw [free, along.dims, closed, divisor.closed]
    simp
  have absent (i : Index) (member : i ∈ indices) : ¬ a.free.contains i = true := by simp [closed]
  have bound := scalar_quotient_bound (along.bound some absent) run
  obtain ⟨⟨t, total⟩, type⟩ := as_tensor_over ratio_typed scalar distinct length
    (fun i d => (dims i d).mpr) bound
  have built : Built (fun _ => True) WellTyped t := .as_tensor trivial (.given ratio_typed) total
  obtain ⟨shape, free⟩ := type t total
  refine ⟨t, total, built.index_free shape (FreeIndices.ext_dim fun i d => ?_)⟩
  have inside (pair : (i, d) ∈ indices.zip a.shape) : i ∈ indices := (List.of_mem_zip pair).1
  rw [free, dims]
  simpa using fun out pair => out (inside pair)

theorem quotient {shape : Shape} (tensor : IndexFree a shape) (some : shape ≠ []) (divisor : IndexFree b [])
    (supply : Supply) :
    Delivers (fun e => DividesByZero (.build e)) (a.divide b supply) fun pair =>
      IndexFree pair.1 shape := by
  obtain ⟨typed, rfl, closed⟩ := tensor
  let indices := Fresh.nextIndices supply a.rank
  have distinct : indices.Nodup := Fresh.next_indices_distinct supply a.rank
  have length : indices.length = a.shape.length := Fresh.next_indices_length supply a.rank
  have absent (i : Index) (member : i ∈ indices) : ¬ a.free.contains i = true := by simp [closed]
  have nonempty : indices ≠ [] := fun none => some (List.eq_nil_of_length_eq_zero (by rw [← length, none]; rfl))
  obtain ⟨component, along⟩ := along_total typed distinct absent length
  have found : a.indexBy indices = .ok component := (index_by_of_once distinct absent).trans along.run
  have other : a.isScalar = false := List.isEmpty_eq_false_iff.mpr some
  have union : FreeIndices.IsUnion component.free component.free b.free := by
    rw [divisor.closed]
    exact (FreeIndices.is_union_empty _).symm
  unfold divide
  apply Delivers.lift_step (expect_scalar_runs divisor.shaped)
  rw [other]
  apply Delivers.fresh_step ((Fresh.new_indices_ok _ _).mpr ⟨rfl, rfl⟩)
  apply Delivers.lift_step found
  apply (scalar_quotient along.scalar divisor.shaped union).lift.fresh_bind
  intro ratio later run
  have tensor : IndexFree a a.shape := ⟨typed, rfl, closed⟩
  obtain ⟨t, total, quotient⟩ := tensor.ratio_tensor divisor nonempty distinct length along run
  exact .lift_ok total quotient

theorem inverse (square : IndexFree a [n, n]) (some : n ≠ 0) (supply : Supply) :
    Delivers (fun e => DividesByZero e ∨ Formula.Unknown .adjugate n e) (a.squareInverse supply) fun pair =>
      IndexFree pair.1 [n, n] := by
  unfold squareInverse
  apply Delivers.lift_step (Formula.expect_index_free_runs square.closed)
  rw [square.shaped]
  by_cases single : n = 1
  · subst single
    -- The reciprocal of the single entry.
    obtain ⟨entry, found, scalar⟩ := square.entry Nat.zero_lt_one Nat.zero_lt_one
    rw [List.headD_cons, if_pos rfl]
    apply Delivers.fresh_map_error
    apply Delivers.lift_step found
    apply (((of_real _).ratio scalar).widen fun e => .inl).lift.fresh_bind
    intro reciprocal later ratio
    have total : ∃ r, matrix [[reciprocal]] = .ok r ∧ r.shape = [1, 1] ∧ r.free = ∅ :=
      matrix_total (List.cons_ne_nil _ _) Nat.one_ne_zero (by simp) (by simp [ratio.shaped, ratio.closed])
    obtain ⟨r, run, shape, closed⟩ := total
    have built : Built (fun _ => True) WellTyped r :=
      .matrix trivial (by simpa using .given ratio.typed) run
    exact .lift_ok run (built.index_free shape closed)
  · -- The adjugate, where there is one, over the determinant, which there always is.
    rw [List.headD_cons, if_neg single]
    apply (square.adjugate.widen fun e => .inr).lift.fresh_bind
    intro adjugate later adjugate_square
    obtain ⟨determinant, run, scalar⟩ := square.determinant some
    apply Delivers.lift_step run
    apply Delivers.fresh_map_error
    exact (adjugate_square.quotient nofun scalar later).widen fun e => .inl

end Quotients

section Contractions

variable {i j k : Index}

theorem transposed (matrix : IndexFree a [m, n]) (distinct : i ≠ j) :
    ∃ entry r, a.indexBy [i, j] = .ok entry ∧ entry.asTensor [j, i] = .ok r ∧ IndexFree r [n, m] := by
  obtain ⟨entry, found, row, column, component⟩ := matrix.represents.pair_total distinct
  have known : ∀ x ∈ [j, i], entry.free.contains x = true := by
    simp [FreeIndices.contains_iff, row, column]
  obtain ⟨_, _, binds⟩ := FreeIndices.exists_binds (by simpa using distinct.symm) known
  obtain ⟨r, run⟩ := as_tensor_total component.shaped binds
  have represents := matrix.represents.transposed trivial_steady distinct found run
  exact ⟨entry, r, found, run, represents.index_free⟩

theorem column_square (matrix : IndexFree a [m, n]) {place : Nat} (inside : place < n) (k : Index) :
    ∃ column r, a.index [.free k, .fixed place] = .ok column ∧
      column.contractedProduct column = .ok r ∧ IndexFree r [] := by
  obtain ⟨column, found⟩ := index_total [.free k, .fixed place] matrix.typed matrix.closed
    (by simp [matrix.shaped]) (by simp) (by simp [matrix.shaped, inside])
  obtain ⟨dim, component⟩ := matrix.represents.column_at found
  obtain ⟨r, times, square⟩ := component.length_total (f := fun _ => 0) trivial_exact dim
  exact ⟨column, r, found, times, square.index_free⟩

theorem times_transposed {p : Nat} (left : IndexFree b [p, n]) (matrix : IndexFree a [m, n])
    (distinct : [i, j, k].Nodup) :
    ∃ x y product r, b.indexBy [i, k] = .ok x ∧ a.indexBy [j, k] = .ok y ∧
      x.contractedProduct y = .ok product ∧ product.asTensor [i, j] = .ok r ∧ IndexFree r [p, m] := by
  obtain ⟨_, ik, jk⟩ : i ≠ j ∧ i ≠ k ∧ j ≠ k := by simpa [and_assoc] using distinct
  obtain ⟨x, first, row, inner, x_component⟩ := left.represents.pair_total ik
  obtain ⟨y, second, column, inner', y_component⟩ := matrix.represents.pair_total jk
  have y_component := y_component.weaken fun x d => Or.symm
  obtain ⟨product, r, times, run⟩ :=
    Represents.matrix_product_total distinct x_component y_component row column
  have represents := Represents.matrix_product trivial_exact trivial_steady distinct
    (G := fun _ _ => 0) (H := fun _ _ => 0) x_component y_component inner
    (FreeIndices.contains_iff.mpr ⟨n, inner'⟩) times run
  exact ⟨x, y, product, r, first, second, times, run, represents.index_free⟩

theorem pseudo_determinant (matrix : IndexFree a [m, n]) (some : n ≠ 0) (supply : Supply) :
    ∃ r after, a.pseudoDeterminantFormula supply = .ok (r, after) ∧ r.shape = [] := by
  obtain ⟨s, after, radicand, scalar⟩ :=
    matrix.represents.pseudo_radicand trivial_exact trivial_steady some supply
  obtain ⟨r, root⟩ := sqrt_total scalar.shaped
  have run := pseudo_determinant_of_radicand matrix.shaped matrix.closed radicand root
  exact ⟨r, after, run, (sqrt_type root).1⟩

theorem pseudo_inverse (matrix : IndexFree a [m, n]) (some : n ≠ 0) (supply : Supply) :
    Delivers (fun e => DividesByZero e ∨ Formula.Unknown .adjugate n e) (a.pseudoInverseFormula supply)
      fun pair => pair.1.shape = [n, m] := by
  unfold pseudoInverseFormula
  apply Delivers.lift_step (Formula.matrix_shape_runs matrix.shaped)
  apply Delivers.lift_step (Formula.expect_index_free_runs matrix.closed)
  by_cases single : n = 1
  · subst single
    have different : Index.mk supply.index ≠ ⟨supply.index + 1⟩ := by simp
    obtain ⟨entry, swapped, first, second, transposed⟩ := matrix.transposed different
    obtain ⟨column, square, found, times, scalar⟩ :=
      matrix.column_square Nat.zero_lt_one ⟨supply.index + 1 + 1⟩
    rw [if_pos rfl]
    apply Delivers.fresh_map_error
    apply Delivers.fresh_step rfl
    apply Delivers.fresh_step rfl
    apply Delivers.fresh_step rfl
    apply Delivers.lift_step first
    apply Delivers.lift_step second
    apply Delivers.lift_step found
    apply Delivers.lift_step times
    exact ((transposed.quotient nofun scalar _).widen fun e => .inl).imp fun pair => IndexFree.shaped
  · obtain ⟨gram, between, made, square⟩ := matrix.gram supply
    rw [if_neg single]
    apply Delivers.fresh_step ((Fresh.map_error_ok _ _ _).mpr made)
    apply (square.inverse some between).fresh_bind
    intro inverse later inverse_square
    -- The indices are taken in another order than they are bound in.
    have distinct : [Index.mk (later.index + 1), ⟨later.index + 1 + 1⟩, ⟨later.index⟩].Nodup := by
      simp [Nat.add_assoc]
    obtain ⟨x, y, product, r, first, second, times, run, product_matrix⟩ :=
      inverse_square.times_transposed matrix distinct
    apply Delivers.fresh_map_error
    apply Delivers.fresh_step rfl
    apply Delivers.fresh_step rfl
    apply Delivers.fresh_step rfl
    apply Delivers.lift_step first
    apply Delivers.lift_step second
    apply Delivers.lift_step times
    exact .lift_ok run product_matrix.shaped

end Contractions

end IndexFree

end FormCalculus
