import FormCalculus.Lowering
import FormCalculus.Proofs.Refolding
import FormCalculus.Proofs.RenumberedBuild

/-!
The closed forms of compound operators over renumbered operands. The fresh indices that two runs take
are renumbered like all others.
-/
set_option autoImplicit false

namespace FormCalculus

open FormCalculus.Expr

/-- The indices still to be handed out by the second supply are those of the first, renumbered. -/
def Renumbering.Follows (ρ : Renumbering) (s s' : Supply) : Prop :=
  ∀ k, ρ.index ⟨s.index + k⟩ = ⟨s'.index + k⟩

section Supplies

variable {ε δ α β : Type} {R : α → β → Prop} (ρ : Renumbering)

theorem Renumbering.new_index :
    FreshAgree ρ.Follows (fun i i' => i' = ρ.index i) (Fresh.newIndex : Fresh ε Index)
      (Fresh.newIndex : Fresh δ Index) := by
  intro s s' follows
  refine .ok ⟨(follows 0).symm, fun k => ?_⟩
  rw [Nat.add_assoc, Nat.add_assoc]
  exact follows (1 + k)

theorem Renumbering.new_indices (count : Nat) :
    FreshAgree ρ.Follows (fun indices indices' => indices' = indices.map ρ.index)
      (Fresh.newIndices count : Fresh ε (List Index))
      (Fresh.newIndices count : Fresh δ (List Index)) := by
  induction count with
  | zero => exact .pure rfl
  | succ count ih =>
      exact ρ.new_index.bind fun i _ first => ih.bind fun rest _ others =>
        .pure (by rw [first, others]; rfl)

theorem Renumbering.with_index {next : Index → Fresh ε α} {next' : Index → Fresh δ β}
    (agree : ∀ i, FreshAgree ρ.Follows R (next i) (next' (ρ.index i))) :
    FreshAgree ρ.Follows R (Fresh.newIndex >>= next) (Fresh.newIndex >>= next') :=
  ρ.new_index.bind fun i _ same => same ▸ agree i

theorem Renumbering.with_indices {next : List Index → Fresh ε α} {next' : List Index → Fresh δ β}
    (count : Nat)
    (agree : ∀ indices, FreshAgree ρ.Follows R (next indices) (next' (indices.map ρ.index))) :
    FreshAgree ρ.Follows R (Fresh.newIndices count >>= next) (Fresh.newIndices count >>= next') :=
  (ρ.new_indices count).bind fun indices _ same => same ▸ agree indices

end Supplies

/-- Renumbered expressions that are made by the constructors. -/
structure Twins (ρ : Renumbering) (g : Nat) (x x' : Expr) : Prop where
  renumbered : Renumbered ρ g x x'
  formed : Formed x
  formed' : Formed x'

namespace Twins

variable {ρ : Renumbering} {g : Nat} {a a' b b' : Expr} {ε δ : Type}

theorem of_made {act : Except ε Expr} {act' : Except δ Expr} (agree : Agree (Renumbered ρ g) act act')
    (made : ∀ r, act = .ok r → Made Formed r) (made' : ∀ r, act' = .ok r → Made Formed r) :
    Agree (Twins ρ g) act act' :=
  (agree.ensure made made').mono fun _ _ ⟨renumbered, made, made'⟩ =>
    ⟨renumbered, made.formed fun _ formed => formed, made'.formed fun _ formed => formed⟩

/-- What is made of twins under other folds, where eager ones make it of what the constructors make. -/
theorem of_refolded {act act' eager eager' : Except BuildError Expr}
    (agree : Agree (Renumbered ρ g) act act') (folds : Agree Refolded act eager)
    (folds' : Agree Refolded act' eager') (made : ∀ r, eager = .ok r → Made Formed r)
    (made' : ∀ r, eager' = .ok r → Made Formed r) : Agree (Twins ρ g) act act' :=
  of_made agree (fun _ run => made_of_refolded folds made run) fun _ run =>
    made_of_refolded folds' made' run

theorem left (twins : Twins ρ g a a') : Made Formed a := .given twins.formed

theorem right (twins : Twins ρ g a a') : Made Formed a' := .given twins.formed'

theorem zero : Twins ρ g .zero .zero := ⟨.zeros [] ∅, .terminal _, .terminal _⟩

theorem int (value : Int64) : Twins ρ g (int value) (int value) := by
  have made : Made Formed (Expr.int value) := .int value
  exact ⟨.int value, made.formed fun _ formed => formed, made.formed fun _ formed => formed⟩

theorem real (value : Binary64) : Twins ρ g (real value) (real value) := by
  have made : Made Formed (Expr.real value) := .real value
  exact ⟨.real value, made.formed fun _ formed => formed, made.formed fun _ formed => formed⟩

theorem one : Twins ρ g one one := .real _

theorem pairs {xs vs : List Expr} (twins : List.Forall₂ (Twins ρ g) xs vs) :
    List.Forall₂ (Renumbered ρ g) xs vs :=
  twins.imp fun _ _ both => both.renumbered

section Notation

theorem component (twins : Twins ρ g a a') (position : Component) :
    Agree (Twins ρ g) (a.component position) (a'.component position) :=
  of_made (twins.renumbered.component position) (fun _ run => twins.left.subscript run) fun _ run =>
    twins.right.subscript run

theorem index (twins : Twins ρ g a a') (items : List IndexItem) :
    Agree (Twins ρ g) (a.index items) (a'.index (items.map ρ.item)) :=
  of_made (twins.renumbered.index items) (fun _ run => Made.stable.index twins.left run)
    fun _ run => Made.stable.index twins.right run

theorem index_by (twins : Twins ρ g a a') (indices : List Index) :
    Agree (Twins ρ g) (a.indexBy indices) (a'.indexBy (indices.map ρ.index)) :=
  of_made (twins.renumbered.index_by indices) (fun _ run => Made.stable.index twins.left run)
    fun _ run => Made.stable.index twins.right run

theorem index_sum (twins : Twins ρ g a a') (i : Index) :
    Agree (Twins ρ g) (a.indexSum i) (a'.indexSum (ρ.index i)) :=
  of_made (twins.renumbered.index_sum i) (fun _ run => twins.left.index_sum run) fun _ run =>
    twins.right.index_sum run

theorem as_tensor (twins : Twins ρ g a a') (indices : List Index) :
    Agree (Twins ρ g) (a.asTensor indices) (a'.asTensor (indices.map ρ.index)) :=
  of_made (twins.renumbered.as_tensor indices) (fun _ run => twins.left.as_tensor run) fun _ run =>
    twins.right.as_tensor run

theorem made_assembled (op : Operator) {operands : List Expr} {r : Expr}
    (other : op ∉ [.inner, .outer, .dot]) (made : ∀ o ∈ operands, Formed o)
    (run : op.assemble operands = .ok r) : Made Formed r :=
  .assemble (spreads_other other) (fun o member => .given (made o member)) run

theorem list_tensor {xs vs : List Expr} (twins : List.Forall₂ (Twins ρ g) xs vs) :
    Agree (Twins ρ g) (listTensor xs) (listTensor vs) := by
  refine of_made (Renumbered.list_tensor (pairs twins)) (fun _ run => ?_) fun _ run => ?_
  · refine made_assembled .listTensor (by simp) (fun o member => ?_) run
    obtain ⟨_, _, both⟩ := pairs_member twins.flip member
    exact both.formed
  · refine made_assembled .listTensor (by simp) (fun o member => ?_) run
    obtain ⟨_, _, both⟩ := pairs_member twins member
    exact both.formed'

theorem vector {xs vs : List Expr} (twins : List.Forall₂ (Twins ρ g) xs vs) :
    Agree (Twins ρ g) (vector xs) (vector vs) := by
  unfold Expr.vector
  refine (Agree.checks twins fun _ _ both => ?_).bind fun _ _ _ => list_tensor twins
  exact both.renumbered.expect_scalar.bind fun _ _ _ => .pure ⟨rfl, rfl⟩

theorem matrix {rows rows' : List (List Expr)}
    (twins : List.Forall₂ (List.Forall₂ (Twins ρ g)) rows rows') :
    Agree (Twins ρ g) (matrix rows) (matrix rows') :=
  (Agree.mapM twins fun _ _ row => vector row).bind fun _ _ rows => list_tensor rows

theorem index_sums (twins : Twins ρ g a a') (indices : List Index) :
    Agree (Twins ρ g) (a.indexSums indices) (a'.indexSums (indices.map ρ.index)) :=
  of_made (twins.renumbered.index_sums indices) (fun _ run => Made.stable.index_sums twins.left run)
    fun _ run => Made.stable.index_sums twins.right run

theorem spatial_derivative (twins : Twins ρ g a a') (items : List IndexItem) :
    Agree (Twins ρ g) (a.spatialDerivative items) (a'.spatialDerivative (items.map ρ.item)) :=
  of_made (twins.renumbered.spatial_derivative items)
    (fun _ run => made_assembled .spatialDerivative (by simp)
      (operands_pair twins.formed (.terminal (.multiIndex items))) run)
    fun _ run => made_assembled .spatialDerivative (by simp)
      (operands_pair twins.formed' (.terminal (.multiIndex (items.map ρ.item)))) run

end Notation

section Arithmetic

variable [F : Folding] (complete : F.Complete)

include complete

theorem add (left : Twins ρ g a a') (right : Twins ρ g b b') :
    Agree (Twins ρ g) (a.add b) (a'.add b') :=
  of_refolded (left.renumbered.add right.renumbered) (add_refolded complete .eager a b)
    (add_refolded complete .eager a' b') (fun _ run => left.left.add right.left run)
    fun _ run => left.right.add right.right run

theorem scalar_product (left : Twins ρ g a a') (right : Twins ρ g b b') :
    Agree (Twins ρ g) (a.scalarProduct b) (a'.scalarProduct b') :=
  of_refolded (left.renumbered.scalar_product right.renumbered) (scalar_product_refolded complete .eager a b)
    (scalar_product_refolded complete .eager a' b') (fun _ run => left.left.scalar_product right.left run)
    fun _ run => left.right.scalar_product right.right run

theorem scalar_quotient (left : Twins ρ g a a') (right : Twins ρ g b b') :
    Agree (Twins ρ g) (a.scalarQuotient b) (a'.scalarQuotient b') :=
  of_refolded (left.renumbered.scalar_quotient right.renumbered) (scalar_quotient_refolded complete .eager a b)
    (scalar_quotient_refolded complete .eager a' b') (fun _ run => left.left.scalar_quotient right.left run)
    fun _ run => left.right.scalar_quotient right.right run

theorem sqrt (twins : Twins ρ g a a') : Agree (Twins ρ g) a.sqrt a'.sqrt :=
  of_refolded twins.renumbered.sqrt (sqrt_refolded complete .eager a)
    (sqrt_refolded complete .eager a')
    (fun _ run => made_assembled .sqrt (by simp) (List.forall_mem_singleton.mpr twins.formed) run)
    fun _ run => made_assembled .sqrt (by simp) (List.forall_mem_singleton.mpr twins.formed') run

theorem contracted_product (left : Twins ρ g a a') (right : Twins ρ g b b') :
    Agree (Twins ρ g) (a.contractedProduct b) (a'.contractedProduct b') := by
  unfold contractedProduct
  rw [left.renumbered.free_eq, right.renumbered.free_eq, ρ.repeated_indices]
  exact (scalar_product complete left right).bind fun _ _ product => product.index_sums _

theorem scalar_neg (twins : Twins ρ g a a') : Agree (Twins ρ g) (scalarNeg a) (scalarNeg a') :=
  contracted_product complete (int (-1)) twins

theorem scalar_sub (left : Twins ρ g a a') (right : Twins ρ g b b') :
    Agree (Twins ρ g) (a.scalarSub b) (a'.scalarSub b') :=
  (scalar_neg complete right).bind fun _ _ negated => add complete left negated

theorem divide (left : Twins ρ g a a') (right : Twins ρ g b b') :
    FreshAgree ρ.Follows (Twins ρ g) (a.divide b) (a'.divide b') := by
  unfold Expr.divide
  refine (FreshAgree.lift right.renumbered.expect_scalar).bind fun _ _ _ => ?_
  refine .ite (by rw [left.renumbered.scalar_eq]) (.lift (scalar_quotient complete left right)) ?_
  rw [left.renumbered.rank_eq]
  refine ρ.with_indices a.rank fun indices => ?_
  refine (FreshAgree.lift (left.index_by indices)).bind fun _ _ component => ?_
  refine (FreshAgree.lift (scalar_quotient complete component right)).bind fun _ _ quotient => ?_
  exact .lift (quotient.as_tensor indices)

theorem contract (left : Twins ρ g a a') (right : Twins ρ g b b') :
    FreshAgree ρ.Follows (Twins ρ g) (a.contract b) (a'.contract b') := by
  unfold Expr.contract
  rw [left.renumbered.shape_eq, right.renumbered.shape_eq]
  cases b.shape with
  | nil => exact .throw _ _
  | cons first rest =>
      refine .ite Iff.rfl (.throw _ _) ?_
      rw [left.renumbered.rank_eq, right.renumbered.rank_eq]
      refine ρ.with_indices _ fun rows => ?_
      refine ρ.with_indices _ fun columns => ?_
      refine ρ.with_index fun inner => ?_
      rw [← List.map_singleton, ← List.map_append, ← List.map_cons, ← List.map_append]
      refine (FreshAgree.lift (left.index_by _)).bind fun _ _ row => ?_
      refine (FreshAgree.lift (right.index_by _)).bind fun _ _ column => ?_
      refine (FreshAgree.lift (contracted_product complete row column)).bind fun _ _ product => ?_
      exact .lift (product.as_tensor _)

end Arithmetic

section Checks

theorem matrix_shape (formula : Formula) (twins : Twins ρ g a a') :
    Agree Eq (formula.matrixShape a) (formula.matrixShape a') := by
  unfold Formula.matrixShape
  rw [twins.renumbered.shape_eq]
  split
  · exact .ok rfl
  · exact .error

theorem expect_index_free (formula : Formula) (twins : Twins ρ g a a') :
    Agree (fun _ _ => True) (formula.expectIndexFree a) (formula.expectIndexFree a') :=
  .ite (by rw [twins.renumbered.free_eq, Renumbering.free_is_empty]) (.ok trivial) .error

theorem square_dim (formula : Formula) (twins : Twins ρ g a a') :
    Agree Eq (formula.squareDim a) (formula.squareDim a') := by
  unfold Formula.squareDim
  refine (matrix_shape formula twins).bind fun dims _ same => ?_
  subst same
  refine .guard Iff.rfl ?_
  exact (expect_index_free formula twins).bind fun _ _ _ => .pure rfl

theorem entry (twins : Twins ρ g a a') (row column : Nat) :
    Agree (Twins ρ g) (a.entry row column) (a'.entry row column) := twins.component _

end Checks

section Formulas

variable [F : Folding] (complete : F.Complete)

include complete

theorem times_entries (twins : Twins ρ g a a') (factor : Twins ρ g b b') (cells : List (Nat × Nat)) :
    Agree (Twins ρ g) (timesEntries a b cells) (timesEntries a' b' cells) := by
  induction cells generalizing b b' with
  | nil => exact .ok factor
  | cons cell cells ih =>
      exact (twins.entry cell.1 cell.2).bind fun _ _ entry =>
        (contracted_product complete factor entry).bind fun _ _ product => ih product

theorem monomial (twins : Twins ρ g a a') (leading : Bool) (term : Monomial) :
    Agree (Twins ρ g) (a.monomial leading term) (a'.monomial leading term) := by
  unfold Expr.monomial
  split
  · exact .ok (.int 1)
  · refine (twins.entry _ _).bind fun _ _ first => ?_
    split
    · exact (scalar_neg complete first).bind fun _ _ negated => times_entries complete twins negated _
    · exact times_entries complete twins first _

theorem add_monomials (twins : Twins ρ g a a') (total : Twins ρ g b b') (terms : Polynomial) :
    Agree (Twins ρ g) (addMonomials a b terms) (addMonomials a' b' terms) := by
  induction terms generalizing b b' with
  | nil => exact .ok total
  | cons term rest ih =>
      refine (monomial complete twins false term).bind fun _ _ product => ?_
      split
      · exact (scalar_sub complete total product).bind fun _ _ less => ih less
      · exact (add complete total product).bind fun _ _ more => ih more

theorem polynomial (twins : Twins ρ g a a') (terms : Polynomial) :
    Agree (Twins ρ g) (a.polynomial terms) (a'.polynomial terms) := by
  cases terms with
  | nil => exact .ok .zero
  | cons first rest =>
      exact (monomial complete twins true first).bind fun _ _ leading =>
        add_monomials complete twins leading rest

theorem polynomial_matrix (twins : Twins ρ g a a') (rows : List (List Polynomial)) :
    Agree (Twins ρ g) (a.polynomialMatrix rows) (a'.polynomialMatrix rows) := by
  refine (Agree.mapM_same rows fun row => ?_).bind fun _ _ rows => matrix rows
  exact .mapM_same row fun terms => polynomial complete twins terms

theorem adjugate_formula (twins : Twins ρ g a a') :
    Agree (Twins ρ g) a.adjugateFormula a'.adjugateFormula := by
  unfold adjugateFormula
  refine (square_dim _ twins).bind fun dim _ same => ?_
  subst same
  split
  · exact (polynomial_matrix complete twins _).mapError _ _
  · exact (polynomial_matrix complete twins _).mapError _ _
  · exact (polynomial_matrix complete twins _).mapError _ _
  · exact .error

theorem cofactor_formula (twins : Twins ρ g a a') :
    Agree (Twins ρ g) a.cofactorFormula a'.cofactorFormula := by
  unfold cofactorFormula
  refine (square_dim _ twins).bind fun dim _ same => ?_
  subst same
  split
  · exact (polynomial_matrix complete twins _).mapError _ _
  · exact (polynomial_matrix complete twins _).mapError _ _
  · exact (polynomial_matrix complete twins _).mapError _ _
  · exact .error

theorem minor_pair (twins : Twins ρ g a a') (r s c d : Nat) :
    Agree (Twins ρ g) (a.minorPair r s c d) (a'.minorPair r s c d) := by
  unfold minorPair
  refine (twins.entry r c).bind fun _ _ first => ?_
  refine (twins.entry s d).bind fun _ _ second => ?_
  refine (contracted_product complete first second).bind fun _ _ diagonal => ?_
  refine (twins.entry r d).bind fun _ _ first => ?_
  refine (twins.entry s c).bind fun _ _ second => ?_
  refine (contracted_product complete first second).bind fun _ _ other => ?_
  exact scalar_sub complete diagonal other

theorem laplace (twins : Twins ρ g a a') (rows columns : List Nat) :
    Agree (Twins ρ g) (a.laplace rows columns) (a'.laplace rows columns) := by
  induction rows generalizing columns with
  | nil => exact .ok (.int 1)
  | cons row rows ih =>
      unfold Expr.laplace
      split
      · exact minor_pair complete twins _ _ _ _
      · refine .foldlM_same columns.zipIdx .zero fun _ _ cell total => ?_
        refine (twins.entry row cell.1).bind fun _ _ entry => ?_
        refine (contracted_product complete (.int _) entry).bind fun _ _ signed => ?_
        refine (ih _).bind fun _ _ cofactor => ?_
        refine (contracted_product complete signed cofactor).bind fun _ _ product => ?_
        exact add complete total product

theorem square_determinant (twins : Twins ρ g a a') :
    Agree (Twins ρ g) a.squareDeterminant a'.squareDeterminant := by
  unfold squareDeterminant
  refine .ite (by rw [twins.renumbered.zero_eq]) (.ok .zero) ?_
  refine (square_dim _ twins).bind fun n _ same => ?_
  subst same
  refine .guard Iff.rfl ?_
  refine .ite Iff.rfl ?_ ?_
  · exact (twins.entry 0 0).mapError _ _
  · exact (laplace complete twins _ _).mapError _ _

theorem diagonal_share (twins : Twins ρ g a a') (share : DiagonalShare) :
    Agree (Twins ρ g) (a.diagonalShare share) (a'.diagonalShare share) :=
  (twins.entry _ _).bind fun _ _ entry => contracted_product complete (.real _) entry

theorem diagonal_shares (twins : Twins ρ g a a') (shares : List DiagonalShare) :
    Agree (Twins ρ g) (a.diagonalShares shares) (a'.diagonalShares shares) := by
  cases shares with
  | nil => exact .ok .zero
  | cons first rest =>
      refine (diagonal_share complete twins first).bind fun _ _ start => ?_
      refine .foldlM_same rest start fun _ _ share total => ?_
      refine (diagonal_share complete twins share).bind fun _ _ part => ?_
      exact .ite Iff.rfl (scalar_sub complete total part) (add complete total part)

theorem deviatoric_formula (twins : Twins ρ g a a') :
    Agree (Twins ρ g) a.deviatoricFormula a'.deviatoricFormula := by
  unfold deviatoricFormula
  refine (square_dim _ twins).bind fun dim _ same => ?_
  subst same
  refine .guard Iff.rfl ?_
  refine Agree.mapError _ _ ((Agree.mapM_same _ fun row => ?_).bind fun _ _ rows => matrix rows)
  exact .mapM_same _ fun column =>
    .ite Iff.rfl (diagonal_shares complete twins _) (twins.entry row column)

theorem cross_formula (left : Twins ρ g a a') (right : Twins ρ g b b') :
    Agree (Twins ρ g) (a.crossFormula b) (a'.crossFormula b') := by
  have minor (i j : Nat) : Agree (Twins ρ g)
      (do
        let left ← contractedProduct (← a.component [i]) (← b.component [j])
        let right ← contractedProduct (← a.component [j]) (← b.component [i])
        left.scalarSub right : Except BuildError Expr)
      (do
        let left ← contractedProduct (← a'.component [i]) (← b'.component [j])
        let right ← contractedProduct (← a'.component [j]) (← b'.component [i])
        left.scalarSub right : Except BuildError Expr) := by
    refine (left.component [i]).bind fun _ _ first => ?_
    refine (right.component [j]).bind fun _ _ second => ?_
    refine (contracted_product complete first second).bind fun _ _ product => ?_
    refine (left.component [j]).bind fun _ _ first => ?_
    refine (right.component [i]).bind fun _ _ second => ?_
    refine (contracted_product complete first second).bind fun _ _ other => ?_
    exact scalar_sub complete product other
  unfold crossFormula
  refine (Agree.checks (.cons left (.cons right .nil)) fun _ _ both => ?_).bind fun _ _ _ => ?_
  · refine .guard (by rw [both.renumbered.shape_eq]) ?_
    exact (expect_index_free _ both).bind fun _ _ _ => .pure ⟨rfl, rfl⟩
  · refine Agree.mapError _ _ ?_
    refine (minor 1 2).bind fun _ _ first => ?_
    refine (minor 2 0).bind fun _ _ second => ?_
    refine (minor 0 1).bind fun _ _ third => ?_
    exact vector (.cons first (.cons second (.cons third .nil)))

theorem gram_matrix (twins : Twins ρ g a a') :
    FreshAgree ρ.Follows (Twins ρ g) a.gramMatrix a'.gramMatrix := by
  unfold gramMatrix
  refine ρ.with_index fun i => ?_
  refine ρ.with_index fun j => ?_
  refine ρ.with_index fun k => ?_
  refine (FreshAgree.lift (twins.index_by [k, i])).bind fun _ _ left => ?_
  refine (FreshAgree.lift (twins.index_by [k, j])).bind fun _ _ right => ?_
  refine (FreshAgree.lift (contracted_product complete left right)).bind fun _ _ product => ?_
  exact .lift (product.as_tensor [i, j])

omit complete F in
theorem column_at (twins : Twins ρ g a a') (column : Nat) :
    FreshAgree ρ.Follows (fun r r' => r'.1 = ρ.index r.1 ∧ Twins ρ g r.2 r'.2) (a.columnAt column)
      (a'.columnAt column) := by
  unfold columnAt
  refine ρ.with_index fun i => ?_
  exact (FreshAgree.lift (twins.index [.free i, .fixed column])).bind fun _ _ component =>
    .pure ⟨rfl, component⟩

theorem norm (twins : Twins ρ g a a') : Agree (Twins ρ g) a.norm a'.norm :=
  (contracted_product complete twins twins).bind fun _ _ square => sqrt complete square

theorem pseudo_determinant (twins : Twins ρ g a a') :
    FreshAgree ρ.Follows (Twins ρ g) a.pseudoDeterminantFormula a'.pseudoDeterminantFormula := by
  have vector (column : Nat) : FreshAgree ρ.Follows (Twins ρ g)
      (a.columnAt column >>= fun found => asTensor found.2 [found.1] : Fresh BuildError Expr)
      (a'.columnAt column >>= fun found => asTensor found.2 [found.1] : Fresh BuildError Expr) := by
    refine (twins.column_at column).bind fun found found' both => ?_
    rw [both.1]
    exact .lift (both.2.as_tensor [found.1])
  unfold pseudoDeterminantFormula
  refine (FreshAgree.lift (matrix_shape _ twins)).bind fun shape _ same => ?_
  subst same
  obtain ⟨m, n⟩ := shape
  refine (FreshAgree.lift (expect_index_free _ twins)).bind fun _ _ _ => ?_
  refine .ite Iff.rfl ?_ (.ite Iff.rfl ?_ ?_)
  · refine ((twins.column_at 0).mapError _ _).bind fun _ _ column => ?_
    exact .mapError _ _ (.lift (norm complete column.2))
  · refine ((vector 0).mapError _ _).bind fun _ _ first => ?_
    refine ((vector 1).mapError _ _).bind fun _ _ second => ?_
    refine (FreshAgree.lift (cross_formula complete first second)).bind fun _ _ normal => ?_
    refine ρ.with_index fun i => ?_
    refine (FreshAgree.mapError _ _ (.lift (normal.index_by [i]))).bind fun _ _ component => ?_
    exact .mapError _ _ (.lift (norm complete component))
  · refine ((gram_matrix complete twins).mapError _ _).bind fun _ _ gram => ?_
    refine (FreshAgree.lift (square_determinant complete gram)).bind fun _ _ determinant => ?_
    exact .mapError _ _ (.lift (sqrt complete determinant))

theorem determinant_formula (twins : Twins ρ g a a') :
    FreshAgree ρ.Follows (Twins ρ g) a.determinantFormula a'.determinantFormula := by
  unfold determinantFormula
  refine .ite (by rw [twins.renumbered.zero_eq]) (.pure .zero) ?_
  rw [twins.renumbered.shape_eq]
  split
  · exact .pure twins
  · exact .ite Iff.rfl (.lift (square_determinant complete twins)) (pseudo_determinant complete twins)
  · exact .throw _ _

theorem square_inverse (twins : Twins ρ g a a') :
    FreshAgree ρ.Follows (Twins ρ g) a.squareInverse a'.squareInverse := by
  unfold squareInverse
  refine (FreshAgree.lift (expect_index_free _ twins)).bind fun _ _ _ => ?_
  refine .ite (by rw [twins.renumbered.shape_eq]) ?_ ?_
  · refine .mapError _ _ ?_
    refine (FreshAgree.lift (twins.entry 0 0)).bind fun _ _ entry => ?_
    refine (FreshAgree.lift (scalar_quotient complete .one entry)).bind fun _ _ reciprocal => ?_
    exact .lift (matrix (.cons (.cons reciprocal .nil) .nil))
  · refine (FreshAgree.lift (adjugate_formula complete twins)).bind fun _ _ adjugate => ?_
    refine (FreshAgree.lift (square_determinant complete twins)).bind fun _ _ determinant => ?_
    exact (divide complete adjugate determinant).mapError _ _

theorem pseudo_inverse (twins : Twins ρ g a a') :
    FreshAgree ρ.Follows (Twins ρ g) a.pseudoInverseFormula a'.pseudoInverseFormula := by
  unfold pseudoInverseFormula
  refine (FreshAgree.lift (matrix_shape _ twins)).bind fun (m, n) _ same => ?_
  subst same
  refine (FreshAgree.lift (expect_index_free _ twins)).bind fun _ _ _ => ?_
  refine .ite Iff.rfl (.mapError _ _ ?_) ?_
  · refine ρ.with_index fun i => ?_
    refine ρ.with_index fun j => ?_
    refine ρ.with_index fun k => ?_
    refine (FreshAgree.lift (twins.index_by [i, j])).bind fun _ _ component => ?_
    refine (FreshAgree.lift (component.as_tensor [j, i])).bind fun _ _ transposed => ?_
    refine (FreshAgree.lift (twins.index [.free k, .fixed 0])).bind fun _ _ column => ?_
    refine (FreshAgree.lift (contracted_product complete column column)).bind fun _ _ square => ?_
    exact divide complete transposed square
  · refine ((gram_matrix complete twins).mapError _ _).bind fun _ _ gram => ?_
    refine (square_inverse complete gram).bind fun _ _ inverse => .mapError _ _ ?_
    refine ρ.with_index fun q => ?_
    refine ρ.with_index fun r => ?_
    refine ρ.with_index fun s => ?_
    refine (FreshAgree.lift (inverse.index_by [r, q])).bind fun _ _ left => ?_
    refine (FreshAgree.lift (twins.index_by [s, q])).bind fun _ _ right => ?_
    refine (FreshAgree.lift (contracted_product complete left right)).bind fun _ _ product => ?_
    exact .lift (product.as_tensor [r, s])

theorem inverse_formula (twins : Twins ρ g a a') :
    FreshAgree ρ.Follows (Twins ρ g) a.inverseFormula a'.inverseFormula := by
  unfold inverseFormula
  rw [twins.renumbered.shape_eq]
  split
  · exact .mapError _ _ (.lift (scalar_quotient complete .one twins))
  · exact .ite Iff.rfl (square_inverse complete twins) (pseudo_inverse complete twins)
  · exact .throw _ _

end Formulas

end Twins

end FormCalculus
