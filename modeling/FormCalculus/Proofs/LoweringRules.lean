import FormCalculus.Proofs.Building
import FormCalculus.Proofs.BuildingFormulas

/-!
The rules that lower compound operators: which kinds they are for, and that they build what they
return from the operands with the operators of index notation.
-/
set_option autoImplicit false

namespace FormCalculus

open Expr

variable [Folding] {supply after : Supply}

namespace Stable

variable {P : Expr → Prop} {a b e r : Expr} (stable : Stable P)

include stable

theorem lower_transposed (tensor : P a)
    (run : a.lowerTransposed supply = .ok (r, after)) : P r := by
  simp only [lowerTransposed, Fresh.bind_ok, Fresh.lift_ok] at run
  obtain ⟨_, _, _, _, _, _, component, _, ⟨found, _⟩, last, _⟩ := run
  exact stable.as_tensor (stable.index tensor found) last

theorem lower_inner (left : P a) (right : P b)
    (run : a.lowerInner b supply = .ok (r, after)) : P r := by
  simp only [lowerInner, Fresh.bind_ok, Fresh.lift_ok] at run
  obtain ⟨_, _, _, _, _, ⟨first, _⟩, _, _, ⟨second, _⟩, product, _⟩ := run
  exact stable.contracted_product (stable.index left first) (stable.index right second) product

theorem lower_outer (left : P a) (right : P b)
    (run : a.lowerOuter b supply = .ok (r, after)) : P r := by
  simp only [lowerOuter, Fresh.bind_ok, Fresh.lift_ok] at run
  obtain ⟨_, _, _, _, _, _, _, _, ⟨first, _⟩, _, _, ⟨second, _⟩, _, _, ⟨product, _⟩, last, _⟩ := run
  exact stable.as_tensor
    (stable.contracted_product (stable.index left first) (stable.index right second) product) last

theorem lower_trace (tensor : P a) (run : a.lowerTrace supply = .ok (r, after)) : P r := by
  simp only [lowerTrace, Fresh.bind_ok, Fresh.lift_ok] at run
  obtain ⟨_, _, _, found, _⟩ := run
  exact stable.index tensor found

theorem lower_skew (tensor : P a) (run : a.lowerSkew supply = .ok (r, after)) : P r := by
  simp only [lowerSkew, Fresh.bind_ok, Fresh.lift_ok] at run
  obtain ⟨_, _, _, _, _, _, _, _, ⟨first, _⟩, _, _, ⟨second, _⟩, _, _, ⟨difference, _⟩, _, _,
    ⟨half, _⟩, last, _⟩ := run
  exact stable.as_tensor (stable.scalar_quotient (stable.scalar_sub
    (stable.index tensor first) (stable.index tensor second) difference) (stable.int 2) half) last

theorem derivative_along {item : IndexItem} (operand : P e)
    (run : e.derivativeAlong item = .ok r) : P r := by
  obtain ⟨derivative, made, run⟩ := (except_bind_ok _ _ _).mp run
  have derivative := stable.spatial_derivative operand made
  split at run
  · split at run
    · exact stable.index_sum derivative run
    · cases run
      exact derivative
  · cases run
    exact derivative

theorem lower_divergence (tensor : P a)
    (run : a.lowerDivergence supply = .ok (r, after)) : P r := by
  simp only [lowerDivergence, Fresh.bind_ok, Fresh.lift_ok] at run
  obtain ⟨_, _, _, _, _, _, _, _, ⟨found, _⟩, _, _, ⟨derivative, _⟩, last, _⟩ := run
  exact stable.as_tensor (stable.derivative_along (stable.index tensor found) derivative) last

theorem cross_derivative {i j : Nat} (tensor : P a)
    (run : a.crossDerivative i j = .ok r) : P r := by
  obtain ⟨entry, found, derivative⟩ := (except_bind_ok _ _ _).mp run
  exact stable.derivative_along (stable.component tensor found) derivative

theorem rotation {i j : Nat} (tensor : P a) (run : a.rotation i j = .ok r) : P r := by
  simp only [Expr.rotation, except_bind_ok] at run
  obtain ⟨_, first, _, second, difference⟩ := run
  exact stable.scalar_sub (stable.cross_derivative tensor first) (stable.cross_derivative tensor second)
    difference

theorem lower_curl (tensor : P a) (run : a.lowerCurl = .ok r) : P r := by
  unfold lowerCurl at run
  split at run
  · simp only [except_bind_ok] at run
    obtain ⟨_, first, _, second, _, negated, last⟩ := run
    exact stable.vector (operands_pair (stable.derivative_along tensor first)
      (stable.scalar_neg (stable.derivative_along tensor second) negated)) last
  · exact stable.rotation tensor run
  · simp only [except_bind_ok] at run
    obtain ⟨_, first, _, second, _, third, last⟩ := run
    exact stable.vector (List.forall_mem_cons.mpr ⟨stable.rotation tensor first,
      operands_pair (stable.rotation tensor second) (stable.rotation tensor third)⟩) last
  · simp at run

end Stable

section Supplies

open Fresh

namespace Expr

theorem contract_grows (a b : Expr) : Grows (a.contract b) := by
  have body : Grows (do
      let rows ← Fresh.newIndices (a.rank - 1)
      let columns ← Fresh.newIndices (b.rank - 1)
      let inner ← Fresh.newIndex
      let left ← liftM (a.indexBy (rows ++ [inner]))
      let right ← liftM (b.indexBy (inner :: columns))
      let product ← liftM (contractedProduct left right)
      liftM (asTensor product (rows ++ columns))) :=
    grows_bind (grows_indices _) fun _ => grows_bind (grows_indices _) fun _ =>
      grows_bind grows_index fun _ => grows_bind (grows_lift _) fun _ =>
        grows_bind (grows_lift _) fun _ => grows_bind (grows_lift _) fun _ => grows_lift _
  unfold contract
  split
  · split
    · exact grows_bind (grows_throw _) fun _ => body
    · exact body
  · exact grows_bind (grows_throw _) fun _ => body

theorem scale_grows (tensor factor : Expr) : Grows (tensor.scale factor) :=
  grows_bind (grows_indices _) fun _ => grows_bind (grows_lift _) fun _ =>
    grows_bind (grows_lift _) fun _ => grows_lift _

theorem mul_grows (a b : Expr) : Grows (a.mul b) := by
  unfold mul
  split
  · exact grows_lift _
  · exact scale_grows b a
  · exact scale_grows a b
  · exact contract_grows a b
  · exact contract_grows a b
  · exact grows_throw _

theorem build_grows (op : Operator) (operands : List Expr) : Grows (op.build operands) := by
  unfold Operator.build
  split
  · refine grows_bind (grows_lift _) fun _ => ?_
    split
    · exact mul_grows _ _
    · exact grows_lift _
  · unfold outer
    split
    · exact mul_grows _ _
    · exact grows_lift _
  · unfold dot
    split
    · exact mul_grows _ _
    · exact grows_lift _
  · exact grows_lift _

theorem gram_matrix_grows (a : Expr) : Grows a.gramMatrix :=
  grows_bind grows_index fun _ => grows_bind grows_index fun _ => grows_bind grows_index fun _ =>
    grows_bind (grows_lift _) fun _ => grows_bind (grows_lift _) fun _ =>
      grows_bind (grows_lift _) fun _ => grows_lift _

omit [Folding] in
theorem column_at_grows (a : Expr) (column : Nat) : Grows (a.columnAt column) :=
  grows_bind grows_index fun _ => grows_bind (grows_lift _) fun _ => grows_pure _

theorem divide_grows (a b : Expr) : Grows (a.divide b) := by
  unfold divide
  refine grows_bind (grows_lift _) fun _ => ?_
  split
  · exact grows_lift _
  · exact grows_bind (grows_indices _) fun _ => grows_bind (grows_lift _) fun _ =>
      grows_bind (grows_lift _) fun _ => grows_lift _

theorem square_inverse_grows (a : Expr) : Grows a.squareInverse := by
  unfold squareInverse
  refine grows_bind (grows_lift _) fun _ => ?_
  split
  · exact grows_map_error (grows_bind (grows_lift _) fun _ => grows_bind (grows_lift _) fun _ =>
      grows_lift _) _
  · exact grows_bind (grows_lift _) fun _ => grows_bind (grows_lift _) fun _ =>
      grows_map_error (divide_grows _ _) _

theorem pseudo_inverse_grows (a : Expr) : Grows a.pseudoInverseFormula := by
  unfold pseudoInverseFormula
  refine grows_bind (grows_lift _) fun (_, n) => grows_bind (grows_lift _) fun _ => ?_
  show Grows (if n = 1 then _ else _)
  split
  · exact grows_map_error (grows_bind grows_index fun _ => grows_bind grows_index fun _ =>
      grows_bind grows_index fun _ => grows_bind (grows_lift _) fun _ => grows_bind (grows_lift _)
        fun _ => grows_bind (grows_lift _) fun _ => grows_bind (grows_lift _) fun _ => divide_grows _ _) _
  · exact grows_bind (grows_map_error (gram_matrix_grows _) _) fun _ =>
      grows_bind (square_inverse_grows _) fun _ => grows_map_error (grows_bind grows_index fun _ =>
        grows_bind grows_index fun _ => grows_bind grows_index fun _ => grows_bind (grows_lift _)
          fun _ => grows_bind (grows_lift _) fun _ => grows_bind (grows_lift _) fun _ => grows_lift _) _

theorem pseudo_determinant_grows (a : Expr) : Grows a.pseudoDeterminantFormula := by
  unfold pseudoDeterminantFormula
  refine grows_bind (grows_lift _) fun dims => grows_bind (grows_lift _) fun _ => ?_
  have vector (column : Nat) : Grows (do
      let found ← a.columnAt column
      (asTensor found.2 [found.1] : Except BuildError Expr)) :=
    grows_bind (column_at_grows a column) fun _ => grows_lift _
  show Grows (if dims.2 = 1 then _ else if dims.2 = 2 ∧ dims.1 = 3 then _ else _)
  split
  · exact grows_bind (grows_map_error (column_at_grows _ _) _) fun _ =>
      grows_map_error (grows_lift _) _
  · split
    · exact grows_bind (grows_map_error (vector 0) _) fun _ => grows_bind (grows_map_error (vector 1) _)
        fun _ => grows_bind (grows_lift _) fun _ => grows_bind grows_index fun _ =>
          grows_bind (grows_map_error (grows_lift _) _) fun _ => grows_map_error (grows_lift _) _
    · exact grows_bind (grows_map_error (gram_matrix_grows _) _) fun _ =>
        grows_bind (grows_lift _) fun _ => grows_map_error (grows_lift _) _

theorem determinant_grows (a : Expr) : Grows a.determinantFormula := by
  unfold determinantFormula
  split
  · exact grows_pure _
  · split
    · exact grows_pure _
    · split
      · exact grows_lift _
      · exact pseudo_determinant_grows a
    · exact grows_throw _

theorem inverse_grows (a : Expr) : Grows a.inverseFormula := by
  unfold inverseFormula
  split
  · exact grows_map_error (grows_lift _) _
  · split
    · exact square_inverse_grows a
    · exact pseudo_inverse_grows a
  · exact grows_throw _

end Expr

end Supplies

namespace Lowering

/-- Kinds that are not compound are reused or rebuilt from their new operands. -/
theorem rule_of_simple {kind : Kind} (simple : kind.isCompound = false) :
    rules.rule? kind = some Expr.reuse := by
  cases kind <;> first | rfl | cases simple

variable {x : Expr} {values : List Expr} {rule : LoweringRule} {v : Expr}

/-- A rule over one operand runs its construction on the new one. -/
theorem unary_ok {lower : Expr → Fresh BuildError Expr} (length : values.length = 1)
    (run : unary lower x values supply = .ok (v, after)) :
    ∃ a, values = [a] ∧ lower a supply = .ok (v, after) := by
  obtain ⟨a, rfl⟩ := List.length_eq_one_iff.mp length
  exact ⟨a, rfl, (Fresh.map_error_ok _ _ _).mp run⟩

theorem unary_formula_ok {formula : Expr → Fresh LoweringError Expr} (length : values.length = 1)
    (run : unaryFormula formula x values supply = .ok (v, after)) :
    ∃ a, values = [a] ∧ formula a supply = .ok (v, after) := by
  obtain ⟨a, rfl⟩ := List.length_eq_one_iff.mp length
  exact ⟨a, rfl, (Fresh.map_error_ok _ _ _).mp run⟩

theorem binary_ok {lower : Expr → Expr → Fresh BuildError Expr} (length : values.length = 2)
    (run : binary lower x values supply = .ok (v, after)) :
    ∃ a b, values = [a, b] ∧ lower a b supply = .ok (v, after) := by
  obtain ⟨a, b, rfl⟩ := List.length_eq_two.mp length
  exact ⟨a, b, rfl, (Fresh.map_error_ok _ _ _).mp run⟩

theorem binary_formula_ok {formula : Expr → Expr → Fresh LoweringError Expr}
    (length : values.length = 2) (run : binaryFormula formula x values supply = .ok (v, after)) :
    ∃ a b, values = [a, b] ∧ formula a b supply = .ok (v, after) := by
  obtain ⟨a, b, rfl⟩ := List.length_eq_two.mp length
  exact ⟨a, b, rfl, (Fresh.map_error_ok _ _ _).mp run⟩

/-- What the rule of a compound operator makes of the new operands. -/
inductive Lowered (supply after : Supply) (v : Expr) : Operator → List Expr → Prop
  | transposed {a : Expr} : a.lowerTransposed supply = .ok (v, after) →
      Lowered supply after v .transposed [a]
  | inner {a b : Expr} : a.lowerInner b supply = .ok (v, after) →
      Lowered supply after v .inner [a, b]
  | outer {a b : Expr} : a.lowerOuter b supply = .ok (v, after) →
      Lowered supply after v .outer [a, b]
  | dot {a b : Expr} : a.contract b supply = .ok (v, after) → Lowered supply after v .dot [a, b]
  | cross {a b : Expr} : a.crossFormula b = .ok v → supply = after →
      Lowered supply after v .cross [a, b]
  | trace {a : Expr} : a.lowerTrace supply = .ok (v, after) → Lowered supply after v .trace [a]
  | skew {a : Expr} : a.lowerSkew supply = .ok (v, after) → Lowered supply after v .skew [a]
  | determinant {a : Expr} : a.determinantFormula supply = .ok (v, after) →
      Lowered supply after v .determinant [a]
  | inverse {a : Expr} : a.inverseFormula supply = .ok (v, after) →
      Lowered supply after v .inverse [a]
  | cofactor {a : Expr} : a.cofactorFormula = .ok v → supply = after →
      Lowered supply after v .cofactor [a]
  | deviatoric {a : Expr} : a.deviatoricFormula = .ok v → supply = after →
      Lowered supply after v .deviatoric [a]
  | div {a : Expr} : a.lowerDivergence supply = .ok (v, after) → Lowered supply after v .div [a]
  | curl {a : Expr} : a.lowerCurl = .ok v → supply = after → Lowered supply after v .curl [a]
  | rot {a : Expr} : a.lowerCurl = .ok v → supply = after → Lowered supply after v .rot [a]

theorem rule_of_compound {op : Operator} {operands : List Expr} {shape : Shape}
    {free : FreeIndices} (types : op.Types operands shape free)
    (compound : op.kind.isCompound = true) (found : rules.rule? op.kind = some rule)
    (length : values.length = operands.length) (run : rule x values supply = .ok (v, after)) :
    Lowered supply after v op values := by
  cases types with
  | transposed =>
      cases found
      obtain ⟨a, rfl, made⟩ := unary_ok length run
      exact .transposed made
  | inner =>
      cases found
      obtain ⟨a, b, rfl, made⟩ := binary_ok length run
      exact .inner made
  | outer =>
      cases found
      obtain ⟨a, b, rfl, made⟩ := binary_ok length run
      exact .outer made
  | dot =>
      cases found
      obtain ⟨a, b, rfl, made⟩ := binary_ok length run
      exact .dot made
  | cross =>
      cases found
      obtain ⟨a, b, rfl, made⟩ := binary_formula_ok length run
      obtain ⟨made, unchanged⟩ := (Fresh.lift_ok _ _).mp made
      exact .cross made unchanged
  | trace =>
      cases found
      obtain ⟨a, rfl, made⟩ := unary_ok length run
      exact .trace made
  | skew =>
      cases found
      obtain ⟨a, rfl, made⟩ := unary_ok length run
      exact .skew made
  | determinant =>
      cases found
      obtain ⟨a, rfl, made⟩ := unary_formula_ok length run
      exact .determinant made
  | inverse =>
      cases found
      obtain ⟨a, rfl, made⟩ := unary_formula_ok length run
      exact .inverse made
  | cofactor =>
      cases found
      obtain ⟨a, rfl, made⟩ := unary_formula_ok length run
      obtain ⟨made, unchanged⟩ := (Fresh.lift_ok _ _).mp made
      exact .cofactor made unchanged
  | deviatoric =>
      cases found
      obtain ⟨a, rfl, made⟩ := unary_formula_ok length run
      obtain ⟨made, unchanged⟩ := (Fresh.lift_ok _ _).mp made
      exact .deviatoric made unchanged
  | div =>
      cases found
      obtain ⟨a, rfl, made⟩ := unary_ok length run
      exact .div made
  | curl =>
      cases found
      obtain ⟨a, rfl, made⟩ := unary_ok length run
      obtain ⟨made, unchanged⟩ := (Fresh.lift_ok _ _).mp made
      exact .curl made unchanged
  | rot =>
      cases found
      obtain ⟨a, rfl, made⟩ := unary_ok length run
      obtain ⟨made, unchanged⟩ := (Fresh.lift_ok _ _).mp made
      exact .rot made unchanged
  | _ => cases compound

theorem Lowered.kept {P : Expr → Prop} (stable : Stable P) {op : Operator}
    (lowered : Lowered supply after v op values) (kept : ∀ o ∈ values, P o) : P v := by
  have first {o : Expr} {rest : List Expr} (kept : ∀ p ∈ o :: rest, P p) : P o :=
    kept o List.mem_cons_self
  have second {o p : Expr} (kept : ∀ q ∈ [o, p], P q) : P p :=
    kept p (List.mem_cons_of_mem _ List.mem_cons_self)
  cases lowered with
  | transposed made => exact stable.lower_transposed (first kept) made
  | inner made => exact stable.lower_inner (first kept) (second kept) made
  | outer made => exact stable.lower_outer (first kept) (second kept) made
  | dot made => exact stable.contract (first kept) (second kept) made
  | cross made => exact stable.cross_formula (first kept) (second kept) made
  | trace made => exact stable.lower_trace (first kept) made
  | skew made => exact stable.lower_skew (first kept) made
  | determinant made => exact stable.determinant_formula (first kept) made
  | inverse made => exact stable.inverse_formula (first kept) made
  | cofactor made => exact stable.uses_table (first kept) (cofactor_formula_cases made)
  | deviatoric made => exact stable.deviatoric_formula (first kept) made
  | div made => exact stable.lower_divergence (first kept) made
  | curl made | rot made => exact stable.lower_curl (first kept) made

/-- It is built from the new operands. -/
theorem Lowered.built {op : Operator} (lowered : Lowered supply after v op values) :
    Built (fun op => op.isNotation = true) (· ∈ values) v :=
  lowered.kept (Built.stable fun _ => id) fun _ => .given

open Fresh in
theorem Lowered.grows {op : Operator} (lowered : Lowered supply after v op values) :
    supply.index ≤ after.index ∧ after.label = supply.label := by
  cases lowered with
  | transposed made =>
      exact grows_bind grows_index (fun _ => grows_bind grows_index fun _ => grows_bind (grows_lift _)
        fun _ => grows_lift _) _ _ _ made
  | inner made =>
      exact grows_bind (grows_indices _) (fun _ => grows_bind (grows_lift _) fun _ =>
        grows_bind (grows_lift _) fun _ => grows_lift _) _ _ _ made
  | outer made =>
      exact grows_bind (grows_indices _) (fun _ => grows_bind (grows_indices _) fun _ =>
        grows_bind (grows_lift _) fun _ => grows_bind (grows_lift _) fun _ => grows_bind (grows_lift _)
          fun _ => grows_lift _) _ _ _ made
  | dot made => exact contract_grows _ _ _ _ _ made
  | trace made => exact grows_bind grows_index (fun _ => grows_lift _) _ _ _ made
  | skew made =>
      exact grows_bind grows_index (fun _ => grows_bind grows_index fun _ => grows_bind (grows_lift _)
        fun _ => grows_bind (grows_lift _) fun _ => grows_bind (grows_lift _) fun _ =>
          grows_bind (grows_lift _) fun _ => grows_lift _) _ _ _ made
  | determinant made => exact determinant_grows _ _ _ _ made
  | inverse made => exact inverse_grows _ _ _ _ made
  | div made =>
      exact grows_bind (grows_indices _) (fun _ => grows_bind grows_index fun _ => grows_bind (grows_lift _)
        fun _ => grows_bind (grows_lift _) fun _ => grows_lift _) _ _ _ made
  | cross _ same | cofactor _ same | deviatoric _ same | curl _ same | rot _ same =>
      rw [same]
      exact ⟨Nat.le_refl _, rfl⟩

end Lowering

end FormCalculus
