import FormCalculus.Proofs.Echoing
import FormCalculus.Proofs.Expanding
import FormCalculus.Proofs.Payload

/-!
Expressions without labels that are computed alike: equal up to the order of the operands of sums and
products and the payloads of NaN constants. Operators make alike expressions of alike operands.
-/
set_option autoImplicit false

namespace FormCalculus.Expr

/-- `v` is computed as `x` is. -/
inductive Alike : Expr → Expr → Prop
  | refl (x : Expr) : Alike x x
  | real {x y : Binary64} : x.toFloat = y.toFloat →
      Alike (.terminal (.real x)) (.terminal (.real y))
  | node {op : Operator} {xs vs ws : List Expr} {shape : Shape} {free : FreeIndices} :
      op.isElementary = true → xs.length = vs.length → (∀ x v, (x, v) ∈ xs.zip vs → Alike x v) →
      Reordered op vs ws → Alike (.node op xs shape free) (.node op ws shape free)

variable {a a' b b' r x y z v : Expr} {op : Operator} {xs vs ws : List Expr}

theorem alike_of_pairs {shape : Shape} {free : FreeIndices} (elementary : op.isElementary = true)
    (pairs : List.Forall₂ Alike xs vs) (reordered : Reordered op vs ws) :
    Alike (.node op xs shape free) (.node op ws shape free) :=
  .node elementary pairs.length_eq (fun _ _ pair => List.forall₂_zip pairs pair) reordered

theorem alike_arranged {shape : Shape} {free : FreeIndices} (elementary : op.isElementary = true)
    (pairs : List.Forall₂ Alike xs vs) :
    Alike (.node op (op.arrange xs) shape free) (.node op (op.arrange vs) shape free) := by
  obtain ⟨us, reordered, along⟩ := (arrange_reordered op xs).pairs pairs
  exact alike_of_pairs elementary along (reordered.symm.trans (arrange_reordered op vs))

namespace Alike

theorem trans (first : Alike x y) (second : Alike y z) : Alike x z := by
  induction first generalizing z with
  | refl => exact second
  | real same =>
      cases second with
      | refl => exact .real same
      | real same' => exact .real (same.trans same')
  | @node op xs vs ws shape free elementary length pairs reordered ih =>
      cases second with
      | refl => exact .node elementary length pairs reordered
      | @node _ _ us _ _ _ _ length' pairs' reordered' =>
          have along : List.Forall₂ Alike ws us :=
            List.forall₂_iff_zip.mpr ⟨length', fun {x v} pair => pairs' x v pair⟩
          obtain ⟨ts, reordered'', along⟩ := reordered.symm.pairs along
          have before : List.Forall₂ (fun x v => ∀ z, Alike v z → Alike x z) xs vs :=
            List.forall₂_iff_zip.mpr ⟨length, fun {x v} pair z => ih x v pair⟩
          exact alike_of_pairs elementary (pairs_trans before along fun x v z first second => first z second)
            (reordered''.symm.trans reordered')

theorem shape (alike : Alike x v) : v.shape = x.shape := by
  cases alike <;> rfl

theorem free (alike : Alike x v) : v.free = x.free := by
  cases alike <;> rfl

theorem zero (alike : Alike x v) : v.isZero = x.isZero := by
  cases alike <;> rfl

theorem kind (alike : Alike x v) : v.kind = x.kind := by
  cases alike <;> rfl

/-- Alike constants are one number. -/
theorem constant (alike : Alike x v) : (x.constant? = none ∧ v.constant? = none) ∨
    ∃ c d, x.constant? = some c ∧ v.constant? = some d ∧ c.Alike d := by
  cases alike with
  | refl =>
      cases x.constant? with
      | none => exact .inl ⟨rfl, rfl⟩
      | some c => exact .inr ⟨c, c, rfl, rfl, .inl rfl⟩
  | real same => exact .inr ⟨_, _, rfl, rfl, .inr ⟨_, _, rfl, rfl, same⟩⟩
  | node => exact .inl ⟨rfl, rfl⟩

theorem one (alike : Alike x v) : v.isOne = x.isOne := by
  unfold isOne
  obtain ⟨left, right⟩ | ⟨c, d, left, right, same⟩ := alike.constant
  · rw [left, right]
  · rw [left, right, Option.any_some, Option.any_some, same.one]

end Alike

theorem to_expr_alike {c d : Constant} (alike : c.Alike d) : Alike c.toExpr d.toExpr := by
  obtain rfl | ⟨x, y, rfl, rfl, same⟩ := alike
  · exact .refl _
  · exact .real same

/-! Two constants fold to the same number as constants like them, in either order where that has
no part in it. -/

/-- Both are open, or both are known and known alike. -/
inductive Folds : Option Expr → Option Expr → Prop
  | none : Folds none none
  | some {r r' : Expr} : Alike r r' → Folds (some r) (some r')

theorem fold_alike {how : Constant.Operation} (left : Alike a a') (right : Alike b b') :
    Folds (fold? how a b) (fold? how a' b') := by
  unfold fold?
  obtain ⟨none, none'⟩ | ⟨c, c', known, known', same⟩ := left.constant
  · rw [none, none']
    exact .none
  · rw [known, known']
    obtain ⟨none, none'⟩ | ⟨d, d', known, known', same'⟩ := right.constant
    · rw [none, none']
      exact .none
    · rw [known, known']
      exact .some (to_expr_alike (Constant.apply_alike same same'))

theorem fold_swapped {how : Constant.Operation} (commutes : how.Commutes) :
    Folds (fold? how a b) (fold? how b a) := by
  unfold fold?
  cases a.constant? with
  | none => cases b.constant? <;> exact .none
  | some c =>
      cases b.constant? with
      | none => exact .none
      | some d => exact .some (to_expr_alike (Constant.apply_swapped commutes))

theorem fold_root_alike (alike : Alike a a') : a'.foldRoot? = a.foldRoot? := by
  unfold foldRoot?
  obtain ⟨none, none'⟩ | ⟨c, d, known, known', same⟩ := alike.constant
  · rw [none, none']
  · rw [known, known']
    show (do return (← d.root?).toExpr) = (do return (← c.root?).toExpr : Option Expr)
    rw [Constant.root_alike same]

/-! The operators that expansion applies. -/

/-- The two orders of the operands of a sum or product. -/
theorem alike_sorted (commutes : op = .sum ∨ op = .product) (a b : Expr) (shape : Shape)
    (free : FreeIndices) :
    Alike (.node op (sortedPair a b) shape free) (.node op (sortedPair b a) shape free) := by
  have sorted (a b : Expr) : Reordered op [a, b] (sortedPair a b) := by
    rcases sorted_pair_cases a b with same | same
    · exact .inl same
    · exact .inr ⟨commutes, a, b, rfl, same⟩
  have swapped : Reordered op [a, b] [b, a] := .inr ⟨commutes, a, b, rfl, rfl⟩
  have elementary : op.isElementary = true := by rcases commutes with rfl | rfl <;> rfl
  exact alike_of_pairs elementary (List.forall₂_same.mpr fun o _ => .refl o)
    ((sorted a b).symm.trans (swapped.trans (sorted b a)))

theorem pair_alike (left : Alike a a') (right : Alike b b') : List.Forall₂ Alike [a, b] [a', b'] :=
  .cons left (.cons right .nil)

theorem add_alike (left : Alike a a') (right : Alike b b') (run : a.add b = .ok r) :
    ∃ r', a'.add b' = .ok r' ∧ Alike r r' := by
  simp only [add, except_bind_ok, expect_same_shape_ok, expect_same_free_ok] at run
  obtain ⟨_, shape, _, free, rest⟩ := run
  have shape' : a'.shape = b'.shape := by rw [left.shape, right.shape, shape]
  have free' : a'.free = b'.free := by rw [left.free, right.free, free]
  simp only [add, expect_same_shape_runs shape', expect_same_free_runs free', except_ok_bind,
    left.zero, right.zero, left.shape, left.free]
  by_cases zero : a.isZero = true
  · rw [if_pos zero] at rest ⊢
    cases (except_pure_ok _ _).mp rest
    exact ⟨b', rfl, right⟩
  rw [if_neg zero] at rest ⊢
  by_cases zero' : b.isZero = true
  · rw [if_pos zero'] at rest ⊢
    cases (except_pure_ok _ _).mp rest
    exact ⟨a', rfl, left⟩
  rw [if_neg zero'] at rest ⊢
  have folds : Folds (fold? .addition a b) (fold? .addition a' b') := fold_alike left right
  generalize fold? .addition a b = folded, fold? .addition a' b' = folded' at rest folds ⊢
  cases folds with
  | some alike =>
      cases (except_pure_ok _ _).mp rest
      exact ⟨_, rfl, alike⟩
  | none =>
      cases (except_pure_ok _ _).mp rest
      have node : Alike (.node .sum (sortedPair a b) a.shape a.free)
          (.node .sum (sortedPair a' b') a.shape a.free) := alike_arranged rfl (pair_alike left right)
      exact ⟨_, rfl, node⟩

theorem add_swapped (run : a.add b = .ok r) : ∃ r', b.add a = .ok r' ∧ Alike r r' := by
  simp only [add, except_bind_ok, expect_same_shape_ok, expect_same_free_ok] at run
  obtain ⟨_, shape, _, free, rest⟩ := run
  simp only [add, expect_same_shape_runs shape.symm, expect_same_free_runs free.symm, except_ok_bind]
  by_cases zero : a.isZero = true
  · rw [if_pos zero] at rest
    cases (except_pure_ok _ _).mp rest
    by_cases zero' : b.isZero = true
    · rw [if_pos zero', zero_unique zero zero' shape free]
      exact ⟨b, rfl, .refl b⟩
    · rw [if_neg zero', if_pos zero]
      exact ⟨b, rfl, .refl b⟩
  rw [if_neg zero] at rest
  by_cases zero' : b.isZero = true
  · rw [if_pos zero'] at rest ⊢
    cases (except_pure_ok _ _).mp rest
    exact ⟨a, rfl, .refl a⟩
  rw [if_neg zero'] at rest ⊢
  rw [if_neg zero]
  have folds : Folds (fold? .addition a b) (fold? .addition b a) := fold_swapped trivial
  generalize fold? .addition a b = folded, fold? .addition b a = folded' at rest folds ⊢
  cases folds with
  | some alike =>
      cases (except_pure_ok _ _).mp rest
      exact ⟨_, rfl, alike⟩
  | none =>
      cases (except_pure_ok _ _).mp rest
      rw [← shape, ← free]
      exact ⟨_, rfl, alike_sorted (.inl rfl) a b a.shape a.free⟩

theorem scalar_product_alike (left : Alike a a') (right : Alike b b')
    (run : a.scalarProduct b = .ok r) : ∃ r', a'.scalarProduct b' = .ok r' ∧ Alike r r' := by
  simp only [scalarProduct, except_bind_ok, expect_scalar_ok] at run
  obtain ⟨_, sa, _, sb, free, joined, rest⟩ := run
  simp only [scalarProduct, expect_scalar_runs (left.shape.trans sa),
    expect_scalar_runs (right.shape.trans sb), except_ok_bind, left.free, right.free, joined,
    left.zero, right.zero, left.one, right.one]
  by_cases zero : (a.isZero || b.isZero) = true
  · rw [if_pos zero] at rest ⊢
    cases (except_pure_ok _ _).mp rest
    exact ⟨_, rfl, .refl _⟩
  rw [if_neg zero] at rest ⊢
  have folds : Folds (fold? .multiplication a b) (fold? .multiplication a' b') :=
    fold_alike left right
  generalize fold? .multiplication a b = folded, fold? .multiplication a' b' = folded' at rest folds ⊢
  cases folds with
  | some alike =>
      cases (except_pure_ok _ _).mp rest
      exact ⟨_, rfl, alike⟩
  | none =>
      simp only at rest ⊢
      by_cases one : a.isOne = true
      · rw [if_pos one] at rest ⊢
        cases (except_pure_ok _ _).mp rest
        exact ⟨b', rfl, right⟩
      rw [if_neg one] at rest ⊢
      by_cases one' : b.isOne = true
      · rw [if_pos one'] at rest ⊢
        cases (except_pure_ok _ _).mp rest
        exact ⟨a', rfl, left⟩
      rw [if_neg one'] at rest ⊢
      cases (except_pure_ok _ _).mp rest
      have node : Alike (.node .product (sortedPair a b) [] free)
          (.node .product (sortedPair a' b') [] free) := alike_arranged rfl (pair_alike left right)
      exact ⟨_, rfl, node⟩

theorem scalar_product_swapped (run : a.scalarProduct b = .ok r) :
    ∃ r', b.scalarProduct a = .ok r' ∧ Alike r r' := by
  simp only [scalarProduct, except_bind_ok, expect_scalar_ok] at run
  obtain ⟨_, sa, _, sb, free, joined, rest⟩ := run
  simp only [scalarProduct, expect_scalar_runs sa, expect_scalar_runs sb, except_ok_bind,
    (FreeIndices.join_ok joined).symm.joins, Bool.or_comm b.isZero]
  by_cases zero : (a.isZero || b.isZero) = true
  · rw [if_pos zero] at rest ⊢
    cases (except_pure_ok _ _).mp rest
    exact ⟨_, rfl, .refl _⟩
  rw [if_neg zero] at rest ⊢
  have folds : Folds (fold? .multiplication a b) (fold? .multiplication b a) := fold_swapped trivial
  generalize known : fold? .multiplication a b = folded, fold? .multiplication b a = folded'
    at rest folds ⊢
  cases folds with
  | some alike =>
      cases (except_pure_ok _ _).mp rest
      exact ⟨_, rfl, alike⟩
  | none =>
      simp only at rest ⊢
      by_cases one : a.isOne = true
      · -- Two ones would have folded.
        have other : b.isOne = false := by
          rcases fold_none_iff.mp known with unknown | unknown
          · simp [isOne, unknown] at one
          · simp [isOne, unknown]
        rw [if_pos one] at rest
        rw [other, if_neg Bool.false_ne_true, if_pos one]
        cases (except_pure_ok _ _).mp rest
        exact ⟨b, rfl, .refl b⟩
      rw [if_neg one] at rest
      by_cases one' : b.isOne = true
      · rw [if_pos one'] at rest ⊢
        cases (except_pure_ok _ _).mp rest
        exact ⟨a, rfl, .refl a⟩
      rw [if_neg one'] at rest ⊢
      rw [if_neg one]
      cases (except_pure_ok _ _).mp rest
      exact ⟨_, rfl, alike_sorted (.inr rfl) a b [] free⟩

theorem scalar_quotient_alike (left : Alike a a') (right : Alike b b')
    (run : a.scalarQuotient b = .ok r) : ∃ r', a'.scalarQuotient b' = .ok r' ∧ Alike r r' := by
  simp only [scalarQuotient, except_bind_ok, expect_scalar_ok] at run
  obtain ⟨_, sa, _, sb, rest⟩ := run
  obtain ⟨nonzero, rest⟩ := except_if_ok (by simp) rest
  obtain ⟨free, joined, rest⟩ := (except_bind_ok _ _ _).mp rest
  simp only [scalarQuotient, expect_scalar_runs (left.shape.trans sa),
    expect_scalar_runs (right.shape.trans sb), except_ok_bind, left.free, right.free, joined,
    left.zero, right.zero, right.one]
  rw [if_neg nonzero]
  by_cases zero : a.isZero = true
  · rw [if_pos zero] at rest ⊢
    cases (except_pure_ok _ _).mp rest
    exact ⟨_, rfl, .refl _⟩
  rw [if_neg zero] at rest ⊢
  have folds : Folds (fold? .division a b) (fold? .division a' b') := fold_alike left right
  generalize fold? .division a b = folded, fold? .division a' b' = folded' at rest folds ⊢
  cases folds with
  | some alike =>
      cases (except_pure_ok _ _).mp rest
      exact ⟨_, rfl, alike⟩
  | none =>
      simp only at rest ⊢
      by_cases one : b.isOne = true
      · rw [if_pos one] at rest ⊢
        cases (except_pure_ok _ _).mp rest
        exact ⟨a', rfl, left⟩
      rw [if_neg one] at rest ⊢
      cases (except_pure_ok _ _).mp rest
      exact ⟨_, rfl, alike_of_pairs rfl (pair_alike left right) (.inl rfl)⟩

theorem pow_alike (left : Alike a a') (right : Alike b b') (run : a.pow b = .ok r) :
    ∃ r', a'.pow b' = .ok r' ∧ Alike r r' := by
  simp only [pow, except_bind_ok, expect_scalar_ok] at run
  obtain ⟨_, sa, _, sb, rest⟩ := run
  obtain ⟨closed, rest⟩ := except_if_ok (by simp) rest
  simp only [pow, expect_scalar_runs (left.shape.trans sa),
    expect_scalar_runs (right.shape.trans sb), except_ok_bind, left.free, right.free, right.one]
  rw [if_neg closed]
  by_cases one : b.isOne = true
  · rw [if_pos one] at rest ⊢
    cases (except_pure_ok _ _).mp rest
    exact ⟨a', rfl, left⟩
  rw [if_neg one] at rest ⊢
  have folds : Folds (fold? .exponentiation a b) (fold? .exponentiation a' b') :=
    fold_alike left right
  generalize fold? .exponentiation a b = folded, fold? .exponentiation a' b' = folded'
    at rest folds ⊢
  cases folds with
  | some alike =>
      cases (except_pure_ok _ _).mp rest
      exact ⟨_, rfl, alike⟩
  | none =>
      cases (except_pure_ok _ _).mp rest
      exact ⟨_, rfl, alike_of_pairs rfl (pair_alike left right) (.inl rfl)⟩

theorem sqrt_alike (operand : Alike a a') (run : a.sqrt = .ok r) :
    ∃ r', a'.sqrt = .ok r' ∧ Alike r r' := by
  simp only [sqrt, except_bind_ok, expect_scalar_ok] at run
  obtain ⟨_, scalar, rest⟩ := run
  simp only [sqrt, expect_scalar_runs (operand.shape.trans scalar), except_ok_bind, operand.zero,
    operand.free, fold_root_alike operand]
  by_cases zero : a.isZero = true
  · rw [if_pos zero] at rest ⊢
    cases (except_pure_ok _ _).mp rest
    exact ⟨a', rfl, operand⟩
  rw [if_neg zero] at rest ⊢
  cases folded : a.foldRoot? with
  | some root =>
      simp only [folded] at rest ⊢
      cases (except_pure_ok _ _).mp rest
      exact ⟨_, rfl, .refl _⟩
  | none =>
      simp only [folded] at rest ⊢
      cases (except_pure_ok _ _).mp rest
      exact ⟨_, rfl, alike_of_pairs rfl (.cons operand .nil) (.inl rfl)⟩

theorem conditional_alike {test test' : Expr} (condition : Alike test test') (left : Alike a a')
    (right : Alike b b') (run : test.conditional a b = .ok r) :
    ∃ r', test'.conditional a' b' = .ok r' ∧ Alike r r' := by
  obtain ⟨kind, run⟩ := except_if_ok (by simp) run
  simp only [except_bind_ok, except_pure_ok, expect_same_shape_ok, expect_same_free_ok] at run
  obtain ⟨_, shape, _, free, both, joined, rfl⟩ := run
  have shape' : a'.shape = b'.shape := by rw [left.shape, right.shape, shape]
  have free' : a'.free = b'.free := by rw [left.free, right.free, free]
  refine ⟨.node .conditional [test', a', b'] a.shape both, ?_,
    alike_of_pairs rfl (.cons condition (pair_alike left right)) (.inl rfl)⟩
  simp only [conditional, condition.kind, expect_same_shape_runs shape',
    expect_same_free_runs free', except_ok_bind, condition.free, left.free, joined, left.shape]
  rw [if_neg kind]
  rfl

theorem condition_free_alike {how : Comparison} {set free : FreeIndices}
    (pairs : List.Forall₂ Alike xs vs) (run : conditionFree how set xs = .ok free) :
    conditionFree how set vs = .ok free := by
  induction pairs generalizing set with
  | nil => exact run
  | cons first _ ih =>
      unfold conditionFree at run
      obtain ⟨checked, run⟩ := except_if_ok (by simp) run
      simp only [except_bind_ok, expect_scalar_ok] at run
      obtain ⟨_, scalar, middle, joined, run⟩ := run
      unfold conditionFree
      rw [first.kind, if_neg checked]
      simp only [expect_scalar_runs (first.shape.trans scalar), first.free, joined, except_ok_bind]
      exact ih run

theorem condition_alike {how : Comparison} (pairs : List.Forall₂ Alike xs vs)
    (run : condition how xs = .ok r) : ∃ r', condition how vs = .ok r' ∧ Alike r r' := by
  obtain ⟨arity, run⟩ := except_if_ok (by simp) run
  simp only [except_bind_ok, except_pure_ok] at run
  obtain ⟨free, found, rfl⟩ := run
  refine ⟨.node (.condition how) vs [] free, ?_, alike_of_pairs rfl pairs (.inl rfl)⟩
  rw [pairs.length_eq] at arity
  simp only [condition, condition_free_alike pairs found]
  rw [if_neg arity]
  rfl

/-- An elementary operator makes alike expressions of alike operands. -/
theorem assemble_alike (elementary : op.isElementary = true) (other : op ≠ .spatialDerivative)
    (pairs : List.Forall₂ Alike xs vs) (run : op.assemble xs = .ok r) :
    ∃ r', op.assemble vs = .ok r' ∧ Alike r r' := by
  unfold Operator.assemble at run
  split at run
  all_goals first | (cases elementary; done) | skip
  · obtain ⟨v, w, rfl, left, right⟩ := pairs_two pairs
    exact add_alike left right run
  · obtain ⟨v, w, rfl, left, right⟩ := pairs_two pairs
    exact scalar_product_alike left right run
  · obtain ⟨v, w, rfl, left, right⟩ := pairs_two pairs
    exact scalar_quotient_alike left right run
  · obtain ⟨v, w, rfl, left, right⟩ := pairs_two pairs
    exact pow_alike left right run
  · obtain ⟨v, rfl, operand⟩ := pairs_one pairs
    exact sqrt_alike operand run
  · obtain ⟨test, v, w, rfl, first, left, right⟩ := pairs_three pairs
    exact conditional_alike first left right run
  · exact condition_alike pairs run
  · exact absurd rfl other
  · obtain ⟨v, rfl, operand⟩ := pairs_one pairs
    cases run
    refine ⟨_, rfl, ?_⟩
    unfold restricted unary
    rw [← operand.shape, ← operand.free]
    exact alike_of_pairs rfl pairs (.inl rfl)
  · cases run

/-- The order of the operands of a sum or product has no part in what it makes. -/
theorem assemble_swapped (reordered : Reordered op vs ws) (run : op.assemble vs = .ok r) :
    ∃ r', op.assemble ws = .ok r' ∧ Alike r r' := by
  obtain rfl | ⟨rfl | rfl, a, b, rfl, rfl⟩ := reordered
  · exact ⟨r, run, .refl r⟩
  · exact add_swapped run
  · exact scalar_product_swapped run

end FormCalculus.Expr
