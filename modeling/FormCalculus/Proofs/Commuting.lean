import Mathlib
import FormCalculus.Proofs.Assembly

/-!
Sums and products do not depend on the order of their operands. The one exception are two constants
that are NaNs with different bits: which of them is handed on does.
-/
set_option autoImplicit false

namespace FormCalculus

open Float.Model in
theorem unpacked_add_comm (f : Format) (a b : UnpackedFloat) :
    UnpackedFloat.add f a b = UnpackedFloat.add f b a := by
  cases a <;> cases b <;> simp only [UnpackedFloat.add]
  case infinity.infinity s t => cases s <;> cases t <;> rfl
  case zero.zero s t => cases s <;> cases t <;> rfl
  case finite.finite s m e _ t n k _ => rw [min_comm, Int.add_comm]

open Float.Model in
theorem unpacked_mul_comm (f : Format) (a b : UnpackedFloat) :
    UnpackedFloat.mul f a b = UnpackedFloat.mul f b a := by
  have signs (s t : UnpackedFloat.Sign) : s * t = t * s := by cases s <;> cases t <;> rfl
  cases a <;> cases b <;> simp only [UnpackedFloat.mul]
  case finite.finite s m e _ t n k _ => rw [signs s t, Nat.mul_comm m n, Int.add_comm e k]
  all_goals rw [signs]

theorem float_add_comm (x y : Float) : x + y = y + x :=
  congrArg (fun unpacked => Float.ofModel (Float.Model.pack unpacked)) (unpacked_add_comm _ _ _)

theorem float_mul_comm (x y : Float) : x * y = y * x :=
  congrArg (fun unpacked => Float.ofModel (Float.Model.pack unpacked)) (unpacked_mul_comm _ _ _)

namespace Constant

/-- Two NaNs that leave an operation in different ways. -/
def Clash (a b : Constant) : Prop :=
  a.toBinary64.toFloat.isNaN = true ∧ b.toBinary64.toFloat.isNaN = true ∧
    a.toBinary64.quieted ≠ b.toBinary64.quieted

/-- The operations whose operands are sorted. -/
def Operation.Commutes : Operation → Prop
  | .addition | .multiplication => True
  | _ => False

theorem exact_comm {op : Operation} (commutes : op.Commutes) (x y : Int) :
    op.exact x y = op.exact y x := by
  cases op with
  | addition => exact congrArg fit (Int.add_comm x y)
  | multiplication => exact congrArg fit (Int.mul_comm x y)
  | division | exponentiation => cases commutes

theorem approximate_comm {op : Operation} (commutes : op.Commutes) (x y : Float) :
    op.approximate x y = op.approximate y x := by
  cases op with
  | addition => exact float_add_comm x y
  | multiplication => exact float_mul_comm x y
  | division | exponentiation => cases commutes

theorem combine_comm {op : Operation} {x y : Binary64} (commutes : op.Commutes)
    (same : x.toFloat.isNaN = true → y.toFloat.isNaN = true → x.quieted = y.quieted) :
    Binary64.combine op.approximate x y = Binary64.combine op.approximate y x := by
  unfold Binary64.combine
  simp only [approximate_comm commutes y.toFloat x.toFloat]
  split
  · split
    · rename_i left
      split
      · exact same left ‹_›
      · rfl
    · rfl
  · rfl

/-- The doubles of two constants may change places in a sum and in a product. -/
def DoublesCommute (a b : Constant) : Prop :=
  ∀ op : Operation, op.Commutes →
    Binary64.combine op.approximate a.toBinary64 b.toBinary64 =
      Binary64.combine op.approximate b.toBinary64 a.toBinary64

/-- They may, unless both are NaNs. -/
theorem doubles_commute_of_apart {a b : Constant} (apart : ¬ Clash a b) : DoublesCommute a b := by
  intro op commutes
  refine combine_comm commutes fun left right => ?_
  by_contra differ
  exact apart ⟨left, right, differ⟩

theorem apply_comm {op : Operation} {a b : Constant} (commutes : op.Commutes)
    (doubles : DoublesCommute a b) : op.apply a b = op.apply b a := by
  cases a <;> cases b <;> simp only [Operation.apply, exact_comm commutes, doubles op commutes]

end Constant

namespace Expr

/-- Two constants whose sum and product depend on their order. -/
def Clash (a b : Expr) : Prop :=
  ∃ x y, a.constant? = some x ∧ b.constant? = some y ∧ x.Clash y

variable {a b r : Expr}

/-- If two expressions are constants, their doubles may change places. -/
def DoublesCommute (a b : Expr) : Prop :=
  ∀ x y, a.constant? = some x → b.constant? = some y → x.DoublesCommute y

theorem doubles_commute_of_apart (apart : ¬ Clash a b) : DoublesCommute a b :=
  fun x y left right =>
    Constant.doubles_commute_of_apart fun clash => apart ⟨x, y, left, right, clash⟩

theorem fold_comm {op : Constant.Operation} (commutes : op.Commutes) (doubles : DoublesCommute a b) :
    fold? op a b = fold? op b a := by
  unfold fold?
  cases left : a.constant? with
  | none => cases b.constant? <;> rfl
  | some x =>
      cases right : b.constant? with
      | none => rfl
      | some y =>
          have same := Constant.apply_comm commutes (doubles x y left right)
          exact congrArg (fun c : Constant => some c.toExpr) same

theorem zero_unique (left : a.isZero = true) (right : b.isZero = true) (shape : a.shape = b.shape)
    (free : a.free = b.free) : a = b := by
  obtain ⟨s, f, rfl⟩ := is_zero_iff.mp left
  obtain ⟨s', f', rfl⟩ := is_zero_iff.mp right
  obtain rfl : s = s' := shape
  obtain rfl : f = f' := free
  rfl

section

variable [Folding]

/-- A sum does not depend on the order of its operands if what they fold to does not. -/
theorem add_swap (plain : Unlabelled a) (folds : fold? .addition a b = fold? .addition b a)
    (run : a.add b = .ok r) : b.add a = .ok r := by
  obtain ⟨_, shape, rest⟩ := (except_bind_ok _ _ _).mp run
  obtain ⟨_, free, rest⟩ := (except_bind_ok _ _ _).mp rest
  rw [expect_same_shape_ok] at shape
  rw [expect_same_free_ok] at free
  simp only [add, expect_same_shape_runs shape.symm, expect_same_free_runs free.symm, except_ok_bind]
  rw [← folds, ← sorted_pair_comm plain, ← shape, ← free]
  cases left : a.isZero with
  | true =>
      obtain rfl : b = r := by simpa [left] using rest
      cases right : b.isZero with
      | true => simp [zero_unique left right shape free]
      | false => simp
  | false =>
      cases right : b.isZero with
      | true => simpa [left, right] using rest
      | false => simpa [left, right] using rest

/-- Two ones have to fold, since of two units the product keeps the second one. -/
theorem scalar_product_swap (plain : Unlabelled a)
    (folds : fold? .multiplication a b = fold? .multiplication b a)
    (units : fold? .multiplication a b = none → a.isOne = false ∨ b.isOne = false)
    (run : a.scalarProduct b = .ok r) : b.scalarProduct a = .ok r := by
  simp only [scalarProduct, except_bind_ok, expect_scalar_ok] at run
  obtain ⟨_, left, _, right, free, joined, rest⟩ := run
  simp only [scalarProduct, expect_scalar_runs left, expect_scalar_runs right, except_ok_bind,
    (FreeIndices.join_ok joined).symm.joins]
  rw [← folds, ← sorted_pair_comm plain, Bool.or_comm]
  split
  · rename_i zero
    rwa [if_pos zero] at rest
  · rename_i nonzero
    rw [if_neg nonzero] at rest
    cases folded : fold? .multiplication a b with
    | some c => simpa only [folded] using rest
    | none =>
        simp only [folded] at rest ⊢
        by_cases one : b.isOne = true
        · have other : a.isOne = false := (units folded).resolve_right (by simp [one])
          simpa [one, other] using rest
        · simpa [one] using rest

end

theorem add_comm (plain : Unlabelled a) (apart : ¬ Clash a b) (run : a.add b = .ok r) :
    b.add a = .ok r :=
  add_swap plain (fold_comm trivial (doubles_commute_of_apart apart)) run

theorem scalar_product_comm (plain : Unlabelled a) (apart : ¬ Clash a b)
    (run : a.scalarProduct b = .ok r) : b.scalarProduct a = .ok r := by
  have folds : fold? .multiplication a b = fold? .multiplication b a :=
    fold_comm trivial (doubles_commute_of_apart apart)
  refine scalar_product_swap plain folds (fun folded => ?_) run
  exact (fold_none_iff.mp folded).imp (by simp +contextual [isOne]) (by simp +contextual [isOne])

end Expr

open Expr

/-- The same operands in the same order, or the two of a sum or product the other way round. -/
def Reordered (op : Operator) (vs ws : List Expr) : Prop :=
  ws = vs ∨ (op = .sum ∨ op = .product) ∧ ∃ a b, vs = [a, b] ∧ ws = [b, a]

theorem arrange_reordered (op : Operator) (vs : List Expr) : Reordered op vs (op.arrange vs) := by
  unfold Operator.arrange
  split
  · rename_i a b
    rcases sorted_pair_cases a b with same | same
    · exact .inl same
    · exact .inr ⟨.inl rfl, a, b, rfl, same⟩
  · rename_i a b
    rcases sorted_pair_cases a b with same | same
    · exact .inl same
    · exact .inr ⟨.inr rfl, a, b, rfl, same⟩
  · exact .inl rfl

theorem Reordered.mem {op : Operator} {vs ws : List Expr} (reordered : Reordered op vs ws)
    {o : Expr} : o ∈ ws ↔ o ∈ vs := by
  obtain rfl | ⟨_, a, b, rfl, rfl⟩ := reordered
  · exact Iff.rfl
  · simp [or_comm]

/-- An operator makes the same of its operands in the other order, where that is a sum or product
and they do not clash. -/
theorem assemble_reordered {op : Operator} {vs ws : List Expr} {r : Expr}
    (reordered : Reordered op vs ws) (plain : ∀ v ∈ vs, Unlabelled v)
    (apart : op = .sum ∨ op = .product → ∀ a b, vs = [a, b] → ¬ Clash a b)
    (run : op.assemble vs = .ok r) : op.assemble ws = .ok r := by
  obtain rfl | ⟨commutes, a, b, rfl, rfl⟩ := reordered
  · exact run
  · have left : Unlabelled a := plain a List.mem_cons_self
    have clashless : ¬ Clash a b := apart commutes a b rfl
    rcases commutes with rfl | rfl
    · exact add_comm left clashless run
    · exact scalar_product_comm left clashless run

end FormCalculus
