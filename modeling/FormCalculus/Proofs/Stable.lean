import FormCalculus.Lowering
import FormCalculus.Proofs.Assembly

/-!
Properties that are stable under the constructors of index notation: what these make has them if
what they are given has. They are stable then under whatever is put together from these constructors,
which are the products and quotients of tensors, the closed forms and the rules of lowering.
-/
set_option autoImplicit false

namespace FormCalculus

open Expr

/-- Products of tensors over operands that are tensors. With a scalar the constructors write them
in components instead. -/
def Operator.Spreads (op : Operator) (operands : List Expr) : Prop :=
  op ∈ [.inner, .outer, .dot] → ∀ o ∈ operands, o.shape ≠ []

theorem spreads_other {op : Operator} {operands : List Expr} (other : op ∉ [.inner, .outer, .dot]) :
    op.Spreads operands :=
  fun product => absurd product other

/-- Where no scalar is spread over a tensor, building takes nothing from the supply. -/
theorem build_spread [Folding] {op : Operator} {operands : List Expr} (spreads : op.Spreads operands)
    (supply : Supply) : op.build operands supply = (liftM (op.assemble operands) : Fresh _ _) supply := by
  unfold Operator.build
  split
  · rename_i a b
    have tensor : a.shape ≠ [] := spreads (by simp) a (by simp)
    have plain : a.isScalar = false := by simpa [isScalar] using tensor
    show Expr.inner a b supply = (liftM (innerNode a b) : Fresh _ _) supply
    simp only [Expr.inner, innerNode, plain, Bool.false_eq_true, if_false]
    cases expectSameShape .inner a b <;> rfl
  · rename_i a b
    have left : a.shape ≠ [] := spreads (by simp) a (by simp)
    have right : b.shape ≠ [] := spreads (by simp) b (by simp)
    simp [Expr.outer, isScalar, left, right, Operator.assemble]
  · rename_i a b
    have left : a.shape ≠ [] := spreads (by simp) a (by simp)
    have right : b.shape ≠ [] := spreads (by simp) b (by simp)
    simp [Expr.dot, isScalar, left, right, Operator.assemble]
  · rfl

theorem product_operands [Folding] {op : Operator} {operands : List Expr} {r : Expr}
    (product : op ∈ [.inner, .outer, .dot]) (run : op.assemble operands = .ok r) :
    ∃ a b, operands = [a, b] := by
  simp only [List.mem_cons, List.not_mem_nil, or_false] at product
  rcases operands with _ | ⟨a, _ | ⟨b, _ | ⟨c, rest⟩⟩⟩
  · rcases product with rfl | rfl | rfl <;> cases run
  · rcases product with rfl | rfl | rfl <;> cases run
  · exact ⟨a, b, rfl⟩
  · rcases product with rfl | rfl | rfl <;> cases run

/-- The constructors of index notation make expressions with the property from such ones. -/
structure Stable [Folding] (P : Expr → Prop) : Prop where
  constant {data : Terminal} : data.gdim? = none → P (.terminal data)
  subscript {e r : Expr} {items : List IndexItem} : P e → e.subscript items = .ok r → P r
  index_sum {e r : Expr} {index : Index} : P e → e.indexSum index = .ok r → P r
  as_tensor {e r : Expr} {indices : List Index} : P e → e.asTensor indices = .ok r → P r
  list_tensor {entries : List Expr} {r : Expr} : (∀ o ∈ entries, P o) → listTensor entries = .ok r →
    P r
  add {a b r : Expr} : P a → P b → a.add b = .ok r → P r
  scalar_product {a b r : Expr} : P a → P b → a.scalarProduct b = .ok r → P r
  scalar_quotient {a b r : Expr} : P a → P b → a.scalarQuotient b = .ok r → P r
  sqrt {e r : Expr} : P e → e.sqrt = .ok r → P r
  spatial_derivative {e r : Expr} {items : List IndexItem} : P e →
    e.spatialDerivative items = .ok r → P r

namespace Stable

variable {P : Expr → Prop} {a b e r : Expr} {supply after : Supply}

/-- Expressions made one by one have the property if each has. -/
theorem each {α : Type} {make : α → Except BuildError Expr} {places : List α} {made : List Expr}
    (kept : ∀ place ∈ places, ∀ e, make place = .ok e → P e) (run : places.mapM make = .ok made) :
    ∀ e ∈ made, P e := by
  intro e member
  obtain ⟨place, pair⟩ := partner_left (mapM_ok run).length_eq member
  exact kept place (List.of_mem_zip pair).1 e (List.forall₂_zip (mapM_ok run) pair)

variable [Folding] (stable : Stable P)

include stable

theorem zeros (shape : Shape) (free : FreeIndices) : P (zeros shape free) :=
  stable.constant rfl

theorem int (value : Int64) : P (int value) := by
  unfold Expr.int
  split <;> exact stable.constant rfl

theorem real (value : Binary64) : P (real value) := by
  unfold Expr.real
  split <;> exact stable.constant rfl

theorem index_sums {indices : List Index} (summand : P e) (run : e.indexSums indices = .ok r) :
    P r := by
  induction indices generalizing e with
  | nil =>
      cases run
      exact summand
  | cons index rest ih =>
      obtain ⟨once, first, others⟩ := index_sums_cons run
      exact ih (stable.index_sum summand first) others

theorem vector {entries : List Expr} (kept : ∀ o ∈ entries, P o) (run : vector entries = .ok r) :
    P r :=
  stable.list_tensor kept (vector_cases run).2

theorem matrix {rows : List (List Expr)} (kept : ∀ row ∈ rows, ∀ o ∈ row, P o)
    (run : matrix rows = .ok r) : P r := by
  obtain ⟨vectors, rows, list⟩ := (except_bind_ok _ _ _).mp run
  exact stable.list_tensor (each (fun row member _ => stable.vector (kept row member)) rows) list

theorem index {items : List IndexItem} (tensor : P e) (run : e.index items = .ok r) : P r := by
  unfold Expr.index at run
  simp only at run
  split at run
  · simp at run
  · obtain ⟨component, first, sums⟩ := (except_bind_ok _ _ _).mp run
    exact stable.index_sums (stable.subscript tensor first) sums

theorem component {position : Component} (tensor : P a) (run : a.component position = .ok r) : P r :=
  stable.subscript tensor run

theorem contracted_product (left : P a) (right : P b) (run : a.contractedProduct b = .ok r) : P r := by
  obtain ⟨product, first, sums⟩ := (except_bind_ok _ _ _).mp run
  exact stable.index_sums (stable.scalar_product left right first) sums

theorem scalar_neg (operand : P e) (run : e.scalarNeg = .ok r) : P r :=
  stable.contracted_product (stable.int (-1)) operand run

theorem scalar_sub (left : P a) (right : P b) (run : a.scalarSub b = .ok r) : P r := by
  obtain ⟨negated, first, sum⟩ := (except_bind_ok _ _ _).mp run
  exact stable.add left (stable.scalar_neg right first) sum

theorem scale (tensor : P a) (factor : P b) (run : a.scale b supply = .ok (r, after)) : P r := by
  simp only [Expr.scale, Fresh.bind_ok, Fresh.lift_ok] at run
  obtain ⟨indices, _, _, component, _, ⟨first, _⟩, product, _, ⟨second, _⟩, last, _⟩ := run
  exact stable.as_tensor (stable.contracted_product factor (stable.index tensor first) second) last

theorem contract (left : P a) (right : P b) (run : a.contract b supply = .ok (r, after)) : P r := by
  unfold Expr.contract at run
  cases shape : b.shape with
  | nil => simp [shape] at run
  | cons dim rest =>
      simp only [shape] at run
      split at run
      · simp at run
      · simp only [Fresh.bind_ok, Fresh.lift_ok] at run
        obtain ⟨rows, _, _, columns, _, _, inner, _, _, row, _, ⟨first, _⟩, column, _, ⟨second, _⟩,
          product, _, ⟨third, _⟩, last, _⟩ := run
        exact stable.as_tensor (stable.contracted_product (stable.index left first)
          (stable.index right second) third) last

theorem mul (left : P a) (right : P b) (run : a.mul b supply = .ok (r, after)) : P r := by
  unfold Expr.mul at run
  generalize a.rank = m, b.rank = n at run
  split at run
  · exact stable.contracted_product left right ((Fresh.lift_ok _ _).mp run).1
  · exact stable.scale right left run
  · exact stable.scale left right run
  · exact stable.contract left right run
  · exact stable.contract left right run
  · simp at run

theorem neg (operand : P a) (run : a.neg supply = .ok (r, after)) : P r :=
  stable.mul (stable.int (-1)) operand run

theorem sub (left : P a) (right : P b) (run : a.sub b supply = .ok (r, after)) : P r := by
  simp only [Expr.sub, Fresh.bind_ok, Fresh.lift_ok] at run
  obtain ⟨negated, _, first, sum, _⟩ := run
  exact stable.add left (stable.neg right first) sum

theorem divide (left : P a) (right : P b) (run : a.divide b supply = .ok (r, after)) : P r := by
  simp only [Expr.divide, Fresh.bind_ok, Fresh.lift_ok] at run
  obtain ⟨_, _, _, run⟩ := run
  split at run
  · exact stable.scalar_quotient left right ((Fresh.lift_ok _ _).mp run).1
  · simp only [Fresh.bind_ok, Fresh.lift_ok] at run
    obtain ⟨indices, _, _, component, _, ⟨first, _⟩, quotient, _, ⟨second, _⟩, last, _⟩ := run
    exact stable.as_tensor (stable.scalar_quotient (stable.index left first) right second) last

/-- What the constructor of an operator makes, if the property holds of the node of the operands. -/
theorem build {op : Operator} {operands : List Expr} (kept : ∀ o ∈ operands, P o)
    (assemble : op.Spreads operands → op.assemble operands = .ok r → P r)
    (run : op.build operands supply = .ok (r, after)) : P r := by
  -- The three products of tensors are written in components if one of the operands is a scalar.
  unfold Operator.build at run
  split at run
  · rename_i a b
    simp only [Expr.inner, Fresh.bind_ok, Fresh.lift_ok] at run
    obtain ⟨_, _, ⟨shape, _⟩, run⟩ := run
    split at run
    · exact stable.mul (kept _ (by simp)) (kept _ (by simp)) run
    · rename_i tensor
      rw [is_scalar_iff] at tensor
      rw [expect_same_shape_ok] at shape
      exact assemble (fun _ => operands_pair tensor (shape ▸ tensor)) ((Fresh.lift_ok _ _).mp run).1
  · unfold Expr.outer at run
    split at run
    · exact stable.mul (kept _ (by simp)) (kept _ (by simp)) run
    · rename_i tensors
      simp only [Bool.or_eq_true, is_scalar_iff, not_or] at tensors
      exact assemble (fun _ => operands_pair tensors.1 tensors.2) ((Fresh.lift_ok _ _).mp run).1
  · unfold Expr.dot at run
    split at run
    · exact stable.mul (kept _ (by simp)) (kept _ (by simp)) run
    · rename_i tensors
      simp only [Bool.or_eq_true, is_scalar_iff, not_or] at tensors
      exact assemble (fun _ => operands_pair tensors.1 tensors.2) ((Fresh.lift_ok _ _).mp run).1
  · rename_i inner outer dot
    have made := ((Fresh.lift_ok _ _).mp run).1
    refine assemble (fun product => ?_) made
    obtain ⟨a, b, rfl⟩ := product_operands product made
    simp only [List.mem_cons, List.not_mem_nil, or_false] at product
    rcases product with rfl | rfl | rfl
    · exact absurd rfl (inner a b rfl)
    · exact absurd rfl (outer a b rfl)
    · exact absurd rfl (dot a b rfl)

end Stable

end FormCalculus
