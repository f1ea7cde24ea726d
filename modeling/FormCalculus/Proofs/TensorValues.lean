import FormCalculus.Proofs.RingValues

/-!
Values of expressions in a field, where a quotient has the quotient of the values.
-/
set_option autoImplicit false

namespace FormCalculus

open Expr

/-- Values of the components of expressions, under assignments. -/
structure TensorValuation (K : Type) [Field K] where
  value : Expr → Assignment → Component → K
  real : Binary64 → K
  real_one : ∀ x : Binary64, x.isOne = true → real x = 1
  zero : ∀ shape free ρ c, value (zeros shape free) ρ c = 0
  int : ∀ k ρ c, value (.terminal (.int k)) ρ c = k.toInt
  double : ∀ x ρ c, value (.terminal (.real x)) ρ c = real x
  identity : ∀ dim ρ c, value (identity dim) ρ c = delta c
  sum : ∀ a b shape free ρ c, value (.node .sum [a, b] shape free) ρ c = value a ρ c + value b ρ c
  product : ∀ a b shape free ρ c,
    value (.node .product [a, b] shape free) ρ c = value a ρ c * value b ρ c
  division : ∀ a b shape free ρ c,
    value (.node .division [a, b] shape free) ρ c = value a ρ c / value b ρ c
  indexed : ∀ a items shape free ρ c, value (.node .indexed [a, multiIndex items] shape free) ρ c =
    value a ρ (items.map (IndexItem.position ρ))
  indexSum : ∀ a i shape free ρ c, value (.node .indexSum [a, multiIndex [.free i]] shape free) ρ c =
    ∑ position ∈ Finset.range ((a.free.dim? i).getD 0), value a (ρ.bind i position) c
  componentTensor : ∀ a (indices : List Index) shape free ρ c, c.length = indices.length →
    value (.node .componentTensor [a, multiIndex (indices.map .free)] shape free) ρ c =
      value a (ρ.bindAll (indices.zip c)) []
  listTensor : ∀ entries shape free ρ position c,
    value (.node .listTensor entries shape free) ρ (position :: c) =
      (entries[position]?.map fun e => value e ρ c).getD 0

namespace TensorValuation

variable {K : Type} [Field K] (v : TensorValuation K) {ρ : Assignment} {c : Component}

/-- The value of an expression depends on the positions of its free indices only. -/
def Steady : Prop := ∀ {e : Expr} {ρ ρ' : Assignment} {c : Component}, WellTyped e →
  Reading.AgreeOn e.free ρ ρ' → v.value e ρ c = v.value e ρ' c

/-- What is left without quotients. -/
@[reducible] def toRing : RingValuation K where
  value := v.value
  real := v.real
  real_one := v.real_one
  zero := v.zero
  int := v.int
  double := v.double
  identity dim ρ i j := v.identity dim ρ [i, j]
  sum := v.sum
  product := v.product
  indexed := v.indexed
  indexSum := v.indexSum
  componentTensor := v.componentTensor
  listTensor := v.listTensor

def constant : Constant → K
  | .zero => 0
  | .int value => value.toInt
  | .real value => v.real value

/-- What a field makes of two values; it has no powers. -/
def operate? : Constant.Operation → Option (K → K → K)
  | .addition => some (· + ·)
  | .multiplication => some (· * ·)
  | .division => some (· / ·)
  | .exponentiation => none

/-- Folding keeps values. -/
def Exact [Folding] : Prop := Folding.KeepsValues v.constant operate?

/-- The folds whose result has the value of the operation on the values, and no others. -/
@[reducible] noncomputable def exactFolding : Folding := .thatKeeps v.constant operate?

/-- Every fold that `run` performs is exact: to leave out those that are not changes nothing. -/
def FoldsExactly {α : Type} (run : Folding → α) : Prop := run v.exactFolding = run Folding.eager

theorem exact_folding_exact : @Exact K _ v v.exactFolding := Folding.that_keeps_values _ _

theorem ring_constant : v.toRing.constant = v.constant := by
  funext k
  cases k <;> rfl

/-- Folding that keeps the values in a field keeps those in the ring. -/
theorem Exact.ring {v : TensorValuation K} [Folding] (exact : v.Exact) : v.toRing.Exact := by
  intro op f a b r known folded
  have operates : operate? op = some f := by
    cases op <;> first | exact known | cases known
  rw [ring_constant]
  exact exact op f a b r operates folded

theorem value_scalar_quotient [Folding] (exact : v.Exact) {a b r : Expr}
    (run : a.scalarQuotient b = .ok r) :
    v.value r ρ c = v.value a ρ c / v.value b ρ c := by
  show v.toRing.value r ρ c = v.toRing.value a ρ c / v.toRing.value b ρ c
  obtain ⟨_, _, _, _, ⟨zero, rfl⟩ | folded | ⟨one, rfl⟩ | rfl⟩ := scalar_quotient_cases run
  · rw [v.toRing.value_of_is_zero zero, zero_div, v.toRing.zero]
  · obtain ⟨x, y, z, left, right, found, rfl⟩ := fold_some folded
    rw [v.toRing.value_to_expr, v.toRing.value_constant left, v.toRing.value_constant right,
      ring_constant]
    exact exact .division _ x y z rfl found
  · rw [v.toRing.value_of_is_one one, div_one]
  · exact v.division _ _ _ _ _ _

end TensorValuation

end FormCalculus
