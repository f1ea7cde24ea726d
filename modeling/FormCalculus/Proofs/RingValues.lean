import FormCalculus.Proofs.Expanding
import FormCalculus.Proofs.ReadingFree
import FormCalculus.Proofs.ScalarValues

/-!
Values of expressions in a commutative ring: of all their components, under assignments of positions
to indices, going with sums, products, subscripts, index sums, component tensors and list tensors.
Everything else, quotients, derivatives and labelled expressions among it, has any value. The
constructors keep values: what they return has the value of the node that was asked for.
-/
set_option autoImplicit false

namespace FormCalculus

open Expr

/-- Values of the components of expressions in a commutative ring, under assignments. -/
structure RingValuation (R : Type*) [CommRing R] where
  value : Expr → Assignment → Component → R
  real : Binary64 → R
  real_one : ∀ x : Binary64, x.isOne = true → real x = 1
  zero : ∀ shape free ρ c, value (zeros shape free) ρ c = 0
  int : ∀ k ρ c, value (.terminal (.int k)) ρ c = k.toInt
  double : ∀ x ρ c, value (.terminal (.real x)) ρ c = real x
  identity : ∀ dim ρ i j, value (identity dim) ρ [i, j] = if i = j then 1 else 0
  sum : ∀ a b shape free ρ c, value (.node .sum [a, b] shape free) ρ c = value a ρ c + value b ρ c
  product : ∀ a b shape free ρ c,
    value (.node .product [a, b] shape free) ρ c = value a ρ c * value b ρ c
  indexed : ∀ a items shape free ρ c, value (.node .indexed [a, multiIndex items] shape free) ρ c =
    value a ρ (items.map (IndexItem.position ρ))
  indexSum : ∀ a i shape free ρ c, value (.node .indexSum [a, multiIndex [.free i]] shape free) ρ c =
    ∑ position ∈ Finset.range ((a.free.dim? i).getD 0), value a (ρ.bind i position) c
  componentTensor : ∀ a (indices : List Index) shape free ρ c, c.length = indices.length →
    value (.node .componentTensor [a, multiIndex (indices.map .free)] shape free) ρ c =
      value a (ρ.bindAll (indices.zip c)) []
  listTensor : ∀ entries shape free ρ position c,
    value (.node .listTensor entries shape free) ρ (position :: c) =
      (entries[position]?.map fun e => value e ρ c).getD 0

namespace RingValuation

variable {R : Type*} [CommRing R] (v : RingValuation R) {ρ ρ' : Assignment} {c : Component}

/-- The value of an expression depends on the positions of its free indices only. -/
def Steady : Prop := ∀ {e : Expr} {ρ ρ' : Assignment} {c : Component}, WellTyped e →
  Reading.AgreeOn e.free ρ ρ' → v.value e ρ c = v.value e ρ' c

/-- What scalars are under an assignment. -/
def scalars (ρ : Assignment) : Valuation R where
  atom e := v.value e ρ []
  real := v.real
  real_one := v.real_one

theorem scalars_value (e : Expr) : (v.scalars ρ).value e = v.value e ρ [] := by
  induction e with
  | terminal data =>
      cases data with
      | zero => exact (v.zero _ _ _ _).symm
      | int => exact (v.int _ _ _).symm
      | real => exact (v.double _ _ _).symm
      | _ => rfl
  | labelled => rfl
  | node op operands shape free ih =>
      unfold Valuation.value
      split
      case h_4 same => 
        cases same
        rw [ih _ (by simp), ih _ (by simp), v.sum]
      case h_5 same => 
        cases same
        rw [ih _ (by simp), ih _ (by simp), v.product]
      case h_6 => rfl
      all_goals cases ‹_›

def constant : Constant → R
  | .zero => 0
  | .int value => value.toInt
  | .real value => v.real value

/-- Folding keeps values. -/
def Exact [Folding] : Prop := Folding.KeepsValues v.constant Valuation.operate?

/-- The folds whose result has the value of the sum or the product of the values, and no others. -/
@[reducible] noncomputable def exactFolding : Folding := .thatKeeps v.constant Valuation.operate?

/-- Every fold that `run` performs is exact: to leave out those that are not changes nothing. -/
def FoldsExactly {α : Type} (run : Folding → α) : Prop := run v.exactFolding = run Folding.eager

theorem exact_folding_exact : @Exact R _ v v.exactFolding := Folding.that_keeps_values _ _

theorem scalars_exact [Folding] (exact : v.Exact) (ρ : Assignment) : (v.scalars ρ).Exact := by
  have same : (v.scalars ρ).constant = v.constant := by
    funext k
    cases k <;> rfl
  unfold Valuation.Exact
  rw [same]
  exact exact

theorem value_of_is_zero {e : Expr} (zero : e.isZero = true) : v.value e ρ c = 0 := by
  obtain ⟨shape, free, rfl⟩ := is_zero_iff.mp zero
  exact v.zero _ _ _ _

theorem value_to_expr (k : Constant) : v.value k.toExpr ρ c = v.constant k := by
  cases k with
  | zero => exact v.zero _ _ _ _
  | int value => exact v.int _ _ _
  | real value => exact v.double _ _ _

theorem value_constant {e : Expr} {k : Constant} (known : e.constant? = some k) :
    v.value e ρ c = v.constant k := by
  unfold constant? at known
  split at known <;> cases known
  · exact v.zero _ _ _ _
  · exact v.int _ _ _
  · exact v.double _ _ _

theorem value_int (k : Int64) : v.value (Expr.int k) ρ c = (k.toInt : R) := by
  unfold Expr.int
  split
  · rename_i zero
    subst zero
    exact (v.zero _ _ _ _).trans Int.cast_zero.symm
  · exact v.int _ _ _

theorem value_of_is_one {e : Expr} (one : e.isOne = true) : v.value e ρ c = 1 := by
  unfold isOne at one
  cases known : e.constant? with
  | none => simp [known] at one
  | some k =>
      rw [v.value_constant known]
      simp only [known, Option.any_some] at one
      cases k with
      | zero => cases one
      | int value =>
          have same : value = 1 := by simpa [Constant.isOne] using one
          subst same
          exact Int.cast_one
      | real value => exact v.real_one value one

section Arithmetic

variable [Folding] (exact : v.Exact) {a b r : Expr}

include exact

theorem value_fold {op : Constant.Operation} {f : R → R → R} (known : Valuation.operate? op = some f)
    (folded : fold? op a b = some r) : v.value r ρ c = f (v.value a ρ c) (v.value b ρ c) := by
  obtain ⟨x, y, z, left, right, found, rfl⟩ := fold_some folded
  rw [v.value_to_expr, v.value_constant left, v.value_constant right, exact op f x y z known found]

theorem value_add (run : a.add b = .ok r) : v.value r ρ c = v.value a ρ c + v.value b ρ c := by
  obtain ⟨_, _, ⟨zero, rfl⟩ | ⟨zero, rfl⟩ | folded | rfl⟩ := add_cases run
  · rw [v.value_of_is_zero zero, zero_add]
  · rw [v.value_of_is_zero zero, add_zero]
  · exact v.value_fold exact rfl folded
  · obtain order | order := sorted_pair_cases a b <;> rw [order, v.sum]
    exact add_comm _ _

theorem value_scalar_product (run : a.scalarProduct b = .ok r) :
    v.value r ρ c = v.value a ρ c * v.value b ρ c := by
  obtain ⟨_, _, _, _, ⟨zero | zero, rfl⟩ | folded | ⟨one, rfl⟩ | ⟨one, rfl⟩ | rfl⟩ :=
    scalar_product_cases run
  · rw [v.value_of_is_zero zero, zero_mul, v.zero]
  · rw [v.value_of_is_zero zero, mul_zero, v.zero]
  · exact v.value_fold exact rfl folded
  · rw [v.value_of_is_one one, one_mul]
  · rw [v.value_of_is_one one, mul_one]
  · obtain order | order := sorted_pair_cases a b <;> rw [order, v.product]
    exact mul_comm _ _

end Arithmetic

theorem value_subscripted {e r : Expr} {items : List IndexItem} (made : Subscripted e items r) :
    v.value r ρ [] = v.value e ρ (items.map (IndexItem.position ρ)) := by
  induction made with
  | whole => rfl
  | zero => rw [v.zero, v.zero]
  | @identity dim row column _ _ =>
      rw [v.value_int]
      refine Eq.trans ?_ (v.identity dim ρ row column).symm
      by_cases same : row = column
      · rw [if_pos same, if_pos same]
        exact Int.cast_one
      · rw [if_neg same, if_neg same]
        exact Int.cast_zero
  | @entry entries shape free position items entry r found _ ih =>
      rw [ih, List.map_cons, v.listTensor, IndexItem.position, found]
      rfl
  | node => exact v.indexed _ _ _ _ _ _

theorem value_subscript {e r : Expr} {items : List IndexItem} (run : e.subscript items = .ok r) :
    v.value r ρ [] = v.value e ρ (items.map (IndexItem.position ρ)) :=
  v.value_subscripted (subscript_cases run)

theorem value_index_sum {e r : Expr} {index : Index} (run : e.indexSum index = .ok r) :
    v.value r ρ c =
      ∑ position ∈ Finset.range ((e.free.dim? index).getD 0), v.value e (ρ.bind index position) c := by
  obtain ⟨_, _, ⟨zero, rfl⟩ | rfl⟩ := index_sum_cases run
  · simp [v.value_of_is_zero zero, v.zero]
  · exact v.indexSum _ _ _ _ _ _

/-- A component of the tensor over indices is the scalar with them at the component, if none of them is
free in a tensor of which the scalar is the component along just these. -/
theorem value_as_tensor {e r : Expr} {indices : List Index} (steady : v.Steady) (typed : WellTyped e)
    (fair : ∀ tensor shape free,
      e = .node .indexed [tensor, multiIndex (indices.map .free)] shape free →
        ∀ i ∈ indices, ¬ tensor.free.contains i = true)
    (length : c.length = indices.length) (run : e.asTensor indices = .ok r) :
    v.value r ρ c = v.value e (ρ.bindAll (indices.zip c)) [] := by
  obtain ⟨rfl, rfl⟩ | ⟨_, _, shape, free, binds, made⟩ := as_tensor_cases run
  · rw [List.eq_nil_of_length_eq_zero length]
    rfl
  obtain ⟨zero, rfl⟩ | ⟨_, _, rfl⟩ | rfl := made
  · rw [v.zero, v.value_of_is_zero zero]
  · -- The tensor comes back. Where none of the indices is free in it, binding them changes nothing.
    have positions : (indices.map IndexItem.free).map
        (IndexItem.position (ρ.bindAll (indices.zip c))) = c := by
      rw [List.map_map]
      exact Assignment.bind_all_zip binds.distinct length.symm
    rw [v.indexed, positions]
    refine steady (typed.operand List.mem_cons_self) fun i known => ?_
    exact (Assignment.bind_all_zip_other fun inside => fair _ _ _ rfl i inside known).symm
  · rw [v.componentTensor _ _ _ _ _ _ length]

theorem value_list_tensor {entries : List Expr} {r : Expr} {position : Nat} {rest : Component}
    (run : Expr.listTensor entries = .ok r) :
    v.value r ρ (position :: rest) =
      (entries[position]?.map fun e => v.value e ρ rest).getD 0 := by
  obtain ⟨shape, free, _, _, ⟨zero, rfl⟩ | rfl⟩ := list_tensor_cases run
  · rw [v.zero]
    cases found : entries[position]? with
    | none => rfl
    | some e => exact (v.value_of_is_zero (zero e (List.mem_of_getElem? found))).symm
  · exact v.listTensor _ _ _ _ _ _

end RingValuation

end FormCalculus
