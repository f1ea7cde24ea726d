import FormCalculus.Proofs.TensorValues

/-!
A reading gives values to the components of expressions on either side, so the constructors keep the values that a reading gives: what they
return has the value of the node that was asked for.
-/
set_option autoImplicit false

namespace FormCalculus.Reading

open Expr

variable {K : Type} [Field K] (M : Reading K) {s : Option Side} {ρ : Assignment} {c : Component}

/-- What a reading says of the expressions on a side. -/
noncomputable def valuation (s : Option Side) : TensorValuation K where
  value e := M.value e s
  real := M.real
  real_one := M.real_one
  zero _ _ _ _ := rfl
  int _ _ _ := rfl
  double _ _ _ := rfl
  identity _ _ _ := rfl
  sum _ _ _ _ _ _ := rfl
  product _ _ _ _ _ _ := rfl
  division _ _ _ _ _ _ := rfl
  indexed _ _ _ _ _ _ := rfl
  indexSum _ _ _ _ _ _ := rfl
  componentTensor _ _ _ _ _ _ length := M.value_component_tensor length
  listTensor _ _ _ _ _ _ := by simp [Operator.denote, Function.comp_def]

theorem valuation_steady {M : Reading K} (rigid : M.Rigid) (s : Option Side) :
    (M.valuation s).Steady :=
  fun typed agree => value_congr rigid typed agree

theorem valuation_constant (s : Option Side) : (M.valuation s).constant = M.constant := by
  funext k
  cases k <;> rfl

theorem valuation_exact [Folding] (exact : M.Exact) (s : Option Side) :
    (M.valuation s).Exact := by
  intro op f a b r known folded
  rw [valuation_constant]
  have same : f = M.operate op := by
    cases op <;> first | exact (Option.some.inj known).symm | cases known
  rw [same]
  exact exact.fold op a b r folded

theorem value_of_is_zero {e : Expr} (zero : e.isZero = true) : M.value e s ρ c = 0 :=
  (M.valuation s).toRing.value_of_is_zero zero

theorem value_to_expr (k : Constant) : M.value k.toExpr s ρ c = M.constant k := by
  cases k <;> rfl

theorem value_constant {e : Expr} {k : Constant} (known : e.constant? = some k) :
    M.value e s ρ c = M.constant k := by
  rw [← M.valuation_constant s, ← TensorValuation.ring_constant]
  exact (M.valuation s).toRing.value_constant known

theorem value_int (value : Int64) : M.value (int value) s ρ c = (value.toInt : K) :=
  (M.valuation s).toRing.value_int value

theorem value_of_is_one {e : Expr} (one : e.isOne = true) : M.value e s ρ c = 1 :=
  (M.valuation s).toRing.value_of_is_one one

section Arithmetic

variable [Folding] (exact : M.Exact) {a b e r : Expr}

include exact

theorem value_fold {op : Constant.Operation} (folded : fold? op a b = some r) :
    M.value r s ρ c = M.operate op (M.value a s ρ c) (M.value b s ρ c) := by
  obtain ⟨x, y, z, left, right, found, rfl⟩ := fold_some folded
  rw [M.value_to_expr, M.value_constant left, M.value_constant right, exact.fold op x y z found]

theorem value_add (run : a.add b = .ok r) : M.value r s ρ c = M.value a s ρ c + M.value b s ρ c :=
  (M.valuation s).toRing.value_add (M.valuation_exact exact s).ring run

theorem value_scalar_product (run : a.scalarProduct b = .ok r) :
    M.value r s ρ c = M.value a s ρ c * M.value b s ρ c :=
  (M.valuation s).toRing.value_scalar_product (M.valuation_exact exact s).ring run

theorem value_scalar_quotient (run : a.scalarQuotient b = .ok r) :
    M.value r s ρ c = M.value a s ρ c / M.value b s ρ c :=
  (M.valuation s).value_scalar_quotient (M.valuation_exact exact s) run

theorem value_pow (run : a.pow b = .ok r) :
    M.value r s ρ c = M.pow (M.value a s ρ c) (M.value b s ρ c) := by
  obtain ⟨_, _, _, ⟨one, rfl⟩ | folded | rfl⟩ := pow_cases run
  · rw [M.value_of_is_one one, M.pow_one]
  · exact M.value_fold exact folded
  · rfl

theorem value_sqrt (run : e.sqrt = .ok r) : M.value r s ρ c = M.sqrt (M.value e s ρ c) := by
  obtain ⟨_, ⟨zero, rfl⟩ | folded | rfl⟩ := sqrt_cases run
  · rw [M.value_of_is_zero zero, M.sqrt_zero]
  · obtain ⟨x, z, known, found, rfl⟩ := fold_root_some folded
    rw [M.value_to_expr, M.value_constant known, exact.root x z found]
  · rfl

end Arithmetic

section Indexing

theorem value_subscripted {e r : Expr} {items : List IndexItem} (made : Subscripted e items r) :
    M.value r s ρ [] = M.value e s ρ (items.map (IndexItem.position ρ)) :=
  (M.valuation s).toRing.value_subscripted made

theorem value_subscript {e r : Expr} {items : List IndexItem} (run : e.subscript items = .ok r) :
    M.value r s ρ [] = M.value e s ρ (items.map (IndexItem.position ρ)) :=
  M.value_subscripted (subscript_cases run)

theorem value_component {e r : Expr} {position : Component} (run : e.component position = .ok r) :
    M.value r s ρ [] = M.value e s ρ position := by
  rw [M.value_subscript run, List.map_map]
  congr 1
  exact List.map_id position

theorem value_list_tensor {entries : List Expr} {r : Expr} {position : Nat} {rest : Component}
    (run : listTensor entries = .ok r) :
    M.value r s ρ (position :: rest) =
      (entries[position]?.map fun e => M.value e s ρ rest).getD 0 :=
  (M.valuation s).toRing.value_list_tensor run

end Indexing

end FormCalculus.Reading
