import FormCalculus.Proofs.Making
import FormCalculus.Proofs.Occurring

/-!
Rebuilding a node from other operands of the types that its own have. Every simplification but
two returns an expression of the type of the node.
-/
set_option autoImplicit false

namespace FormCalculus

open Expr

theorem Subscribes.unique {tensor free free' : FreeIndices} {items : List IndexItem} {shape : Shape}
    (first : Subscribes tensor items shape free) (second : Subscribes tensor items shape free') :
    free = free' :=
  FreeIndices.ext_dim fun i d => (first.dims i d).trans (second.dims i d).symm

theorem Binds.unique {scalar free free' : FreeIndices} {indices : List Index} {shape shape' : Shape}
    (first : Binds scalar indices shape free) (second : Binds scalar indices shape' free') :
    shape = shape' ∧ free = free' := by
  have same := (first.runs (e := default)).symm.trans second.runs
  simpa using same

/-- Binding the indices that a tensor was subscripted by gives its shape back, and its free
indices if none of them was free in it before. -/
theorem Binds.subscripts {tensor middle free : FreeIndices} {indices : List Index}
    {shape shape' : Shape} (subscribes : Subscribes tensor (indices.map .free) shape middle)
    (binds : Binds middle indices shape' free) (other : ∀ i ∈ indices, tensor.dim? i = none) :
    shape = shape' ∧ tensor = free := by
  have length : indices.length = shape.length := by simpa using subscribes.length
  have item (i : Index) (d : Nat) :
      (IndexItem.free i, d) ∈ (indices.map IndexItem.free).zip shape ↔ (i, d) ∈ indices.zip shape := by
    simp [List.zip_map_left]
  refine Binds.unique ⟨length, binds.distinct, fun i d member => ?_, fun i d => ?_⟩ binds
  · exact (subscribes.dims i d).mpr (.inr ((item i d).mpr member))
  · rw [subscribes.dims, item]
    constructor
    · intro found
      refine ⟨fun member => ?_, .inl found⟩
      rw [other i member] at found
      cases found
    · rintro ⟨absent, found | member⟩
      · exact found
      · exact absurd (List.of_mem_zip member).1 absent

namespace Expr

variable {a b e r : Expr}

/-! The types of constants. -/

@[simp] theorem folded_shape (c : Constant) : c.toExpr.shape = [] := by
  cases c <;> rfl

@[simp] theorem folded_free (c : Constant) : c.toExpr.free = ∅ := by
  cases c <;> rfl

theorem constant_shape {c : Constant} (known : e.constant? = some c) : e.shape = [] := by
  unfold constant? at known
  split at known <;> first | rfl | cases known

/-- Zero is the only constant that can have free indices. -/
theorem constant_free {c : Constant} (known : e.constant? = some c) (nonzero : e.isZero = false) :
    e.free = ∅ := by
  unfold constant? at known
  split at known
  · cases nonzero
  · rfl
  · rfl
  · cases known

theorem fold_type [Folding] {op : Constant.Operation} (folded : fold? op a b = some r)
    (left : a.isZero = false) (right : b.isZero = false) :
    (a.shape = [] ∧ a.free = ∅) ∧ (b.shape = [] ∧ b.free = ∅) ∧ r.shape = [] ∧ r.free = ∅ := by
  obtain ⟨x, y, z, first, second, _, rfl⟩ := fold_some folded
  exact ⟨⟨constant_shape first, constant_free first left⟩,
    ⟨constant_shape second, constant_free second right⟩, folded_shape z, folded_free z⟩

theorem one_free (one : e.isOne = true) : e.free = ∅ := by
  cases known : e.constant? with
  | none => simp [isOne, known] at one
  | some c =>
      refine constant_free known ?_
      cases zero : e.isZero with
      | false => rfl
      | true =>
          -- The constant zero is not one.
          obtain ⟨shape, free, rfl⟩ := is_zero_iff.mp zero
          have scalar : shape = [] := constant_shape known
          subst scalar
          cases one

/-! The type of what each constructor returns, whatever it simplifies. -/

theorem add_type (run : a.add b = .ok r) : r.shape = a.shape ∧ r.free = a.free := by
  simp only [add, except_bind_ok, expect_same_shape_ok, expect_same_free_ok] at run
  obtain ⟨_, shape, _, free, run⟩ := run
  split at run
  · cases (except_pure_ok _ _).mp run
    exact ⟨shape.symm, free.symm⟩
  split at run
  · cases (except_pure_ok _ _).mp run
    exact ⟨rfl, rfl⟩
  split at run
  · rename_i left right _ _ folded
    obtain ⟨⟨shape, free⟩, _, shape', free'⟩ :=
      fold_type folded (eq_false_of_ne_true left) (eq_false_of_ne_true right)
    cases (except_pure_ok _ _).mp run
    exact ⟨shape'.trans shape.symm, free'.trans free.symm⟩
  · cases (except_pure_ok _ _).mp run
    exact ⟨rfl, rfl⟩

theorem union_of_left_empty {free : FreeIndices} (union : free.IsUnion a.free b.free)
    (empty : a.free = ∅) : b.free = free := by
  rw [empty] at union
  exact (FreeIndices.is_union_empty b.free).unique union

theorem scalar_product_type [Folding] (run : a.scalarProduct b = .ok r) :
    r.shape = [] ∧ r.free.IsUnion a.free b.free := by
  simp only [scalarProduct, except_bind_ok, expect_scalar_ok] at run
  obtain ⟨_, left, _, right, free, joined, run⟩ := run
  have union := FreeIndices.join_ok joined
  split at run
  · cases (except_pure_ok _ _).mp run
    exact ⟨rfl, union⟩
  rename_i nonzero
  simp only [Bool.or_eq_true, not_or, Bool.not_eq_true] at nonzero
  split at run
  · cases (except_pure_ok _ _).mp run
    obtain ⟨⟨_, none⟩, ⟨_, none'⟩, shape, free⟩ := fold_type ‹_› nonzero.1 nonzero.2
    rw [none, none', free]
    exact ⟨shape, FreeIndices.is_union_empty ∅⟩
  split at run
  · cases (except_pure_ok _ _).mp run
    exact ⟨right, union_of_left_empty union (one_free ‹_›) ▸ union⟩
  split at run
  · cases (except_pure_ok _ _).mp run
    exact ⟨left, union_of_left_empty union.symm (one_free ‹_›) ▸ union⟩
  · cases (except_pure_ok _ _).mp run
    exact ⟨rfl, union⟩

theorem scalar_quotient_type (run : a.scalarQuotient b = .ok r) :
    r.shape = [] ∧ r.free.IsUnion a.free b.free := by
  simp only [scalarQuotient, except_bind_ok, expect_scalar_ok] at run
  obtain ⟨_, left, _, _, run⟩ := run
  obtain ⟨divisor, run⟩ := except_if_ok (by simp) run
  simp only [except_bind_ok] at run
  obtain ⟨free, joined, run⟩ := run
  have union := FreeIndices.join_ok joined
  split at run
  · cases (except_pure_ok _ _).mp run
    exact ⟨rfl, union⟩
  rename_i dividend
  split at run
  · cases (except_pure_ok _ _).mp run
    obtain ⟨⟨_, none⟩, ⟨_, none'⟩, shape, free⟩ :=
      fold_type ‹_› (eq_false_of_ne_true dividend) (eq_false_of_ne_true divisor)
    rw [none, none', free]
    exact ⟨shape, FreeIndices.is_union_empty ∅⟩
  split at run
  · cases (except_pure_ok _ _).mp run
    exact ⟨left, union_of_left_empty union.symm (one_free ‹_›) ▸ union⟩
  · cases (except_pure_ok _ _).mp run
    exact ⟨rfl, union⟩

theorem sqrt_type (run : a.sqrt = .ok r) : r.shape = [] ∧ r.free = a.free := by
  simp only [sqrt, except_bind_ok, expect_scalar_ok] at run
  obtain ⟨_, scalar, run⟩ := run
  split at run
  · cases (except_pure_ok _ _).mp run
    exact ⟨scalar, rfl⟩
  rename_i nonzero
  split at run
  · rename_i folded
    obtain ⟨x, z, known, _, rfl⟩ := fold_root_some folded
    cases (except_pure_ok _ _).mp run
    exact ⟨folded_shape z, (folded_free z).trans (constant_free known (eq_false_of_ne_true nonzero)).symm⟩
  · cases (except_pure_ok _ _).mp run
    exact ⟨rfl, rfl⟩

theorem subscript_type {items : List IndexItem} (typed : WellTyped e)
    (run : e.subscript items = .ok r) : r.shape = [] ∧ Subscribes e.free items e.shape r.free := by
  have made := subscript_cases run
  clear run
  induction made with
  | whole scalar =>
      rw [scalar]
      exact ⟨rfl, rfl, nofun, by simp⟩
  | zero subscribes => exact ⟨rfl, subscribes⟩
  | @identity dim row column inside inside' =>
      have closed : (int (if row = column then 1 else 0)).free = ∅ := by
        unfold int
        split <;> rfl
      have scalar : (int (if row = column then 1 else 0)).shape = [] := by
        unfold int
        split <;> rfl
      refine ⟨scalar, rfl, fun position d member => ?_, fun i d => ?_⟩
      · simp only [identity, shape, Terminal.shape, List.zip_cons_cons, List.zip_nil_left,
          List.mem_cons, Prod.mk.injEq, IndexItem.fixed.injEq, List.not_mem_nil, or_false] at member
        omega
      · simp [closed, identity, free, shape, Terminal.free, Terminal.shape]
  | @entry entries _ _ position items entry r found _ ih =>
      have member := List.mem_of_getElem? found
      have small : position < entries.length := (List.getElem?_eq_some_iff.mp found).1
      cases typed with
      | node types operands =>
          cases types with
          | listTensor _ same =>
              obtain ⟨shape, free⟩ := same entry member
              obtain ⟨scalar, length, within, dims⟩ := ih (operands entry member)
              rw [shape, free] at *
              refine ⟨scalar, congrArg Nat.succ length, fun p d member => ?_, fun i d => ?_⟩
              · rcases List.mem_cons.mp member with same | member
                · cases same
                  exact small
                · exact within p d member
              · rw [dims]
                simp [Expr.shape, Expr.free]
  | node _ subscribes => exact ⟨rfl, subscribes⟩

theorem index_sum_type {index : Index} (run : e.indexSum index = .ok r) :
    r.shape = [] ∧ r.free = e.free.erase index := by
  obtain ⟨_, _, ⟨_, rfl⟩ | rfl⟩ := index_sum_cases run
  · exact ⟨rfl, rfl⟩
  · exact ⟨rfl, rfl⟩

theorem index_sums_type {indices : List Index} (scalar : e.shape = [])
    (run : e.indexSums indices = .ok r) :
    r.shape = [] ∧ ∀ i d, r.free.dim? i = some d ↔ i ∉ indices ∧ e.free.dim? i = some d := by
  induction indices generalizing e with
  | nil =>
      cases run
      exact ⟨scalar, by simp⟩
  | cons index rest ih =>
      obtain ⟨once, first, others⟩ := index_sums_cons run
      obtain ⟨scalar, free⟩ := index_sum_type first
      obtain ⟨scalar, dims⟩ := ih scalar others
      refine ⟨scalar, fun i d => ?_⟩
      rw [dims, free, FreeIndices.erase_dim, List.mem_cons, not_or]
      exact and_assoc.symm.trans (and_congr_left' and_comm)

theorem grad_type (run : e.grad = .ok r) :
    ∃ gdim, e.geometricDimension = .ok gdim ∧ r.shape = e.shape ++ [gdim] ∧ r.free = e.free := by
  obtain ⟨gdim, known, ⟨_, rfl⟩ | ⟨_, rfl⟩⟩ := grad_cases run
  · exact ⟨gdim, known, rfl, rfl⟩
  · exact ⟨gdim, known, rfl, rfl⟩

theorem div_type (run : e.div = .ok r) : r.shape = e.shape.dropLast ∧ r.free = e.free := by
  obtain ⟨_, rfl | rfl⟩ := div_cases run
  · exact ⟨rfl, rfl⟩
  · exact ⟨rfl, rfl⟩

theorem spatial_derivative_type {items : List IndexItem} (some : items ≠ [])
    (run : e.spatialDerivative items = .ok r) :
    ∃ gdim, e.geometricDimension = .ok gdim ∧ r.shape = e.shape ∧
      Subscribes e.free items (items.map fun _ => gdim) r.free := by
  obtain ⟨none, _⟩ | ⟨_, gdim, free, known, subscribes, rfl⟩ := spatial_derivative_cases run
  · exact absurd none some
  · exact ⟨gdim, known, rfl, subscribes⟩

theorem binary_type {op : Operator} {made : Construction} {shape : Shape}
    (run : binary op made a b shape = .ok r) : r.shape = shape ∧ r.free.IsUnion a.free b.free := by
  obtain ⟨free, _, union, rfl | rfl⟩ := binary_cases run
  · exact ⟨rfl, union⟩
  · exact ⟨rfl, union⟩

/-- The power of an indexed zero by a constant other than one is a number, without indices; every
other power keeps those of the base. -/
theorem pow_type (run : a.pow b = .ok r) :
    r.shape = [] ∧ (r.free = a.free ↔
      ¬ (a.isZero = true ∧ a.free ≠ ∅ ∧ b.constant? ≠ none ∧ b.isOne = false)) := by
  simp only [pow, except_bind_ok, expect_scalar_ok] at run
  obtain ⟨_, left, _, right, run⟩ := run
  obtain ⟨_, run⟩ := except_if_ok (by simp) run
  split at run
  · rename_i one
    cases (except_pure_ok _ _).mp run
    exact ⟨left, by simp [one]⟩
  rename_i notOne
  split at run
  · rename_i folded
    obtain ⟨x, y, z, known, known', _, rfl⟩ := fold_some folded
    cases (except_pure_ok _ _).mp run
    refine ⟨folded_shape z, ?_⟩
    rw [folded_free]
    cases zero : a.isZero with
    | false => simp [constant_free known zero]
    | true => simp [known', eq_false_of_ne_true notOne, eq_comm]
  · rename_i unfolded
    cases (except_pure_ok _ _).mp run
    refine ⟨rfl, ?_⟩
    -- Constants fold, so one of the two is none.
    rcases fold_none_iff.mp unfolded with plain | plain
    · have nonzero : a.isZero = false := by
        cases zero : a.isZero with
        | false => rfl
        | true =>
            obtain ⟨shape, free, rfl⟩ := is_zero_iff.mp zero
            have scalar : shape = [] := left
            subst scalar
            cases plain
      simp [nonzero, Expr.free]
    · simp [plain, Expr.free]

/-- Binding indices gives the scalar its type, unless they were subscripts of a tensor in which
one of them is free besides. -/
theorem as_tensor_type {indices : List Index} (some : indices ≠ []) (typed : WellTyped e)
    (run : e.asTensor indices = .ok r) :
    ∃ shape free, Binds e.free indices shape free ∧ ((r.shape = shape ∧ r.free = free) ↔
      ¬ ∃ tensor shape free, e = .node .indexed [tensor, multiIndex (indices.map .free)] shape free ∧
        ∃ i ∈ indices, tensor.free.contains i = true) := by
  obtain ⟨none, _⟩ | ⟨_, _, shape, free, binds, result⟩ := as_tensor_cases run
  · exact absurd none some
  refine ⟨shape, free, binds, ?_⟩
  rcases result with ⟨zero, rfl⟩ | ⟨_, middle, rfl⟩ | rfl
  · obtain ⟨_, _, rfl⟩ := is_zero_iff.mp zero
    exact ⟨fun _ => nofun, fun _ => ⟨rfl, rfl⟩⟩
  · cases typed with
    | node types _ =>
        have subscribes : Subscribes r.free (indices.map .free) r.shape middle := by
          cases types with
          | indexed _ subscribes => exact subscribes
        constructor
        · rintro ⟨_, rfl⟩ ⟨_, _, _, same, i, member, inside⟩
          cases same
          obtain ⟨d, found⟩ := FreeIndices.contains_iff.mp inside
          exact ((binds.dims i d).mp found).1 member
        · intro other
          have absent : ∀ i ∈ indices, r.free.dim? i = none := fun i member =>
            FreeIndices.not_contains_iff.mp fun inside => other ⟨r, _, _, rfl, i, member, inside⟩
          exact Binds.subscripts subscribes binds absent
  · have stays := (as_tensor_stays run).2.2
    refine ⟨fun _ => ?_, fun _ => ⟨rfl, rfl⟩⟩
    rintro ⟨tensor, _, _, same, _⟩
    exact stays _ _ _ same

/-- What `v` has to share with an operand `x` to take its place. -/
structure Replaces (x v : Expr) : Prop where
  shape : v.shape = x.shape
  free : v.free = x.free
  items : x.kind = .multiIndex → v = x
  domain : ∀ m n, x.geometricDimension = .ok m → v.geometricDimension = .ok n → m = n

/-- `v` has the type of `x`, and is `x` if that is a multi-index. -/
structure Fills (x v : Expr) : Prop where
  shape : v.shape = x.shape
  free : v.free = x.free
  items : x.kind = .multiIndex → v = x

theorem Fills.multi_index {items : List IndexItem} {v : Expr}
    (fills : Fills (multiIndex items) v) : v = multiIndex items :=
  fills.items rfl

theorem Replaces.fills {x v : Expr} (replaces : Replaces x v) : Fills x v :=
  ⟨replaces.shape, replaces.free, replaces.items⟩

end Expr

namespace Operator

/-- A power of a zero with free indices folds to a number. -/
def DropsIndices : Operator → List Expr → Prop
  | .power, [base, exponent] => base.isZero = true ∧ base.free ≠ ∅ ∧ exponent.constant? ≠ none ∧
      exponent.isOne = false
  | _, _ => False

/-- A tensor subscripted by an index that is free in it takes the place of its components along
that index. -/
def BaresIndices : Operator → List Expr → Prop
  | .componentTensor, [scalar, ii] => ∃ tensor shape free items,
      scalar = .node .indexed [tensor, ii] shape free ∧ ii = multiIndex items ∧
        ∃ i, .free i ∈ items ∧ tensor.free.contains i = true
  | _, _ => False

variable {op : Operator} {xs vs : List Expr} {shape : Shape} {free : FreeIndices} {y : Expr}

theorem assemble_filled (types : op.Types xs shape free) (lives : op.Lives xs shape free)
    (replaced : List.Forall₂ Fills xs vs)
    (domain : op = .grad ∨ (op = .spatialDerivative ∧
      ∃ f items i, xs = [f, multiIndex items] ∧ .free i ∈ items) →
        ∀ x v, (x, v) ∈ xs.zip vs → ∀ m n, x.geometricDimension = .ok m →
          v.geometricDimension = .ok n → m = n)
    (typed : ∀ v ∈ vs, WellTyped v) (run : op.assemble vs = .ok y) :
    (y.shape = shape ∧ y.free = free) ↔ ¬ op.DropsIndices vs ∧ ¬ op.BaresIndices vs := by
  have kept (same : y.shape = shape ∧ y.free = free) (drops : ¬ op.DropsIndices vs)
      (bares : ¬ op.BaresIndices vs) :
      (y.shape = shape ∧ y.free = free) ↔ ¬ op.DropsIndices vs ∧ ¬ op.BaresIndices vs :=
    iff_of_true same ⟨drops, bares⟩
  cases types with
  | sum =>
      obtain ⟨v, w, rfl, left, right⟩ := pairs_two replaced
      obtain ⟨shape, free⟩ := add_type run
      exact kept ⟨shape.trans left.shape, free.trans left.free⟩ id id
  | product _ _ union =>
      obtain ⟨v, w, rfl, left, right⟩ := pairs_two replaced
      obtain ⟨shape, union'⟩ := scalar_product_type run
      rw [left.free, right.free] at union'
      exact kept ⟨shape, union'.unique union⟩ id id
  | division _ _ union =>
      obtain ⟨v, w, rfl, left, right⟩ := pairs_two replaced
      obtain ⟨shape, union'⟩ := scalar_quotient_type run
      rw [left.free, right.free] at union'
      exact kept ⟨shape, union'.unique union⟩ id id
  | power =>
      obtain ⟨v, w, rfl, base, exponent⟩ := pairs_two replaced
      obtain ⟨shape, free⟩ := pow_type run
      rw [← base.free, free]
      simp [DropsIndices, BaresIndices, shape]
  | sqrt =>
      obtain ⟨v, rfl, operand⟩ := pairs_one replaced
      obtain ⟨shape, free⟩ := sqrt_type run
      exact kept ⟨shape, free.trans operand.free⟩ id id
  | indexed some subscribes =>
      obtain ⟨v, ii, rfl, tensor, items⟩ := pairs_two replaced
      obtain rfl := items.multi_index
      obtain ⟨shape, subscribes'⟩ := subscript_type (typed v (by simp)) run
      rw [tensor.shape, tensor.free] at subscribes'
      exact kept ⟨shape, subscribes'.unique subscribes⟩ id id
  | @indexSum _ index =>
      obtain ⟨v, ii, rfl, summand, items⟩ := pairs_two replaced
      obtain rfl := items.multi_index
      have built : v.indexSum index = .ok y := run
      obtain ⟨shape, free⟩ := index_sum_type built
      exact kept ⟨shape, summand.free ▸ free⟩ id id
  | @componentTensor _ indices _ _ _ some binds =>
      obtain ⟨v, ii, rfl, scalar, items⟩ := pairs_two replaced
      obtain rfl := items.multi_index
      have built : v.asTensor indices = .ok y := by
        obtain ⟨others, known, run⟩ := (except_bind_ok _ _ _).mp run
        cases (expect_indices_free _ indices).symm.trans known
        exact run
      obtain ⟨dims, set, binds', same⟩ := as_tensor_type some (typed v (by simp)) built
      rw [scalar.free] at binds'
      obtain ⟨rfl, rfl⟩ := binds.unique binds'
      rw [same]
      simp [DropsIndices, BaresIndices, multiIndex]
  | listTensor some same =>
      obtain ⟨dims, set, some', same', result⟩ := list_tensor_cases run
      obtain ⟨x, member⟩ := List.exists_mem_of_ne_nil _ some
      obtain ⟨v, pair⟩ := partner_right replaced.length_eq member
      have replaces := List.forall₂_zip replaced pair
      obtain ⟨rfl, rfl⟩ := same x member
      obtain ⟨rfl, rfl⟩ := same' v (List.of_mem_zip pair).2
      have length : vs.length :: v.shape = xs.length :: x.shape := by
        rw [replaced.length_eq, replaces.shape]
      obtain ⟨_, rfl⟩ | rfl := result
      · exact kept ⟨length, replaces.free⟩ id id
      · exact kept ⟨length, replaces.free⟩ id id
  | conditional _ _ _ union =>
      obtain ⟨test, v, w, rfl, first, left, right⟩ := pairs_three replaced
      obtain ⟨set, types, rfl⟩ := conditional_cases run
      cases types with
      | conditional _ _ _ union' =>
          rw [first.free, left.free] at union'
          exact kept ⟨left.shape, union'.unique union⟩ id id
  | condition _ _ dims =>
      obtain ⟨set, types, rfl⟩ := condition_cases run
      cases types with
      | condition _ _ dims' =>
          refine kept ⟨rfl, FreeIndices.ext_dim fun i d => ?_⟩ id id
          rw [dims]
          refine (dims' i d).trans ⟨?_, ?_⟩
          · rintro ⟨v, member, found⟩
            obtain ⟨x, inside, replaces⟩ := pairs_member replaced member
            exact ⟨x, inside, replaces.free ▸ found⟩
          · rintro ⟨x, inside, found⟩
            obtain ⟨v, pair⟩ := partner_right replaced.length_eq inside
            exact ⟨v, (List.of_mem_zip pair).2, (List.forall₂_zip replaced pair).free ▸ found⟩
  | @grad _ gdim =>
      obtain ⟨v, rfl, operand⟩ := pairs_one replaced
      obtain ⟨dim, known, stored⟩ := lives
      obtain rfl : gdim = dim := by simpa using stored
      obtain ⟨dim', known', shape, free⟩ := grad_type run
      obtain rfl := domain (.inl rfl) _ _ (by simp) gdim dim' known known'
      exact kept ⟨operand.shape ▸ shape, free.trans operand.free⟩ id id
  | div =>
      obtain ⟨v, rfl, operand⟩ := pairs_one replaced
      obtain ⟨shape, free⟩ := div_type run
      exact kept ⟨operand.shape ▸ shape, free.trans operand.free⟩ id id
  | curl known | rot known =>
      obtain ⟨v, rfl, operand⟩ := pairs_one replaced
      obtain ⟨dims, known', rfl⟩ := (except_bind_pure_ok _ _ _).mp run
      rw [curlShape, operand.shape] at known'
      cases known.symm.trans known'
      exact kept ⟨rfl, operand.free⟩ id id
  | @spatialDerivative _ items _ _ some _ =>
      obtain ⟨v, ii, rfl, operand, same⟩ := pairs_two replaced
      obtain rfl := same.multi_index
      obtain ⟨dim, _, known, equal, subscribes⟩ := lives
      cases equal
      obtain ⟨dim', known', shape, subscribes'⟩ := spatial_derivative_type some run
      rw [operand.free] at subscribes'
      refine kept ⟨shape.trans operand.shape, ?_⟩ id id
      by_cases along : ∃ i, .free i ∈ items
      · obtain ⟨i, listed⟩ := along
        obtain rfl := domain (.inr ⟨rfl, _, items, i, rfl, listed⟩) _ _ (by simp) dim dim' known known'
        exact subscribes'.unique subscribes
      · -- Fixed subscripts leave the free indices of the operand, whatever the dimension.
        have fixed : ∀ i, .free i ∉ items := fun i listed => along ⟨i, listed⟩
        exact (subscribes'.fixed fixed).trans (subscribes.fixed fixed).symm
  | variableDerivative =>
      obtain ⟨v, w, rfl, left, right⟩ := pairs_two replaced
      obtain ⟨_, _, rfl⟩ := variable_derivative_cases run
      exact kept ⟨by rw [← left.shape, ← right.shape]; rfl, left.free⟩ id id
  | restricted =>
      obtain ⟨v, rfl, operand⟩ := pairs_one replaced
      cases run
      exact kept ⟨operand.shape, operand.free⟩ id id
  | transposed shape =>
      obtain ⟨v, rfl, operand⟩ := pairs_one replaced
      simp only [assemble, Expr.transposed, operand.shape, shape] at run
      cases run
      exact kept ⟨rfl, operand.free⟩ id id
  | inner shape apart union =>
      obtain ⟨v, w, rfl, left, right⟩ := pairs_two replaced
      obtain ⟨_, _, run⟩ := (except_bind_ok _ _ _).mp run
      obtain ⟨shape, union'⟩ := binary_type run
      rw [left.free, right.free] at union'
      exact kept ⟨shape, union'.unique union⟩ id id
  | outer apart union =>
      obtain ⟨v, w, rfl, left, right⟩ := pairs_two replaced
      obtain ⟨shape, union'⟩ := binary_type run
      rw [left.free, right.free] at union'
      exact kept ⟨by rw [shape, left.shape, right.shape], union'.unique union⟩ id id
  | dot _ apart union =>
      obtain ⟨v, w, rfl, left, right⟩ := pairs_two replaced
      obtain ⟨_, run⟩ := except_if_ok (by simp) run
      obtain ⟨shape, union'⟩ := binary_type run
      rw [left.free, right.free] at union'
      exact kept ⟨by rw [shape, left.shape, right.shape], union'.unique union⟩ id id
  | cross _ _ apart union =>
      obtain ⟨v, w, rfl, left, right⟩ := pairs_two replaced
      obtain ⟨_, run⟩ := except_if_ok (by simp) run
      obtain ⟨shape, union'⟩ := binary_type run
      rw [left.free, right.free] at union'
      exact kept ⟨shape, union'.unique union⟩ id id
  | trace shape | skew shape | cofactor shape | deviatoric shape =>
      obtain ⟨v, rfl, operand⟩ := pairs_one replaced
      obtain ⟨_, _, rfl⟩ := (except_bind_pure_ok _ _ _).mp run
      exact kept ⟨by simp [unary, Expr.shape, operand.shape, shape], operand.free⟩ id id
  | determinant shape | inverse shape =>
      obtain ⟨v, rfl, operand⟩ := pairs_one replaced
      simp only [assemble, Expr.determinant, Expr.inverse, operand.shape, shape] at run
      cases run
      exact kept ⟨rfl, operand.free⟩ id id

theorem assemble_type (types : op.Types xs shape free) (lives : op.Lives xs shape free)
    (replaced : List.Forall₂ Replaces xs vs) (typed : ∀ v ∈ vs, WellTyped v)
    (run : op.assemble vs = .ok y) :
    (y.shape = shape ∧ y.free = free) ↔ ¬ op.DropsIndices vs ∧ ¬ op.BaresIndices vs :=
  assemble_filled types lives (replaced.imp fun _ _ replaces => replaces.fills)
    (fun _ _ _ pair => (List.forall₂_zip replaced pair).domain) typed run

end Operator

namespace Expr

/-- The two simplifications that return an expression of another type than the node. -/
def Retypes : Expr → List Expr → Prop
  | .node op _ _ _, vs => op.DropsIndices vs ∨ op.BaresIndices vs
  | _, _ => False

/-- A node rebuilt from operands of the types that its own have keeps its shape and its free
indices, unless the base of a power becomes an indexed zero under a constant exponent or a
component tensor gives way to a tensor in which an index it binds is free. -/
theorem reconstruct_type_iff {x y : Expr} {vs : List Expr} {supply after : Supply}
    (made : Constructible x) (constructible : ∀ v ∈ vs, Constructible v)
    (replaced : List.Forall₂ Replaces x.operands vs)
    (run : x.reconstruct vs supply = .ok (y, after)) :
    (y.shape = x.shape ∧ y.free = x.free) ↔ ¬ x.Retypes vs := by
  have typed (v : Expr) (member : v ∈ vs) : WellTyped v := (constructible v member).well_typed
  have formed := made.formed
  unfold reconstruct at run
  rw [if_neg (by simpa using replaced.length_eq.symm)] at run
  cases x with
  | terminal data =>
      obtain ⟨rfl, _⟩ := (Fresh.pure_ok _ _).mp run
      simp [Retypes]
  | node op operands shape free =>
      cases formed with
      | node stored spreads _ =>
          obtain ⟨types, _, lives⟩ := Operator.assembled stored
          have spreads' : op.Spreads vs := by
            intro product v member
            obtain ⟨x, inside, replaces⟩ := pairs_member replaced member
            rw [replaces.shape]
            exact spreads product x inside
          have built : op.build vs supply = .ok (y, after) := run
          rw [build_spread spreads', Fresh.lift_ok] at built
          rw [Retypes, not_or]
          exact Operator.assemble_type types lives replaced typed built.1
  | labelled label body =>
      obtain ⟨v, rfl, replaces⟩ := pairs_one replaced
      obtain ⟨_, rfl⟩ := with_label_cases ((Fresh.lift_ok _ _).mp run).1
      simp [Retypes, shape, free, replaces.shape, replaces.free]

theorem OnDomain.unchanged {x v : Expr} {g : Nat} (on : OnDomain g x) (on' : OnDomain g v)
    (m n : Nat) (first : x.geometricDimension = .ok m) (second : v.geometricDimension = .ok n) :
    m = n := by
  obtain ⟨data, inside, lives⟩ := geometric_dimension_ok first
  obtain ⟨data', inside', lives'⟩ := geometric_dimension_ok second
  rw [on data inside m lives, on' data' inside' n lives']

section Sample

/-- A component of a vector field, by an index. -/
def componentAt (field : Nat) : Expr :=
  .node .indexed [.terminal (.coefficient ⟨field, .vector 2 2⟩), multiIndex [.free ⟨0⟩]] []
    (.single ⟨0⟩ 2)

/-- Its square. -/
def squareAt (field : Nat) : Expr :=
  .node .power [componentAt field, .terminal (.int 2)] [] (.single ⟨0⟩ 2)

theorem component_at_on_domain (field : Nat) : OnDomain 2 (componentAt field) := by
  intro data inside d lives
  rw [← mem_parts] at inside
  simp only [componentAt, multiIndex, parts, partsAll, List.append_nil, List.mem_cons, reduceCtorEq,
    List.cons_append, List.nil_append, terminal.injEq, List.not_mem_nil, or_false, false_or] at inside
  rcases inside with rfl | rfl
  · exact (Option.some.inj lives).symm
  · cases lives

theorem component_at_constructible (field : Nat) : Constructible (componentAt field) := by
  have made : Operator.assemble .indexed [.terminal (.coefficient ⟨field, .vector 2 2⟩),
      multiIndex [.free ⟨0⟩]] = .ok (componentAt field) := by rfl
  exact .assemble .indexed (by decide) (operands_pair (.terminal _) (.terminal _)) made

/-- The square of the component of another field keeps the index; the square of a zero with that
index has lost it. -/
theorem square_at_rebuilt :
    ((squareAt 0).reconstruct [componentAt 1, .terminal (.int 2)] {} = .ok (squareAt 1, {}) ∧
      (squareAt 1).free = (squareAt 0).free) ∧
    (squareAt 0).reconstruct [zeros [] (.single ⟨0⟩ 2), .terminal (.int 2)] {} = .ok (zero, {}) ∧
      ¬ (zero.shape = (squareAt 0).shape ∧ zero.free = (squareAt 0).free) := by
  have exponent : Constructible (.terminal (.int 2)) := .terminal _
  have made : Constructible (squareAt 0) := .assemble .power (by decide)
    (operands_pair (component_at_constructible 0) exponent) (by cbv)
  have kept : Replaces (.terminal (.int 2)) (.terminal (.int 2)) :=
    ⟨rfl, rfl, fun _ => rfl, fun m n first second => Except.ok.inj (first.symm.trans second)⟩
  have other : (squareAt 0).reconstruct [componentAt 1, .terminal (.int 2)] {} =
      .ok (squareAt 1, {}) := rfl
  have zeroed : (squareAt 0).reconstruct [zeros [] (.single ⟨0⟩ 2), .terminal (.int 2)] {} =
      .ok (zero, {}) := rfl
  have component : Replaces (componentAt 0) (componentAt 1) :=
    ⟨rfl, rfl, by rintro ⟨⟩, (component_at_on_domain 0).unchanged (component_at_on_domain 1)⟩
  have indexedZero : Replaces (componentAt 0) (zeros [] (.single ⟨0⟩ 2)) := by
    refine ⟨rfl, rfl, by rintro ⟨⟩, (component_at_on_domain 0).unchanged fun data inside d lives => ?_⟩
    cases inside with
    | refl => cases lives
    | step member => cases member
  refine ⟨⟨other, ?_⟩, zeroed, fun same => ?_⟩
  · have constructible := operands_pair (component_at_constructible 1) exponent
    refine ((reconstruct_type_iff made constructible (.cons component (.cons kept .nil)) other).mpr ?_).2
    rintro (⟨nonzero, _⟩ | bares)
    · cases nonzero
    · exact bares
  · have constructible := operands_pair (Constructible.terminal (.zero [] (.single ⟨0⟩ 2))) exponent
    refine (reconstruct_type_iff made constructible (.cons indexedZero (.cons kept .nil)) zeroed).mp
      same (.inl ⟨rfl, ?_, by rintro ⟨⟩, by decide⟩)
    decide

end Sample

end Expr

end FormCalculus
