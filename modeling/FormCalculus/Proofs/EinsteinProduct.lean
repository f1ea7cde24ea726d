import FormCalculus.Proofs.FreshAxes

/-!
The product of two expressions: of scalars, of a scalar and a tensor, of a matrix with a vector or a
matrix. It can be built just where the shapes are such and the indices that both factors have agree on
their dimensions. What only one factor has is left free.
-/
set_option autoImplicit false

namespace FormCalculus

/-- The shape of a product, where there is one. -/
def productShape : Shape → Shape → Option Shape
  | [], shape => some shape
  | shape, [] => some shape
  | [m, n], [inner] => if n = inner then some [m] else none
  | [m, n], [inner, l] => if n = inner then some [m, l] else none
  | _, _ => none

namespace Expr

open Denotes FreeIndices

variable {a b e r : Expr} {indices : List Index}

section Products

variable [Folding] {product component p : Expr}

/-- Scalars whose free indices agree can be multiplied, summed over those that both have. -/
theorem contracted_product_total (left : a.shape = []) (right : b.shape = [])
    (agree : ∀ i d d', a.free.dim? i = some d → b.free.dim? i = some d' → d = d') :
    ∃ r, a.contractedProduct b = .ok r := by
  obtain ⟨free, union⟩ := FreeIndices.exists_union agree
  obtain ⟨product, first⟩ := scalar_product_total left right union
  obtain ⟨scalar, union⟩ := scalar_product_type first
  -- Free indices are kept in increasing order, so that none is summed over twice.
  have distinct : ((a.free.repeated b.free).map (·.1)).Nodup := by
    have increasing := a.free.increasing.filter fun entry => b.free.contains entry.1
    exact List.pairwise_map.mpr (increasing.imp fun less same => by rw [same] at less; omega)
  obtain ⟨r, sums⟩ := index_sums_total scalar distinct fun i member => by
    obtain ⟨⟨_, d⟩, shared, rfl⟩ := List.mem_map.mp member
    obtain ⟨found, _⟩ := FreeIndices.mem_repeated_iff.mp shared
    exact FreeIndices.contains_iff.mpr ⟨d, union.left_subset _ d found⟩
  exact ⟨r, (except_bind_ok _ _ _).mpr ⟨product, first, sums⟩⟩

/-- What only one factor has is left free. -/
theorem contracted_product_type (run : a.contractedProduct b = .ok r) :
    r.shape = [] ∧ ∀ i d, r.free.dim? i = some d ↔
      ¬ (a.free.contains i = true ∧ b.free.contains i = true) ∧
        (a.free.dim? i = some d ∨ b.free.dim? i = some d) := by
  obtain ⟨product, first, sums⟩ := (except_bind_ok _ _ _).mp run
  obtain ⟨scalar, union⟩ := scalar_product_type first
  obtain ⟨scalar, dims⟩ := index_sums_type scalar sums
  refine ⟨scalar, fun i d => ?_⟩
  have shared : i ∈ (a.free.repeated b.free).map (·.1) ↔
      a.free.contains i = true ∧ b.free.contains i = true := by
    simp only [List.mem_map, Prod.exists, exists_and_right, exists_eq_right,
      FreeIndices.mem_repeated_iff, FreeIndices.contains_iff]
  rw [dims, shared, union]

theorem contracted_product_compatible (run : a.contractedProduct b = .ok r) :
    Compatible a.free b.free := by
  obtain ⟨product, first, _⟩ := (except_bind_ok _ _ _).mp run
  exact (scalar_product_type first).2.compatible

theorem contracted_product_typed (left : WellTyped a) (right : WellTyped b)
    (run : a.contractedProduct b = .ok r) : WellTyped r := by
  have built : Built (fun _ => True) WellTyped r :=
    (Built.stable fun _ _ => trivial).contracted_product (.given left) (.given right) run
  exact built.well_typed fun _ typed => typed

/-- A product is no component of a tensor, unless it is one of the factors. -/
theorem contracted_product_bound (left : ¬ a.LeavesFree indices) (right : ¬ b.LeavesFree indices)
    (run : a.contractedProduct b = .ok r) : ¬ r.LeavesFree indices := by
  obtain ⟨product, first, sums⟩ := (except_bind_ok _ _ _).mp run
  have single : ¬ product.LeavesFree indices := by
    obtain ⟨_, _, free, _, ⟨_, rfl⟩ | folded | ⟨_, rfl⟩ | ⟨_, rfl⟩ | rfl⟩ := scalar_product_cases first
    · exact not_leaves_free nofun
    · obtain ⟨_, _, z, _, _, _, rfl⟩ := fold_some folded
      exact not_leaves_free (by cases z <;> nofun)
    · exact right
    · exact left
    · exact not_leaves_free nofun
  exact index_sums_bound single sums

/-! Tensors times scalars. -/

section Scaling

variable {t f : Expr} {supply after : Supply}

theorem scale_runs : t.scale f supply = .ok (p, after) ↔
    ∃ component product, t.indexBy (Fresh.nextIndices supply t.rank) = .ok component ∧
      f.contractedProduct component = .ok product ∧
      product.asTensor (Fresh.nextIndices supply t.rank) = .ok p ∧
      after = { supply with index := supply.index + t.rank } := by
  simp only [scale, Fresh.bind_ok, Fresh.lift_ok, Fresh.new_indices_ok]
  constructor
  · rintro ⟨_, _, ⟨rfl, rfl⟩, component, _, ⟨first, rfl⟩, product, _, ⟨second, rfl⟩, third, rfl⟩
    exact ⟨component, product, first, second, third, rfl⟩
  · rintro ⟨component, product, first, second, third, rfl⟩
    exact ⟨_, _, ⟨rfl, rfl⟩, component, _, ⟨first, rfl⟩, product, _, ⟨second, rfl⟩, third, rfl⟩

/-- The product of a scalar and a component along fresh indices can be made into a tensor over them. -/
theorem along_product (typed : WellTyped f) (tensor : t.shape ≠ []) (distinct : indices.Nodup)
    (free : ∀ i ∈ indices, ¬ f.free.contains i = true) (free' : ∀ i ∈ indices, ¬ t.free.contains i = true)
    (length : indices.length = t.shape.length) (along : Along t indices component)
    (run : f.contractedProduct component = .ok product) :
    ¬ product.LeavesFree indices ∧
      (∃ p, product.asTensor indices = .ok p) ∧ ∀ p, product.asTensor indices = .ok p →
        p.shape = t.shape ∧ ∀ i d, p.free.dim? i = some d ↔
          ¬ (f.free.contains i = true ∧ t.free.contains i = true) ∧
            (f.free.dim? i = some d ∨ t.free.dim? i = some d) := by
  have some : indices ≠ [] := by
    rintro rfl
    exact tensor (List.eq_nil_of_length_eq_zero length.symm)
  have bound := contracted_product_bound (untouched_bound typed free) (along.bound some free') run
  obtain ⟨scalar, dims⟩ := contracted_product_type run
  have apart (i : Index) (d : Nat) (pair : (i, d) ∈ indices.zip t.shape) :
      product.free.dim? i = .some d := by
    refine (dims i d).mpr ⟨fun both => free i (List.of_mem_zip pair).1 both.1, .inr ?_⟩
    exact (along.dims i d).mpr (.inr pair)
  obtain ⟨total, type⟩ := as_tensor_over (contracted_product_typed typed along.typed run) scalar distinct
    length apart bound
  refine ⟨bound, total, fun p last => ⟨(type p last).1, fun i d => ?_⟩⟩
  rw [(type p last).2, dims]
  by_cases member : i ∈ indices
  · have absent := not_contains_iff.mp (free i member)
    have absent' := not_contains_iff.mp (free' i member)
    simp [member, absent, absent']
  · simp only [member, not_false_eq_true, true_and, contains_iff, along.shared member]

/-- A tensor can be multiplied by a scalar where the indices that both have agree on their dimensions.
Its shape is kept. -/
theorem scale_type (typed : WellTyped t) (typed' : WellTyped f) (tensor : t.shape ≠ [])
    (scalar : f.shape = []) (below : supply.Past t) (below' : supply.Past f) :
    ((∃ p after, t.scale f supply = .ok (p, after)) ↔ Compatible f.free t.free) ∧
    ∀ p after, t.scale f supply = .ok (p, after) →
      p.shape = t.shape ∧ ∀ i d, p.free.dim? i = some d ↔
        ¬ (f.free.contains i = true ∧ t.free.contains i = true) ∧
          (f.free.dim? i = some d ∨ t.free.dim? i = some d) := by
  have distinct := Fresh.next_indices_distinct supply t.rank
  have length : (Fresh.nextIndices supply t.rank).length = t.shape.length := by
    rw [Fresh.next_indices_length]
    rfl
  have free := next_untouched t.rank below
  have free' := next_untouched t.rank below'
  refine ⟨⟨?_, fun compatible => ?_⟩, ?_⟩
  · rintro ⟨p, after, run⟩
    obtain ⟨component, product, first, second, _⟩ := scale_runs.mp run
    have along := subscript_along typed (index_by_once distinct free first)
    exact (along.compatible free').mp (contracted_product_compatible second)
  · obtain ⟨component, along⟩ := along_total typed distinct free length
    obtain ⟨product, second⟩ :=
      contracted_product_total scalar along.scalar ((along.compatible free').mpr compatible)
    obtain ⟨_, ⟨p, third⟩, _⟩ := along_product typed' tensor distinct free' free length along second
    refine ⟨p, _, scale_runs.mpr ⟨component, product, ?_, second, third, rfl⟩⟩
    exact (index_by_of_once distinct free).trans along.run
  · intro p after run
    obtain ⟨component, product, first, second, third, _⟩ := scale_runs.mp run
    have along := subscript_along typed (index_by_once distinct free first)
    obtain ⟨_, _, type⟩ := along_product typed' tensor distinct free' free length along second
    exact type p third

end Scaling

end Products

/-! Tensors contracted along one axis of each. -/

section Contracting

variable {outer inner : Shape} {n n' : Nat} {rows columns : List Index} {middle : Index}
  {left right : Expr}

section Product

variable [Folding] {product p : Expr}

theorem contract_runs {supply after : Supply} (shape : a.shape = outer ++ [n])
    (shape' : b.shape = n' :: inner) : a.contract b supply = .ok (p, after) ↔ n = n' ∧
      ∃ left right product,
        a.indexBy (Fresh.nextIndices supply outer.length ++
          [⟨supply.index + outer.length + inner.length⟩]) = .ok left ∧
        b.indexBy (⟨supply.index + outer.length + inner.length⟩ ::
          Fresh.nextIndices { supply with index := supply.index + outer.length } inner.length) =
            .ok right ∧
        left.contractedProduct right = .ok product ∧
        product.asTensor (Fresh.nextIndices supply (outer.length + inner.length)) = .ok p ∧
        after = { supply with index := supply.index + outer.length + inner.length + 1 } := by
  have last : a.shape.getLastD 0 = n := by simp [shape]
  have axes : a.rank - 1 = outer.length := by simp [rank, shape]
  have axes' : b.rank - 1 = inner.length := by simp [rank, shape']
  unfold contract
  simp only [shape', last, axes, axes']
  by_cases same : n = n'
  · simp only [same, ne_eq, not_true_eq_false, if_false, true_and, Fresh.next_indices_add]
    simp only [Fresh.bind_ok, Fresh.lift_ok, Fresh.new_indices_ok, Fresh.new_index_ok]
    constructor
    · rintro ⟨_, _, ⟨rfl, rfl⟩, _, _, ⟨rfl, rfl⟩, _, _, ⟨rfl, rfl⟩, left, _, ⟨first, rfl⟩, right, _,
        ⟨second, rfl⟩, product, _, ⟨third, rfl⟩, fourth, rfl⟩
      exact ⟨left, right, product, first, second, third, fourth, rfl⟩
    · rintro ⟨left, right, product, first, second, third, fourth, rfl⟩
      exact ⟨_, _, ⟨rfl, rfl⟩, _, _, ⟨rfl, rfl⟩, _, _, ⟨rfl, rfl⟩, left, _, ⟨first, rfl⟩, right, _,
        ⟨second, rfl⟩, product, _, ⟨third, rfl⟩, fourth, rfl⟩
  · simp [same]

/-- The product of two such components can be made into a tensor over the axes that are left. -/
theorem Facing.product_bound (facing : Facing a b left right outer inner n rows columns middle)
    (run : left.contractedProduct right = .ok product) :
    ¬ product.LeavesFree (rows ++ columns) ∧ (∃ p, product.asTensor (rows ++ columns) = .ok p) ∧
      ∀ p, product.asTensor (rows ++ columns) = .ok p → p.shape = outer ++ inner ∧
        ∀ i d, p.free.dim? i = some d ↔ ¬ (a.free.contains i = true ∧ b.free.contains i = true) ∧
          (a.free.dim? i = some d ∨ b.free.dim? i = some d) := by
  have bound := contracted_product_bound
    (facing.first.bound (by simp) fun i member => facing.absent i (.inl member))
    (facing.second.bound (by simp) fun i member => facing.absent' i (.inl member)) run
  obtain ⟨scalar, dims⟩ := contracted_product_type run
  have axis (i : Index) (d : Nat) (pair : (i, d) ∈ (rows ++ columns).zip (outer ++ inner)) :
      product.free.dim? i = some d := by
    have along := facing.at_axis (List.of_mem_zip pair).1 d
    exact (dims i d).mpr ⟨along.1, along.2.mpr pair⟩
  obtain ⟨total, type⟩ := as_tensor_over
    (contracted_product_typed facing.first.typed facing.second.typed run) scalar facing.distinct
    (by simp [facing.length, facing.length']) axis bound
  refine ⟨bound, total, fun p last => ⟨(type p last).1, fun i d => ?_⟩⟩
  rw [(type p last).2, dims]
  by_cases member : i ∈ rows ++ columns
  · have free := not_contains_iff.mp (facing.absent i (.inl member))
    have free' := not_contains_iff.mp (facing.absent' i (.inl member))
    simp only [member, not_true_eq_false, false_and, free, free', reduceCtorEq, or_self, and_false]
  · by_cases same : i = middle
    · -- The contracted index is in both components, and in neither factor.
      subst same
      have free := not_contains_iff.mp (facing.absent i (.inr rfl))
      have free' := not_contains_iff.mp (facing.absent' i (.inr rfl))
      have both : left.free.contains i = true ∧ right.free.contains i = true :=
        ⟨contains_iff.mpr ⟨n, (facing.at_middle n).1.mpr rfl⟩,
          contains_iff.mpr ⟨n, (facing.at_middle n).2.mpr rfl⟩⟩
      simp only [both, free, free', and_self, not_true_eq_false, false_and, and_false, reduceCtorEq,
        or_self]
    · have same (d : Nat) := facing.elsewhere member same d
      simp only [member, not_false_eq_true, true_and, contains_iff, (same _).1, (same _).2]

/-- A tensor can be contracted with another where their axes have one dimension and the indices that both
have agree on theirs. The other axes are left. -/
theorem contract_type {supply : Supply} (typed : WellTyped a) (typed' : WellTyped b)
    (shape : a.shape = outer ++ [n]) (shape' : b.shape = n' :: inner)
    (below : supply.Past a) (below' : supply.Past b) :
    ((∃ p after, a.contract b supply = .ok (p, after)) ↔ n = n' ∧ Compatible a.free b.free) ∧
    ∀ p after, a.contract b supply = .ok (p, after) → p.shape = outer ++ inner ∧
      ∀ i d, p.free.dim? i = some d ↔ ¬ (a.free.contains i = true ∧ b.free.contains i = true) ∧
        (a.free.dim? i = some d ∨ b.free.dim? i = some d) := by
  have apart := next_axes_apart outer.length inner.length below below'
  have length := Fresh.next_indices_length supply outer.length
  have length' :=
    Fresh.next_indices_length { supply with index := supply.index + outer.length } inner.length
  refine ⟨⟨?_, ?_⟩, fun p after run => ?_⟩
  · rintro ⟨p, after, run⟩
    obtain ⟨rfl, left, right, product, first, second, third, _⟩ :=
      (contract_runs shape shape').mp run
    have facing := apart.facing typed typed' shape shape' length length' first second
    exact ⟨rfl, facing.compatible_iff.mp (contracted_product_compatible third)⟩
  · rintro ⟨rfl, compatible⟩
    obtain ⟨left, right, first, second, facing⟩ :=
      apart.facing_total typed typed' shape shape' length length'
    obtain ⟨product, third⟩ := contracted_product_total facing.first.scalar facing.second.scalar
      (facing.compatible_iff.mpr compatible)
    obtain ⟨_, ⟨p, fourth⟩, _⟩ := facing.product_bound third
    rw [← Fresh.next_indices_add] at fourth
    exact ⟨p, _, (contract_runs shape shape').mpr
      ⟨rfl, left, right, product, first, second, third, fourth, rfl⟩⟩
  · obtain ⟨rfl, left, right, product, first, second, third, fourth, _⟩ :=
      (contract_runs shape shape').mp run
    have facing := apart.facing typed typed' shape shape' length length' first second
    rw [Fresh.next_indices_add] at fourth
    exact (facing.product_bound third).2.2 p fourth

end Product

end Contracting

section Multiplying

variable [Folding]

/-- How two expressions are multiplied, by their shapes. -/
theorem mul_cases (a b : Expr) :
    (a.shape = [] ∧ b.shape = [] ∧ a.mul b = liftM (a.contractedProduct b)) ∨
    (a.shape = [] ∧ b.shape ≠ [] ∧ a.mul b = b.scale a) ∨
    (a.shape ≠ [] ∧ b.shape = [] ∧ a.mul b = a.scale b) ∨
    (∃ m n n' inner, a.shape = [m] ++ [n] ∧ b.shape = n' :: inner ∧ inner.length ≤ 1 ∧
      a.mul b = a.contract b) ∨
    (productShape a.shape b.shape = none ∧ ∃ error, a.mul b = throw error) := by
  unfold mul rank
  cases shape : a.shape with
  | nil =>
      cases shape' : b.shape with
      | nil => exact .inl ⟨rfl, rfl, rfl⟩
      | cons n' inner => exact .inr (.inl ⟨rfl, nofun, rfl⟩)
  | cons m outer =>
      cases shape' : b.shape with
      | nil =>
          refine .inr (.inr (.inl ⟨nofun, rfl, ?_⟩))
          rcases outer with _ | ⟨n, _ | ⟨k, outer⟩⟩ <;> rfl
      | cons n' inner =>
          refine .inr (.inr (.inr ?_))
          -- What is left is a contraction, if it is one of a matrix with a vector or a matrix.
          rcases outer with _ | ⟨n, _ | ⟨k, outer⟩⟩
          · exact .inr ⟨by simp [productShape], _, rfl⟩
          · rcases inner with _ | ⟨l, _ | ⟨k, inner⟩⟩
            · exact .inl ⟨m, n, n', [], rfl, rfl, by decide, rfl⟩
            · exact .inl ⟨m, n, n', [l], rfl, rfl, le_rfl, rfl⟩
            · exact .inr ⟨rfl, _, rfl⟩
          · exact .inr ⟨by simp [productShape], _, rfl⟩

omit [Folding] in
/-- The shape of a contraction of a matrix. -/
theorem product_shape_matrix {m n n' : Nat} {inner : Shape} (length : inner.length ≤ 1) :
    productShape ([m] ++ [n]) (n' :: inner) = if n = n' then some ([m] ++ inner) else none := by
  rcases inner with _ | ⟨l, _ | ⟨k, inner⟩⟩
  · rfl
  · rfl
  · simp at length

/-- Two expressions can be multiplied where their shapes have a product and the indices that both have
agree on their dimensions. -/
theorem mul_type {supply : Supply} (typed : WellTyped a) (typed' : WellTyped b)
    (below : supply.Past a) (below' : supply.Past b) :
    ((∃ p after, a.mul b supply = .ok (p, after)) ↔
      (∃ shape, productShape a.shape b.shape = some shape) ∧ Compatible a.free b.free) ∧
    ∀ p after, a.mul b supply = .ok (p, after) → productShape a.shape b.shape = some p.shape ∧
      ∀ i d, p.free.dim? i = some d ↔ ¬ (a.free.contains i = true ∧ b.free.contains i = true) ∧
        (a.free.dim? i = some d ∨ b.free.dim? i = some d) := by
  obtain ⟨scalar, scalar', same⟩ | ⟨scalar, tensor, same⟩ | ⟨tensor, scalar, same⟩ |
    ⟨m, n, n', inner, shape, shape', length, same⟩ | ⟨none, error, same⟩ := mul_cases a b
  · have product : productShape a.shape b.shape = some [] := by rw [scalar, scalar']; rfl
    simp only [same, Fresh.lift_ok, product]
    refine ⟨⟨?_, ?_⟩, ?_⟩
    · rintro ⟨p, _, run, _⟩
      exact ⟨⟨[], rfl⟩, contracted_product_compatible run⟩
    · rintro ⟨_, compatible⟩
      obtain ⟨p, run⟩ := contracted_product_total scalar scalar' compatible
      exact ⟨p, supply, run, rfl⟩
    · rintro p _ ⟨run, _⟩
      obtain ⟨shape, dims⟩ := contracted_product_type run
      exact ⟨by rw [shape], dims⟩
  · have product : productShape a.shape b.shape = some b.shape := by rw [scalar]; rfl
    obtain ⟨total, type⟩ := scale_type typed' typed tensor scalar below' below
    rw [same, product]
    refine ⟨total.trans (and_iff_right ⟨_, rfl⟩).symm, fun p after run => ?_⟩
    obtain ⟨shape, dims⟩ := type p after run
    exact ⟨by rw [shape], dims⟩
  · have product : productShape a.shape b.shape = some a.shape := by
      cases shape : a.shape with
      | nil => exact absurd shape tensor
      | cons => rw [scalar]; rfl
    obtain ⟨total, type⟩ := scale_type typed typed' tensor scalar below below'
    rw [same, product, total]
    refine ⟨?_, fun p after run => ?_⟩
    · exact ⟨fun compatible => ⟨⟨_, rfl⟩, compatible.symm⟩, fun both => both.2.symm⟩
    · obtain ⟨shape, dims⟩ := type p after run
      exact ⟨by rw [shape], fun i d => by rw [dims, and_comm (a := b.free.contains i = true), or_comm]⟩
  · obtain ⟨total, type⟩ := contract_type typed typed' shape shape' below below'
    rw [same, total, shape, shape', product_shape_matrix length]
    refine ⟨and_congr_left' ?_, fun p after run => ?_⟩
    · by_cases fits : n = n'
      · simp [fits]
      · simp [fits]
    · obtain ⟨fits, _⟩ := total.mp ⟨p, after, run⟩
      obtain ⟨shape, dims⟩ := type p after run
      exact ⟨by rw [if_pos fits, shape], dims⟩
  · rw [same, none]
    simp

end Multiplying

end Expr

end FormCalculus
