import FormCalculus.Proofs.EinsteinProduct
import FormCalculus.Proofs.ExpansionValue
import FormCalculus.Proofs.ReadingBuild

/-!
What a product stands for in a commutative ring: each of its components is the sum, over all positions of
the indices that both factors have and of the inner axes of two matrices, of products of their components.
-/
set_option autoImplicit false

namespace FormCalculus

universe u

section SumAlong

variable {R : Type*} [AddCommMonoid R] {summed : List (Index × Nat)}

/-- What commutes with binding the indices that are summed over can be done before or after. -/
theorem sum_along_update {term : Assignment → R} (update : Assignment → Assignment)
    (apart : ∀ i ∈ summed.map Prod.fst, ∀ ρ position,
      (update ρ).bind i position = update (ρ.bind i position)) (ρ : Assignment) :
    sumAlong summed term (update ρ) = sumAlong summed (fun ρ => term (update ρ)) ρ := by
  induction summed generalizing term with
  | nil => rfl
  | cons entry rest ih =>
      obtain ⟨here, others⟩ := List.forall_mem_cons.mp apart
      simp only [sumAlong]
      rw [ih others]
      simp only [here]

theorem sum_along_append {others : List (Index × Nat)} {term : Assignment → R} :
    sumAlong (summed ++ others) term = sumAlong others (sumAlong summed term) := by
  induction summed generalizing term with
  | nil => rfl
  | cons entry rest ih => exact ih

theorem sum_along_comm {dim : Nat} {term : Nat → Assignment → R} (ρ : Assignment) :
    ∑ position ∈ Finset.range dim, sumAlong summed (term position) ρ =
      sumAlong summed (fun ρ => ∑ position ∈ Finset.range dim, term position ρ) ρ := by
  induction summed generalizing term with
  | nil => rfl
  | cons entry rest ih =>
      simp only [sumAlong]
      rw [ih]
      exact congrArg (sumAlong rest · ρ) (funext fun _ => Finset.sum_comm)

end SumAlong

namespace RingValuation

open FormCalculus.Expr

variable {R : Type*} [CommRing R] (v : RingValuation R) {a b e r t f p : Expr} {c : Component}
  {indices rows columns : List Index} {middle : Index} {supply after : Supply}

theorem value_along (along : Along a indices r) (ρ : Assignment) :
    v.value r ρ [] = v.value a ρ (indices.map ρ) := by
  rw [v.value_subscript along.run, List.map_map]
  rfl

/-- Binding what is not free in an expression leaves its value as it is. -/
theorem value_bound (steady : v.Steady) (typed : WellTyped e)
    (absent : ∀ i ∈ indices, ¬ e.free.contains i = true) (ρ : Assignment) (k : Component) :
    v.value e (ρ.bindAll (indices.zip k)) c = v.value e ρ c :=
  steady typed fun _ known => Assignment.bind_all_zip_other fun member => absent _ member known

/-- Indices bound to a component, and another one to a position. -/
def placed (indices : List Index) (middle : Index) (c : Component) (k : Nat) (ρ : Assignment) :
    Assignment :=
  (ρ.bindAll (indices.zip c)).bind middle k

/-- Other indices can be bound before or after. -/
theorem placed_bind {i : Index} (other : i ∉ indices) (other' : i ≠ middle) (k : Nat) (ρ : Assignment)
    (position : Nat) : (placed indices middle c k ρ).bind i position =
      placed indices middle c k (ρ.bind i position) := by
  unfold placed
  rw [Assignment.bind_all_bind other]
  exact Function.update_comm other'.symm _ _ _

theorem placed_positions (distinct : indices.Nodup) (outside : middle ∉ indices)
    (length : indices.length = c.length) (k : Nat) (ρ : Assignment) :
    indices.map (placed indices middle c k ρ) = c := by
  refine Eq.trans (List.map_congr_left fun i member => ?_) (Assignment.bind_all_zip (ρ := ρ) distinct length)
  have other : i ≠ middle := fun same => outside (same ▸ member)
  exact Assignment.bind_other other k

theorem value_placed (steady : v.Steady) (typed : WellTyped e)
    (absent : ∀ i, i ∈ indices ∨ i = middle → ¬ e.free.contains i = true) (k : Nat) (ρ : Assignment)
    {c' : Component} : v.value e (placed indices middle c k ρ) c' = v.value e ρ c' := by
  refine steady typed fun i inside => ?_
  have other : i ≠ middle := fun same => absent i (.inr same) inside
  have other' : i ∉ indices := fun member => absent i (.inl member) inside
  exact (Assignment.bind_other other k).trans (Assignment.bind_all_zip_other other')

/-- A component of a product before the indices that both factors have are summed over. -/
def productAt (a b : Expr) (ρ : Assignment) (c : Component) : R :=
  match a.shape, b.shape with
  | [], _ => v.value a ρ [] * v.value b ρ c
  | _, [] => v.value a ρ c * v.value b ρ []
  | _, n :: _ => ∑ k ∈ Finset.range n,
      v.value a ρ (c.take (a.rank - 1) ++ [k]) * v.value b ρ (k :: c.drop (a.rank - 1))

section Exact

variable [Folding] (exact : v.Exact)

include exact

theorem value_contracted_product (run : a.contractedProduct b = .ok r) (ρ : Assignment) :
    v.value r ρ [] =
      sumAlong (a.free.repeated b.free) (fun ρ => v.value a ρ [] * v.value b ρ []) ρ := by
  obtain ⟨product, first, sums⟩ := (except_bind_ok _ _ _).mp run
  have distinct : ((a.free.repeated b.free).map Prod.fst).Nodup := by
    have increasing := a.free.increasing.filter fun entry => b.free.contains entry.1
    exact List.pairwise_map.mpr (increasing.imp fun less same => by rw [same] at less; omega)
  have union := (scalar_product_type first).2
  rw [v.value_index_sums distinct (fun i d member => ?_) sums]
  · exact congrArg (sumAlong _ · ρ) (funext fun ρ => v.value_scalar_product exact first)
  · exact (union i d).mpr (.inl (FreeIndices.mem_repeated_iff.mp member).1)

theorem value_scale (steady : v.Steady) (typed : WellTyped t) (typed' : WellTyped f)
    (tensor : t.shape ≠ [])
    (below : supply.Past t) (below' : supply.Past f)
    (length : c.length = t.shape.length) (run : t.scale f supply = .ok (p, after)) (ρ : Assignment) :
    v.value p ρ c =
      sumAlong (f.free.repeated t.free) (fun ρ => v.value f ρ [] * v.value t ρ c) ρ := by
  obtain ⟨component, product, first, second, third, _⟩ := scale_runs.mp run
  have distinct := Fresh.next_indices_distinct supply t.rank
  have axes : (Fresh.nextIndices supply t.rank).length = t.shape.length := Fresh.next_indices_length _ _
  have absent := next_untouched t.rank below
  have absent' := next_untouched t.rank below'
  generalize Fresh.nextIndices supply t.rank = indices at *
  have along := subscript_along typed (Denotes.index_by_once distinct absent first)
  obtain ⟨bound, _⟩ := along_product typed' tensor distinct absent' absent axes along second
  have built := contracted_product_typed typed' along.typed second
  let update : Assignment → Assignment := fun ρ => ρ.bindAll (indices.zip c)
  have apart (i : Index) (member : i ∈ (f.free.repeated t.free).map Prod.fst) (ρ : Assignment)
      (position : Nat) : (update ρ).bind i position = update (ρ.bind i position) := by
    obtain ⟨⟨_, d⟩, shared, rfl⟩ := List.mem_map.mp member
    refine (Assignment.bind_all_bind fun inside => absent' _ inside ?_).symm
    exact FreeIndices.contains_iff.mpr ⟨d, (FreeIndices.mem_repeated_iff.mp shared).1⟩
  have entry (ρ : Assignment) : v.value f (update ρ) [] * v.value component (update ρ) [] =
      v.value f ρ [] * v.value t ρ c := by
    rw [v.value_along along, Assignment.bind_all_zip distinct (axes.trans length.symm),
      v.value_bound steady typed absent, v.value_bound steady typed' absent']
  calc v.value p ρ c
      = v.value product (update ρ) [] := v.value_as_tensor steady built
          (fun tensor shape free same i member inside =>
            bound ⟨tensor, shape, free, same, i, member, inside⟩) (length.trans axes.symm) third
    _ = sumAlong (f.free.repeated t.free)
          (fun ρ => v.value f ρ [] * v.value component ρ []) (update ρ) := by
        rw [v.value_contracted_product exact second, along.repeated absent']
    _ = sumAlong (f.free.repeated t.free)
          (fun ρ => v.value f (update ρ) [] * v.value component (update ρ) []) ρ :=
        sum_along_update update apart ρ
    _ = sumAlong (f.free.repeated t.free) (fun ρ => v.value f ρ [] * v.value t ρ c) ρ := by
        simp only [entry]

theorem value_facing {outer inner : Shape} {n : Nat} {left right product : Expr} (steady : v.Steady)
    (typed : WellTyped a) (typed' : WellTyped b)
    (facing : Facing a b left right outer inner n rows columns middle)
    (length : c.length = (outer ++ inner).length) (run : left.contractedProduct right = .ok product)
    (last : product.asTensor (rows ++ columns) = .ok p) (ρ : Assignment) :
    v.value p ρ c = sumAlong (a.free.repeated b.free) (fun ρ => ∑ k ∈ Finset.range n,
      v.value a ρ (c.take outer.length ++ [k]) * v.value b ρ (k :: c.drop outer.length)) ρ := by
  have axes : (rows ++ columns).length = c.length := by
    simp [length, facing.length, facing.length']
  have bound := (facing.product_bound run).1
  have built := contracted_product_typed facing.first.typed facing.second.typed run
  -- The axes and the contracted index are bound apart from what is shared, and so first or last.
  let update : Nat → Assignment → Assignment := placed (rows ++ columns) middle c
  have apart (k : Nat) (i : Index) (member : i ∈ (a.free.repeated b.free).map Prod.fst) :
      ∀ ρ position, (update k ρ).bind i position = update k (ρ.bind i position) := by
    obtain ⟨⟨_, d⟩, shared, rfl⟩ := List.mem_map.mp member
    have known := FreeIndices.contains_iff.mpr ⟨d, (FreeIndices.mem_repeated_iff.mp shared).1⟩
    exact placed_bind (fun inside => facing.absent _ (.inl inside) known)
      (fun same => facing.absent _ (.inr same) known) k
  have entry (k : Nat) (ρ : Assignment) :
      v.value left (update k ρ) [] * v.value right (update k ρ) [] =
        v.value a ρ (c.take outer.length ++ [k]) * v.value b ρ (k :: c.drop outer.length) := by
    obtain ⟨row, column⟩ :=
      Denotes.split_positions (placed_positions facing.distinct facing.outside axes k ρ)
    have here : placed (rows ++ columns) middle c k ρ middle = k := Assignment.bind_same _ _ _
    rw [v.value_along facing.first, v.value_along facing.second,
      v.value_placed steady typed facing.absent, v.value_placed steady typed' facing.absent']
    simp only [update, List.map_append, List.map_cons, List.map_nil, row, column, here, facing.length]
  calc v.value p ρ c
      = v.value product (ρ.bindAll ((rows ++ columns).zip c)) [] := v.value_as_tensor steady built
          (fun tensor shape free same i member inside =>
            bound ⟨tensor, shape, free, same, i, member, inside⟩) axes.symm last
    _ = ∑ k ∈ Finset.range n, sumAlong (a.free.repeated b.free)
          (fun ρ => v.value left ρ [] * v.value right ρ []) (update k ρ) := by
        rw [v.value_contracted_product exact run, facing.repeated, sum_along_append]
        rfl
    _ = ∑ k ∈ Finset.range n, sumAlong (a.free.repeated b.free)
          (fun ρ => v.value left (update k ρ) [] * v.value right (update k ρ) []) ρ :=
        Finset.sum_congr rfl fun k _ => sum_along_update (update k) (apart k) ρ
    _ = sumAlong (a.free.repeated b.free) (fun ρ => ∑ k ∈ Finset.range n,
          v.value left (update k ρ) [] * v.value right (update k ρ) []) ρ := sum_along_comm ρ
    _ = _ := by simp only [entry]

theorem value_contract {outer inner : Shape} {n : Nat} (steady : v.Steady) (typed : WellTyped a)
    (typed' : WellTyped b) (shape : a.shape = outer ++ [n]) (shape' : b.shape = n :: inner)
    (below : supply.Past a) (below' : supply.Past b)
    (length : c.length = (outer ++ inner).length) (run : a.contract b supply = .ok (p, after))
    (ρ : Assignment) :
    v.value p ρ c = sumAlong (a.free.repeated b.free) (fun ρ => ∑ k ∈ Finset.range n,
      v.value a ρ (c.take outer.length ++ [k]) * v.value b ρ (k :: c.drop outer.length)) ρ := by
  obtain ⟨_, left, right, product, first, second, third, fourth, _⟩ :=
    (contract_runs shape shape').mp run
  have apart := next_axes_apart outer.length inner.length below below'
  rw [Fresh.next_indices_add] at fourth
  have facing := apart.facing typed typed' shape shape' (Fresh.next_indices_length _ _)
    (Fresh.next_indices_length _ _) first second
  exact v.value_facing exact steady typed typed' facing length third fourth ρ

/-- A component of a product is the sum, over all positions of the indices that both factors have, of the
products of their components. -/
theorem value_mul (steady : v.Steady) (typed : WellTyped a) (typed' : WellTyped b)
    (below : supply.Past a) (below' : supply.Past b)
    (length : c.length = p.shape.length) (run : a.mul b supply = .ok (p, after)) (ρ : Assignment) :
    v.value p ρ c = sumAlong (a.free.repeated b.free) (fun ρ => v.productAt a b ρ c) ρ := by
  obtain ⟨total, type⟩ := mul_type typed typed' below below'
  obtain ⟨_, compatible⟩ := total.mp ⟨p, after, run⟩
  have shaped := (type p after run).1
  obtain ⟨scalar, scalar', same⟩ | ⟨scalar, tensor, same⟩ | ⟨tensor, scalar, same⟩ |
    ⟨m, n, n', inner, shape, shape', few, same⟩ | ⟨none, error, same⟩ := mul_cases a b
  · rw [scalar, scalar'] at shaped
    obtain rfl : c = [] := by
      have none : p.shape = [] := (Option.some.inj shaped).symm
      rw [none] at length
      exact List.eq_nil_of_length_eq_zero length
    rw [same, Fresh.lift_ok] at run
    rw [v.value_contracted_product exact run.1]
    simp only [productAt, scalar]
  · rw [scalar] at shaped
    have length' : c.length = b.shape.length := by rw [length, ← Option.some.inj shaped]
    rw [same] at run
    rw [v.value_scale exact steady typed' typed tensor below' below length' run]
    simp only [productAt, scalar]
  · have length' : c.length = a.shape.length := by
      cases shape : a.shape with
      | nil => exact absurd shape tensor
      | cons =>
          rw [shape, scalar] at shaped
          rw [length, ← Option.some.inj shaped]
    rw [same] at run
    rw [v.value_scale exact steady typed typed' tensor below below' length' run,
      FreeIndices.repeated_symm compatible.symm]
    refine congrArg (sumAlong _ · ρ) (funext fun ρ => ?_)
    cases shape : a.shape with
    | nil => exact absurd shape tensor
    | cons => simp only [productAt, shape, scalar, mul_comm]
  · rw [shape, shape', product_shape_matrix few] at shaped
    by_cases fits : n = n'
    · subst fits
      rw [if_pos rfl] at shaped
      have length' : c.length = ([m] ++ inner).length := by rw [length, ← Option.some.inj shaped]
      rw [same] at run
      rw [v.value_contract exact steady typed typed' shape shape' below below' length' run]
      simp only [productAt, shape, shape', rank, List.length_append, List.length_singleton]
      rfl
    · rw [if_neg fits] at shaped
      cases shaped
  · rw [none] at shaped
    cases shaped

end Exact

end RingValuation

namespace Expr

variable {a b : Expr} {supply : Supply}

/-- Two expressions can be multiplied just where their shapes have a product and the indices that both
have agree on their dimensions. The product has that shape, what only one factor has is free in it, and
its components are sums, over all positions of the indices that both have, of the products of theirs. -/
theorem mul_sums_shared (made : Constructible a) (made' : Constructible b)
    (below : supply.Past a) (below' : supply.Past b) :
    ((∃ p after, a.mul b supply = .ok (p, after)) ↔
      (∃ shape, productShape a.shape b.shape = some shape) ∧ a.free.Compatible b.free) ∧
    ∀ p after, a.mul b supply = .ok (p, after) →
      productShape a.shape b.shape = some p.shape ∧
      (∀ i d, p.free.dim? i = some d ↔ ¬ (a.free.contains i = true ∧ b.free.contains i = true) ∧
        (a.free.dim? i = some d ∨ b.free.dim? i = some d)) ∧
      ∀ {R : Type u} [CommRing R] (v : RingValuation R), v.Steady →
        (v.FoldsExactly fun folding => @mul folding a b supply) → ∀ ρ c, c.length = p.shape.length →
          v.value p ρ c = sumAlong (a.free.repeated b.free) (fun ρ => v.productAt a b ρ c) ρ := by
  have typed : WellTyped a := made.well_typed
  have typed' : WellTyped b := made'.well_typed
  obtain ⟨total, type⟩ := mul_type typed typed' below below'
  refine ⟨total, fun p after run => ⟨(type p after run).1, (type p after run).2, ?_⟩⟩
  intro R _ v steady exact ρ c length
  -- The run under exact folds is the same run.
  have run : @mul v.exactFolding a b supply = .ok (p, after) := exact.trans run
  let folding := v.exactFolding
  exact v.value_mul v.exact_folding_exact steady typed typed' below below' length run ρ

section Sample

/-- In the row of the matrix and in the component of the vector one index is free, over which their product is
summed: its second component is 3 times 2 plus 4 times 3. Two rows have no product. -/
theorem row_times_component :
    (∃ p after, squareRow.mul (componentAt 0) { index := 2 } = .ok (p, after) ∧ p.shape = [2] ∧
      (sampleReading.valuation none).value p (fun _ => 0) [1] = 18) ∧
    ¬ ∃ p after, squareRow.mul squareRow { index := 2 } = .ok (p, after) := by
  have below (e : Expr) (free : e.free = .single ⟨0⟩ 2) : Supply.Past { index := 2 } e := by
    intro i known
    obtain ⟨d, found⟩ := FreeIndices.contains_iff.mp known
    rw [free, ← FreeIndices.mem_entries_iff] at found
    obtain ⟨rfl, rfl⟩ : i = ⟨0⟩ ∧ d = 2 := by simpa [FreeIndices.single] using found
    decide
  refine ⟨?_, fun square => ?_⟩
  · let v := (sampleReading.valuation none).toRing
    have steady : v.Steady := Reading.valuation_steady (fun _ _ _ => rfl) none
    have exact : v.FoldsExactly fun folding => @mul folding squareRow (componentAt 0) { index := 2 } := by
      unfold RingValuation.FoldsExactly
      cbv
    obtain ⟨total, type⟩ := mul_sums_shared.{0} square_row_constructible
      (component_at_constructible 0) (below _ rfl) (below _ rfl)
    have compatible : squareRow.free.Compatible (componentAt 0).free := fun i d d' here there =>
      Option.some.inj (here.symm.trans there)
    obtain ⟨p, after, run⟩ := total.mpr ⟨⟨[2], rfl⟩, compatible⟩
    obtain ⟨shape, _, value⟩ := type p after run
    have shape : p.shape = [2] := (Option.some.inj shape).symm
    refine ⟨p, after, run, shape, ?_⟩
    refine (value v steady exact (fun _ => 0) [1] (by rw [shape]; rfl)).trans ?_
    have row (ρ : Assignment) : v.value squareRow ρ [1] = (ρ ⟨0⟩ : ℚ) + 3 := by
      have entry : v.value squareEntry (ρ.bindAll ([⟨1⟩].zip [1])) [] = (([ρ ⟨0⟩, 1].sum : Nat) : ℚ) + 2 := rfl
      refine (v.componentTensor squareEntry [⟨1⟩] [2] (.single ⟨0⟩ 2) ρ [1] rfl).trans (entry.trans ?_)
      push_cast [List.sum_cons, List.sum_nil]
      ring
    have component (ρ : Assignment) : v.value (componentAt 0) ρ [] = (ρ ⟨0⟩ : ℚ) + 2 := by
      show (([ρ ⟨0⟩].sum : Nat) : ℚ) + 2 = _
      simp
    have shared : squareRow.free.repeated (componentAt 0).free = [(⟨0⟩, 2)] := by decide
    rw [shared]
    simp only [sumAlong, Finset.sum_range_succ, Finset.sum_range_zero]
    show 0 + v.value squareRow _ [1] * v.value (componentAt 0) _ [] +
      v.value squareRow _ [1] * v.value (componentAt 0) _ [] = 18
    simp only [row, component, Assignment.bind_same]
    norm_num
  · have both := (mul_sums_shared.{0} square_row_constructible
      square_row_constructible (below _ rfl) (below _ rfl)).1.mp square
    obtain ⟨_, none⟩ := both.1
    cases none

end Sample

end Expr

end FormCalculus
