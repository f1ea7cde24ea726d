import FormCalculus.Proofs.SummationConvention

/-!
Components of tensors along fresh indices, to be multiplied and made into a tensor again. The indices are
free in the component besides those that are free in the tensor, and binding them leaves none behind. Of
two tensors that are contracted the components share one such index.
-/
set_option autoImplicit false

namespace FormCalculus

namespace FreeIndices

variable {a b c : FreeIndices}

/-- Indices that both have are given one dimension. -/
def Compatible (a b : FreeIndices) : Prop :=
  ∀ i d d', a.dim? i = some d → b.dim? i = some d' → d = d'

theorem Compatible.symm (compatible : Compatible a b) : Compatible b a :=
  fun i d d' here there => (compatible i d' d there here).symm

theorem IsUnion.compatible (union : IsUnion c a b) : Compatible a b := fun i d d' here there =>
  Option.some.inj (((union i d).mpr (.inl here)).symm.trans ((union i d').mpr (.inr there)))

/-- Which of two compatible sets comes first makes no difference to what they share. -/
theorem repeated_symm (compatible : Compatible a b) : a.repeated b = b.repeated a := by
  refine repeated_eq (b.increasing.filter _) fun i d => ?_
  refine mem_repeated_iff.trans ⟨fun ⟨there, here⟩ => ?_, fun ⟨here, there⟩ => ?_⟩
  · obtain ⟨d', here⟩ := contains_iff.mp here
    obtain rfl := compatible i d' d here there
    exact ⟨here, contains_iff.mpr ⟨d', there⟩⟩
  · obtain ⟨d', there⟩ := contains_iff.mp there
    obtain rfl := compatible i d d' here there
    exact ⟨there, contains_iff.mpr ⟨d, here⟩⟩

theorem repeated_congr (same : ∀ i, a.contains i = true → (b.contains i = true ↔ c.contains i = true)) :
    a.repeated b = a.repeated c := by
  refine List.filter_congr fun entry member => Bool.eq_iff_iff.mpr (same entry.1 ?_)
  exact contains_iff.mpr ⟨entry.2, (mem_entries_iff a _ _).mp member⟩

end FreeIndices

/-- The free indices of the expression have been handed out before. -/
def Supply.Past (supply : Supply) (e : Expr) : Prop :=
  ∀ i, e.free.contains i = true → i.number < supply.index

namespace Expr

open Denotes FreeIndices

variable {a b e r : Expr} {indices : List Index}

theorem subscript_well_typed {items : List IndexItem} (typed : WellTyped a)
    (run : a.subscript items = .ok r) : WellTyped r := by
  have built : Built (fun _ => True) WellTyped r := .subscript trivial (.given typed) run
  exact built.well_typed fun _ typed => typed

/-! Components along indices that are not free in the tensor. -/

/-- The component of a tensor along indices. -/
structure Along (a : Expr) (indices : List Index) (r : Expr) : Prop where
  run : a.subscript (indices.map .free) = .ok r
  typed : WellTyped r
  scalar : r.shape = []
  dims : ∀ i d, r.free.dim? i = some d ↔ a.free.dim? i = some d ∨ (i, d) ∈ indices.zip a.shape

theorem subscript_along (typed : WellTyped a) (run : a.subscript (indices.map .free) = .ok r) :
    Along a indices r := by
  obtain ⟨scalar, subscribes⟩ := subscript_type typed run
  exact ⟨run, subscript_well_typed typed run, scalar, fun i d => by rw [subscribes.dims, mem_zip_free]⟩

theorem along_total (typed : WellTyped a) (distinct : indices.Nodup)
    (absent : ∀ i ∈ indices, ¬ a.free.contains i = true) (length : indices.length = a.shape.length) :
    ∃ r, Along a indices r := by
  have length' : (indices.map IndexItem.free).length = a.shape.length := by rwa [List.length_map]
  obtain ⟨free, subscribes⟩ := exists_subscribes a.free length'
    (fun position dim member => by simpa using (List.of_mem_zip member).1)
    fun i d d' here there => by
      have pair := mem_zip_free.mp here
      rcases there with known | there
      · exact absurd (contains_iff.mpr ⟨d', known⟩) (absent i (List.of_mem_zip pair).1)
      · exact zip_unique distinct (mem_zip_free.mp there) pair
  obtain ⟨r, run⟩ := typed_subscript_total typed subscribes
  exact ⟨r, subscript_along typed run⟩

/-- To what is free elsewhere the indices are no addition. -/
theorem Along.shared (along : Along a indices r) {i : Index} (other : i ∉ indices) (d : Nat) :
    r.free.dim? i = some d ↔ a.free.dim? i = some d := by
  have absent : (i, d) ∉ indices.zip a.shape := fun member => other (List.of_mem_zip member).1
  rw [along.dims, or_iff_left absent]

theorem not_leaves_free (other : e.kind ≠ .indexed) : ¬ e.LeavesFree indices := by
  rintro ⟨_, _, _, rfl, _⟩
  exact other rfl

/-- Binding indices that are not free in a tensor leaves none of them free, where its component along
others is bound. -/
theorem Along.bound (along : Along a indices r) (some : indices ≠ []) {others : List Index}
    (absent : ∀ i ∈ others, ¬ a.free.contains i = true) : ¬ r.LeavesFree others := by
  rintro ⟨tensor, shape, free, same, i, member, inside⟩
  have made := subscript_cases along.run
  generalize items : indices.map IndexItem.free = subscripts at made
  cases made with
  | whole => exact some (List.map_eq_nil_iff.mp items)
  | zero => cases same
  | identity | entry => obtain _ | ⟨_, _⟩ := indices <;> cases items
  | node =>
      cases same
      exact absent i member inside

theorem untouched_bound (typed : WellTyped e) (absent : ∀ i ∈ indices, ¬ e.free.contains i = true) :
    ¬ e.LeavesFree indices := by
  rintro ⟨tensor, shape, free, rfl, i, member, inside⟩
  obtain _ | ⟨types, _⟩ := typed
  exact absent i member (subset_contains (types_free types nofun nofun tensor (by simp)) inside)

/-- Over different indices that a scalar is not left free in, its tensor has their dimensions for its
shape. -/
theorem as_tensor_over {shape : Shape} (typed : WellTyped e) (scalar : e.shape = [])
    (distinct : indices.Nodup) (length : indices.length = shape.length)
    (known : ∀ i d, (i, d) ∈ indices.zip shape → e.free.dim? i = some d)
    (bound : ¬ e.LeavesFree indices) :
    (∃ t, e.asTensor indices = .ok t) ∧ ∀ t, e.asTensor indices = .ok t →
      t.shape = shape ∧ ∀ i d, t.free.dim? i = some d ↔ i ∉ indices ∧ e.free.dim? i = some d := by
  have free (i : Index) (member : i ∈ indices) : e.free.contains i = true := by
    obtain ⟨d, pair⟩ := partner_right length member
    exact contains_iff.mpr ⟨d, known i d pair⟩
  obtain ⟨dims, free, binds⟩ := exists_binds distinct free
  obtain rfl : dims = shape := by
    refine shape_unique binds.length length fun i d d' here there => ?_
    exact Option.some.inj ((binds.found i d here).symm.trans (known i d' there))
  refine ⟨as_tensor_total scalar binds, fun t run => ?_⟩
  obtain ⟨shape, rfl⟩ := (as_tensor_bound typed scalar binds run).mpr bound
  exact ⟨shape, binds.dims⟩

theorem next_untouched {supply : Supply} (count : Nat)
    (below : supply.Past e) (i : Index)
    (member : i ∈ Fresh.nextIndices supply count) : ¬ e.free.contains i = true := by
  intro known
  have less := below i known
  have bounds := Fresh.next_indices_bounds member
  omega

/-- What a scalar shares with a component along fresh indices it shares with the tensor. -/
theorem Along.repeated (along : Along a indices r) (absent : ∀ i ∈ indices, ¬ b.free.contains i = true) :
    b.free.repeated r.free = b.free.repeated a.free := by
  refine repeated_congr fun i known => ?_
  have other : i ∉ indices := fun member => absent i member known
  simp only [contains_iff, along.shared other]

theorem Along.compatible (along : Along a indices r)
    (absent : ∀ i ∈ indices, ¬ b.free.contains i = true) :
    Compatible b.free r.free ↔ Compatible b.free a.free := by
  have shared (i : Index) (d d' : Nat) (known : b.free.dim? i = some d) :
      r.free.dim? i = some d' ↔ a.free.dim? i = some d' :=
    along.shared (fun member => absent i member (contains_iff.mpr ⟨d, known⟩)) d'
  constructor
  · exact fun compatible i d d' here there => compatible i d d' here ((shared i d d' here).mpr there)
  · exact fun compatible i d d' here there => compatible i d d' here ((shared i d d' here).mp there)

theorem index_sums_bound {summed : List Index} (whole : ¬ e.LeavesFree indices)
    (run : e.indexSums summed = .ok r) : ¬ r.LeavesFree indices := by
  induction summed generalizing e with
  | nil =>
      cases run
      exact whole
  | cons i rest ih =>
      obtain ⟨once, sum, others⟩ := index_sums_cons run
      refine ih ?_ others
      obtain ⟨_, _, ⟨_, rfl⟩ | rfl⟩ := index_sum_cases sum
      · exact not_leaves_free nofun
      · exact not_leaves_free nofun

/-! Tensors contracted along one axis of each. -/

section Contracting

variable {outer inner : Shape} {n n' : Nat} {rows columns : List Index} {middle : Index}
  {left right : Expr}

/-- Indices along the axes of two factors, those of the contracted axes last: all of them different, and
none of them free in a factor. -/
structure AxesApart (a b : Expr) (rows columns : List Index) (middle : Index) : Prop where
  distinct : (rows ++ columns).Nodup
  outside : middle ∉ rows ++ columns
  absent : ∀ i, i ∈ rows ++ columns ∨ i = middle → ¬ a.free.contains i = true
  absent' : ∀ i, i ∈ rows ++ columns ∨ i = middle → ¬ b.free.contains i = true
  last : ∀ i, a.free.contains i = true → i.number < middle.number

theorem next_axes_apart {supply : Supply} (r c : Nat)
    (below : supply.Past a) (below' : supply.Past b) :
    AxesApart a b (Fresh.nextIndices supply r)
      (Fresh.nextIndices { supply with index := supply.index + r } c) ⟨supply.index + r + c⟩ := by
  have known (i : Index) (member : i ∈ Fresh.nextIndices supply (r + c) ∨ i = ⟨supply.index + r + c⟩) :
      supply.index ≤ i.number := by
    rcases member with next | rfl
    · exact (Fresh.next_indices_bounds next).1
    · show supply.index ≤ supply.index + r + c
      omega
  rw [Fresh.next_indices_add] at known
  refine ⟨?_, fun inside => ?_, fun i member inside => ?_, fun i member inside => ?_, fun i inside => ?_⟩
  · rw [← Fresh.next_indices_add]
    exact Fresh.next_indices_distinct supply (r + c)
  · rw [← Fresh.next_indices_add] at inside
    have bounds := (Fresh.next_indices_bounds inside).2
    simp only at bounds
    omega
  · have less := below i inside
    have bounds := known i member
    omega
  · have less := below' i inside
    have bounds := known i member
    omega
  · have less := below i inside
    show i.number < supply.index + r + c
    omega

/-- Components of two factors along such indices. -/
structure Facing (a b left right : Expr) (outer inner : Shape) (n : Nat) (rows columns : List Index)
    (middle : Index) : Prop extends AxesApart a b rows columns middle where
  shape : a.shape = outer ++ [n]
  shape' : b.shape = n :: inner
  length : rows.length = outer.length
  length' : columns.length = inner.length
  first : Along a (rows ++ [middle]) left
  second : Along b (middle :: columns) right

namespace AxesApart

variable (apart : AxesApart a b rows columns middle)

include apart

theorem left_once : (rows ++ [middle]).Nodup ∧ ∀ i ∈ rows ++ [middle], ¬ a.free.contains i = true := by
  have outside : middle ∉ rows := fun member => apart.outside (List.mem_append_left _ member)
  refine ⟨?_, fun i member => apart.absent i ?_⟩
  · refine List.nodup_append.mpr ⟨(List.nodup_append.mp apart.distinct).1, List.nodup_singleton _, ?_⟩
    rintro i row j single rfl
    exact outside (List.mem_singleton.mp single ▸ row)
  · simp only [List.mem_append, List.mem_singleton] at member ⊢
    tauto

theorem right_once : (middle :: columns).Nodup ∧ ∀ i ∈ middle :: columns, ¬ b.free.contains i = true := by
  have outside : middle ∉ columns := fun member => apart.outside (List.mem_append_right _ member)
  refine ⟨List.nodup_cons.mpr ⟨outside, (List.nodup_append.mp apart.distinct).2.1⟩,
    fun i member => apart.absent' i ?_⟩
  simp only [List.mem_append, List.mem_cons] at member ⊢
  tauto

variable (typed : WellTyped a) (typed' : WellTyped b) (shape : a.shape = outer ++ [n])
  (shape' : b.shape = n :: inner) (length : rows.length = outer.length)
  (length' : columns.length = inner.length)

include typed typed' shape shape' length length'

theorem facing (first : a.indexBy (rows ++ [middle]) = .ok left)
    (second : b.indexBy (middle :: columns) = .ok right) :
    Facing a b left right outer inner n rows columns middle := by
  obtain ⟨distinct, absent⟩ := apart.left_once
  obtain ⟨distinct', absent'⟩ := apart.right_once
  exact ⟨apart, shape, shape', length, length',
    subscript_along typed (index_by_once distinct absent first),
    subscript_along typed' (index_by_once distinct' absent' second)⟩

theorem facing_total : ∃ left right, a.indexBy (rows ++ [middle]) = .ok left ∧
    b.indexBy (middle :: columns) = .ok right ∧
      Facing a b left right outer inner n rows columns middle := by
  obtain ⟨distinct, absent⟩ := apart.left_once
  obtain ⟨distinct', absent'⟩ := apart.right_once
  obtain ⟨left, first⟩ := along_total typed distinct absent (by simp [shape, length])
  obtain ⟨right, second⟩ := along_total typed' distinct' absent' (by simp [shape', length'])
  exact ⟨left, right, (index_by_of_once distinct absent).trans first.run,
    (index_by_of_once distinct' absent').trans second.run,
    apart, shape, shape', length, length', first, second⟩

end AxesApart

namespace Facing

variable (facing : Facing a b left right outer inner n rows columns middle)

include facing

theorem left_dims (i : Index) (d : Nat) : left.free.dim? i = some d ↔
    a.free.dim? i = some d ∨ (i, d) ∈ rows.zip outer ∨ (i = middle ∧ d = n) := by
  rw [facing.first.dims, facing.shape, List.zip_append facing.length]
  simp

theorem right_dims (i : Index) (d : Nat) : right.free.dim? i = some d ↔
    b.free.dim? i = some d ∨ (i, d) ∈ columns.zip inner ∨ (i = middle ∧ d = n) := by
  rw [facing.second.dims, facing.shape', List.zip_cons_cons, List.mem_cons, Prod.mk.injEq,
    or_comm (a := i = middle ∧ d = n)]

/-- An index along no axis is free where it was before. -/
theorem elsewhere {i : Index} (other : i ∉ rows ++ columns) (other' : i ≠ middle) (d : Nat) :
    (left.free.dim? i = some d ↔ a.free.dim? i = some d) ∧
      (right.free.dim? i = some d ↔ b.free.dim? i = some d) := by
  have row : (i, d) ∉ rows.zip outer := fun pair =>
    other (List.mem_append_left _ (List.of_mem_zip pair).1)
  have column : (i, d) ∉ columns.zip inner := fun pair =>
    other (List.mem_append_right _ (List.of_mem_zip pair).1)
  simp [facing.left_dims, facing.right_dims, row, column, other']

/-- The index of the contracted axes has their dimension in both. -/
theorem at_middle (d : Nat) :
    (left.free.dim? middle = some d ↔ d = n) ∧ (right.free.dim? middle = some d ↔ d = n) := by
  have free := not_contains_iff.mp (facing.absent middle (.inr rfl))
  have free' := not_contains_iff.mp (facing.absent' middle (.inr rfl))
  have row : (middle, d) ∉ rows.zip outer := fun pair =>
    facing.outside (List.mem_append_left _ (List.of_mem_zip pair).1)
  have column : (middle, d) ∉ columns.zip inner := fun pair =>
    facing.outside (List.mem_append_right _ (List.of_mem_zip pair).1)
  simp [facing.left_dims, facing.right_dims, row, column, free, free']

/-- An index along another axis is free in one factor only. -/
theorem at_axis {i : Index} (member : i ∈ rows ++ columns) (d : Nat) :
    (¬ (left.free.contains i = true ∧ right.free.contains i = true)) ∧
      ((left.free.dim? i = some d ∨ right.free.dim? i = some d) ↔
        (i, d) ∈ (rows ++ columns).zip (outer ++ inner)) := by
  have free := not_contains_iff.mp (facing.absent i (.inl member))
  have free' := not_contains_iff.mp (facing.absent' i (.inl member))
  have other : i ≠ middle := fun same => facing.outside (same ▸ member)
  rw [List.zip_append facing.length, List.mem_append]
  constructor
  · rintro ⟨here, there⟩
    obtain ⟨d, here⟩ := contains_iff.mp here
    obtain ⟨d', there⟩ := contains_iff.mp there
    have row : i ∈ rows := by
      have pair : (i, d) ∈ rows.zip outer := by simpa [free, other] using (facing.left_dims i d).mp here
      exact (List.of_mem_zip pair).1
    have column : i ∈ columns := by
      have pair : (i, d') ∈ columns.zip inner := by
        simpa [free', other] using (facing.right_dims i d').mp there
      exact (List.of_mem_zip pair).1
    exact (List.nodup_append.mp facing.distinct).2.2 i row i column rfl
  · simp [facing.left_dims, facing.right_dims, free, free', other]

theorem compatible_iff : Compatible left.free right.free ↔ Compatible a.free b.free := by
  constructor
  · intro compatible i d d' here there
    have known : a.free.contains i = true := contains_iff.mpr ⟨d, here⟩
    have other : i ∉ rows ++ columns := fun member => facing.absent i (.inl member) known
    have other' : i ≠ middle := fun same => facing.absent i (.inr same) known
    exact compatible i d d' ((facing.elsewhere other other' d).1.mpr here)
      ((facing.elsewhere other other' d').2.mpr there)
  · intro compatible i d d' here there
    -- Along an axis it is free in one of them only, and the contracted axes have one dimension.
    by_cases member : i ∈ rows ++ columns
    · exact absurd ⟨contains_iff.mpr ⟨d, here⟩, contains_iff.mpr ⟨d', there⟩⟩
        (facing.at_axis member d).1
    · by_cases same : i = middle
      · subst same
        rw [((facing.at_middle d).1.mp here), ((facing.at_middle d').2.mp there)]
      · exact compatible i d d' ((facing.elsewhere member same d).1.mp here)
          ((facing.elsewhere member same d').2.mp there)

/-- What the components share is what the factors share and, after that, the contracted index. -/
theorem repeated : left.free.repeated right.free = a.free.repeated b.free ++ [(middle, n)] := by
  have shared (i : Index) (d : Nat) (pair : (i, d) ∈ a.free.repeated b.free) :
      i ∉ rows ++ columns ∧ i ≠ middle ∧ i.number < middle.number := by
    have known := contains_iff.mpr ⟨d, (mem_repeated_iff.mp pair).1⟩
    exact ⟨fun member => facing.absent i (.inl member) known, fun same => facing.absent i (.inr same) known,
      facing.last i known⟩
  -- The contracted index is newer than all that are free in the factors, so it comes last.
  refine repeated_eq (List.pairwise_append.mpr ⟨a.free.increasing.filter _, List.pairwise_singleton _ _,
    fun entry member other single => ?_⟩) fun i d => ?_
  · obtain rfl := List.mem_singleton.mp single
    exact (shared entry.1 entry.2 member).2.2
  · rw [List.mem_append, List.mem_singleton, Prod.mk.injEq]
    by_cases member : i ∈ rows ++ columns
    · have none : (i, d) ∉ a.free.repeated b.free := fun pair => (shared i d pair).1 member
      have other : i ≠ middle := fun same => facing.outside (same ▸ member)
      refine iff_of_false (by simp [none, other]) fun ⟨here, there⟩ => ?_
      exact (facing.at_axis member d).1 ⟨contains_iff.mpr ⟨d, here⟩, there⟩
    · by_cases same : i = middle
      · subst same
        have none : (i, d) ∉ a.free.repeated b.free := fun pair => (shared i d pair).2.1 rfl
        have known : right.free.contains i = true :=
          contains_iff.mpr ⟨n, (facing.at_middle n).2.mpr rfl⟩
        simp [none, (facing.at_middle d).1, known]
      · rw [mem_repeated_iff, (facing.elsewhere member same d).1]
        simp [same, contains_iff, (facing.elsewhere member same _).2]

end Facing

end Contracting

end Expr

end FormCalculus
