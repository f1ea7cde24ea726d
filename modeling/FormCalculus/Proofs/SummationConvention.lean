import FormCalculus.Proofs.BindingIndices
import FormCalculus.Proofs.FreshIndices

/-!
The summation convention. A tensor can be subscripted just where each item fits its axis, each index
has one dimension and none occurs more than twice, the occurrence in the free indices of the tensor
included. The indices that occur once are free in the result, and those that occur twice are summed
over, each once.
-/
set_option autoImplicit false

namespace FormCalculus

universe u

/-- The sum of a term over all positions of some indices along their dimensions. -/
def sumAlong {R : Type*} [AddCommMonoid R] :
    List (Index × Nat) → (Assignment → R) → Assignment → R
  | [], term => term
  | (index, dim) :: rest, term =>
      sumAlong rest fun ρ => ∑ position ∈ Finset.range dim, term (ρ.bind index position)

namespace Expr

open Denotes

variable {a e r : Expr} {items : List IndexItem}

/-! The indices among subscripts. -/

/-- Placing an index keeps those that are there. -/
theorem mem_placed_indices {index i : Index} {dim : Nat} {entries : List (Index × Nat)}
    (known : i = index ∨ i ∈ entries.map Prod.fst) :
    i ∈ (placeIndex index dim entries).map Prod.fst := by
  induction entries with
  | nil => simpa [placeIndex] using known
  | cons head rest ih =>
      unfold placeIndex
      by_cases before : index.number < head.1.number
      · rw [if_pos before]
        exact List.mem_cons.mpr known
      · rw [if_neg before]
        by_cases behind : head.1.number < index.number
        · rw [if_pos behind, List.map_cons]
          rcases known with same | inside
          · exact List.mem_cons_of_mem _ (ih (.inl same))
          · rcases List.mem_cons.mp inside with here | below
            · exact here ▸ List.mem_cons_self
            · exact List.mem_cons_of_mem _ (ih (.inr below))
        · -- Two numbers of which neither is less belong to one index.
          have numbers : index.number = head.1.number := by omega
          have same : index = head.1 := congrArg Index.mk numbers
          rw [if_neg behind, List.map_cons, same]
          exact List.mem_cons.mpr (known.elim (fun here => .inl (here.trans same)) List.mem_cons.mp)

theorem subscript_indices_iff {i : Index} : i ∈ subscriptIndices items ↔ .free i ∈ items := by
  refine ⟨mem_subscript_indices, fun inside => ?_⟩
  have collected (indices : List Index) (entries : List (Index × Nat))
      (known : i ∈ indices ∨ i ∈ entries.map Prod.fst) :
      i ∈ (indices.foldl (fun entries index => placeIndex index 0 entries) entries).map Prod.fst := by
    induction indices generalizing entries with
    | nil => exact known.resolve_left List.not_mem_nil
    | cons index rest ih =>
        refine ih (placeIndex index 0 entries) ?_
        rcases known with listed | placed
        · rcases List.mem_cons.mp listed with here | below
          · exact .inr (mem_placed_indices (.inl here))
          · exact .inl below
        · exact .inr (mem_placed_indices (.inr placed))
  exact collected _ [] (.inl (List.mem_filterMap.mpr ⟨_, inside, rfl⟩))

theorem subscript_indices_distinct (items : List IndexItem) : (subscriptIndices items).Nodup := by
  have increasing : ((items.filterMap IndexItem.free?).foldl
      (fun entries index => placeIndex index 0 entries) []).Pairwise
        fun a b => a.1.number < b.1.number :=
    List.foldlRecOn _ _ .nil fun _ kept index _ => place_index_increasing index 0 kept
  exact List.pairwise_map.mpr (increasing.imp fun less same => by rw [same] at less; omega)

/-! Subscripts that a tensor accepts. -/

/-- The index is free in the tensor or subscripts an axis, with the dimension. -/
def UsedAlong (a : Expr) (items : List IndexItem) (i : Index) (d : Nat) : Prop :=
  a.free.dim? i = some d ∨ (.free i, d) ∈ items.zip a.shape

/-- One item for each axis, positions within their axes, one dimension for each index, and no index
more than twice. -/
structure Subscriptable (a : Expr) (items : List IndexItem) : Prop where
  length : items.length = a.shape.length
  within : ∀ position dim, (.fixed position, dim) ∈ items.zip a.shape → position < dim
  single : ∀ i d d', a.UsedAlong items i d → a.UsedAlong items i d' → d = d'
  seldom : ∀ i, a.occurrences items i ≤ 2

/-- The indices that occur twice, in increasing order. -/
def repeatedIndices (a : Expr) (items : List IndexItem) : List Index :=
  (subscriptIndices items).filter fun i => a.occurrences items i = 2

/-- An index occurs where it is used. -/
theorem occurrences_pos {i : Index} (length : items.length = a.shape.length) :
    0 < a.occurrences items i ↔ ∃ d, a.UsedAlong items i d := by
  unfold occurrences UsedAlong
  by_cases known : a.free.contains i = true
  · obtain ⟨d, found⟩ := FreeIndices.contains_iff.mp known
    rw [if_pos known]
    exact iff_of_true (by omega) ⟨d, .inl found⟩
  · rw [if_neg known, Nat.add_zero, List.count_pos_iff]
    constructor
    · intro inside
      obtain ⟨d, pair⟩ := partner_right length inside
      exact ⟨d, .inr pair⟩
    · rintro ⟨d, found | pair⟩
      · exact absurd (FreeIndices.contains_iff.mpr ⟨d, found⟩) known
      · exact (List.of_mem_zip pair).1

/-- An index that occurs twice is among the subscripts. -/
theorem mem_repeated_indices {i : Index} :
    i ∈ a.repeatedIndices items ↔ a.occurrences items i = 2 := by
  unfold repeatedIndices
  rw [List.mem_filter, subscript_indices_iff, decide_eq_true_iff]
  refine ⟨And.right, fun twice => ⟨?_, twice⟩⟩
  by_contra absent
  have none : items.count (.free i) = 0 := List.count_eq_zero.mpr absent
  unfold occurrences at twice
  split at twice <;> omega

theorem repeated_indices_distinct (a : Expr) (items : List IndexItem) :
    (a.repeatedIndices items).Nodup :=
  (subscript_indices_distinct items).filter _

theorem index_runs : a.index items = .ok r ↔ (∀ i, a.occurrences items i ≤ 2) ∧
    ∃ one, a.subscript items = .ok one ∧ one.indexSums (a.repeatedIndices items) = .ok r := by
  unfold Expr.index
  cases search : (subscriptIndices items).find? fun i => 2 < a.occurrences items i with
  | some i =>
      have often : 2 < a.occurrences items i := by simpa using List.find?_some search
      simp only [search]
      refine iff_of_false nofun fun ⟨seldom, _⟩ => ?_
      have few := seldom i
      omega
  | none =>
      have seldom (i : Index) : a.occurrences items i ≤ 2 := by
        by_cases listed : i ∈ subscriptIndices items
        · simpa using List.find?_eq_none.mp search i listed
        · -- What is not among the subscripts occurs at most once.
          have none : items.count (.free i) = 0 :=
            List.count_eq_zero.mpr fun inside => listed (subscript_indices_iff.mpr inside)
          unfold occurrences
          split <;> omega
      simp only [search]
      exact (except_bind_ok _ _ _).trans (and_iff_right seldom).symm

theorem subscripts_one (subscribes : Subscribes a.free items a.shape e.free) {i : Index} {d : Nat} :
    e.free.dim? i = some d ↔ a.UsedAlong items i d :=
  subscribes.dims i d

theorem index_total_iff (typed : WellTyped a) :
    (∃ r, a.index items = .ok r) ↔ a.Subscriptable items := by
  constructor
  · rintro ⟨r, run⟩
    obtain ⟨seldom, one, first, _⟩ := index_runs.mp run
    obtain ⟨_, subscribes⟩ := subscript_type typed first
    refine ⟨subscribes.length, subscribes.within, fun i d d' here there => ?_, seldom⟩
    have known := (subscripts_one subscribes).mpr here
    have known' := (subscripts_one subscribes).mpr there
    exact Option.some.inj (known.symm.trans known')
  · rintro ⟨length, within, single, seldom⟩
    obtain ⟨free, subscribes⟩ := exists_subscribes a.free length within
      fun i d d' here there => single i d' d there (.inr here)
    obtain ⟨one, first⟩ := typed_subscript_total typed subscribes
    obtain ⟨scalar, subscribes⟩ := subscript_type typed first
    obtain ⟨r, sums⟩ := index_sums_total scalar (repeated_indices_distinct a items) fun i member => by
      have twice := mem_repeated_indices.mp member
      have occurs : 0 < a.occurrences items i := by omega
      obtain ⟨d, used⟩ := (occurrences_pos length).mp occurs
      exact FreeIndices.contains_iff.mpr ⟨d, (subscripts_one subscribes).mpr used⟩
    exact ⟨r, index_runs.mpr ⟨seldom, one, first, sums⟩⟩

end Expr

namespace RingValuation

variable {R : Type*} [CommRing R] (v : RingValuation R) {c : Component}

/-- Index sums sum over the positions of their indices. -/
theorem value_index_sums {e r : Expr} {summed : List (Index × Nat)}
    (distinct : (summed.map Prod.fst).Nodup)
    (dims : ∀ i d, (i, d) ∈ summed → e.free.dim? i = some d)
    (run : e.indexSums (summed.map Prod.fst) = .ok r) (ρ : Assignment) :
    v.value r ρ c = sumAlong summed (fun ρ => v.value e ρ c) ρ := by
  -- The first index is summed over innermost.
  induction summed generalizing e with
  | nil =>
      cases run
      rfl
  | cons entry rest ih =>
      obtain ⟨i, d⟩ := entry
      obtain ⟨once, first, others⟩ := Expr.index_sums_cons run
      obtain ⟨absent, distinct⟩ := List.nodup_cons.mp distinct
      obtain ⟨_, free⟩ := Expr.index_sum_type first
      have inner (ρ : Assignment) : v.value once ρ c =
          ∑ position ∈ Finset.range d, v.value e (ρ.bind i position) c := by
        rw [v.value_index_sum first, dims i d List.mem_cons_self, Option.getD_some]
      rw [ih distinct (fun j e' member => ?_) others]
      · exact congrArg (sumAlong rest · ρ) (funext inner)
      · have other : j ≠ i := fun same => absent (same ▸ List.mem_map.mpr ⟨_, member, rfl⟩)
        rw [free, FreeIndices.erase_dim]
        exact ⟨other, dims j e' (List.mem_cons_of_mem _ member)⟩

end RingValuation

namespace Expr

variable {a : Expr} {items : List IndexItem}

/-- A tensor can be subscripted just by items that fit it. The result is a scalar in which the indices
that occur once are free, and its value is the component at the items summed over all positions of the
indices that occur twice. -/
theorem index_sums_repeated (made : Constructible a) (items : List IndexItem) :
    ((∃ r, a.index items = .ok r) ↔ a.Subscriptable items) ∧
    ∀ r, a.index items = .ok r → r.shape = [] ∧
      (∀ i d, r.free.dim? i = some d ↔ a.occurrences items i = 1 ∧ a.UsedAlong items i d) ∧
      ∃ summed : List (Index × Nat), (summed.map Prod.fst).Nodup ∧
        (∀ i d, (i, d) ∈ summed ↔ a.occurrences items i = 2 ∧ a.UsedAlong items i d) ∧
        (∃ one, a.subscript items = .ok one ∧ one.indexSums (summed.map Prod.fst) = .ok r) ∧
        ∀ {R : Type u} [CommRing R] (v : RingValuation R) ρ, v.value r ρ [] =
          sumAlong summed (fun ρ => v.value a ρ (items.map (IndexItem.position ρ))) ρ := by
  have typed : WellTyped a := made.well_typed
  refine ⟨index_total_iff typed, fun r run => ?_⟩
  obtain ⟨length, _, single, seldom⟩ := (index_total_iff typed).mp ⟨r, run⟩
  obtain ⟨_, one, first, sums⟩ := index_runs.mp run
  obtain ⟨scalar, subscribes⟩ := subscript_type typed first
  obtain ⟨scalar, dims⟩ := index_sums_type scalar sums
  refine ⟨scalar, fun i d => ?_, ?_⟩
  · rw [dims, mem_repeated_indices, subscripts_one subscribes]
    refine and_congr_left fun used => ?_
    have occurs := (occurrences_pos length).mpr ⟨d, used⟩
    have few := seldom i
    omega
  -- The indices that occur twice are free in the component, with the dimension they are used with.
  let summed := (a.repeatedIndices items).map fun i => (i, (one.free.dim? i).getD 0)
  have firsts : summed.map Prod.fst = a.repeatedIndices items := by
    rw [List.map_map]
    exact List.map_id _
  have listed (i : Index) (d : Nat) :
      (i, d) ∈ summed ↔ a.occurrences items i = 2 ∧ a.UsedAlong items i d := by
    rw [List.mem_map, ← mem_repeated_indices]
    constructor
    · rintro ⟨j, member, same⟩
      obtain ⟨rfl, rfl⟩ := Prod.mk.inj same
      have twice := mem_repeated_indices.mp member
      have occurs : 0 < a.occurrences items j := by omega
      obtain ⟨d, used⟩ := (occurrences_pos length).mp occurs
      rw [(subscripts_one subscribes).mpr used]
      exact ⟨member, used⟩
    · rintro ⟨member, used⟩
      exact ⟨i, member, by rw [(subscripts_one subscribes).mpr used]; rfl⟩
  have distinct : (summed.map Prod.fst).Nodup := firsts ▸ repeated_indices_distinct a items
  rw [← firsts] at sums
  refine ⟨summed, distinct, listed, ⟨one, first, sums⟩, fun v ρ => ?_⟩
  have known (i : Index) (d : Nat) (member : (i, d) ∈ summed) : one.free.dim? i = some d :=
    (subscripts_one subscribes).mpr ((listed i d).mp member).2
  rw [v.value_index_sums distinct known sums]
  exact congrArg (sumAlong summed · ρ) (funext fun ρ => v.value_subscript first)

section Sample

/-- The row of the matrix at its own index, summed over it. -/
def rowTrace : Expr := .node .indexSum [rowDiagonal, multiIndex [.free ⟨0⟩]] [] ∅

theorem row_used_along (i : Index) (d : Nat) :
    squareRow.UsedAlong [.free ⟨0⟩] i d ↔ i = ⟨0⟩ ∧ d = 2 := by
  have stored : squareRow.free.dim? i = some d ↔ i = ⟨0⟩ ∧ d = 2 := by
    rw [← FreeIndices.mem_entries_iff]
    simp [squareRow, Expr.free, FreeIndices.single]
  unfold UsedAlong
  rw [stored]
  simp [squareRow, Expr.shape]

/-- The index of the row is free in it, so that the row at this index is the trace of the matrix. There is
no third component of the row. -/
theorem row_trace : squareRow.index [.free ⟨0⟩] = .ok rowTrace ∧
    (∀ (v : RingValuation ℤ) ρ, v.value rowTrace ρ [] =
      v.value squareRow (ρ.bind ⟨0⟩ 0) [0] + v.value squareRow (ρ.bind ⟨0⟩ 1) [1]) ∧
    ¬ ∃ r, squareRow.index [.fixed 2] = .ok r := by
  have made : Constructible squareRow := square_row_constructible
  have run : squareRow.index [.free ⟨0⟩] = .ok rowTrace := by rfl
  refine ⟨run, ?_, fun third => ?_⟩
  · obtain ⟨_, _, summed, distinct, listed, _, value⟩ :=
      (index_sums_repeated.{0} made [.free ⟨0⟩]).2 rowTrace run
    have only : summed = [(⟨0⟩, 2)] := by
      refine List.perm_singleton.mp ((List.perm_ext_iff_of_nodup distinct.of_map (by simp)).mpr ?_)
      rintro ⟨i, d⟩
      rw [listed, row_used_along, List.mem_singleton, Prod.mk.injEq]
      refine and_iff_right_of_imp ?_
      rintro ⟨rfl, _⟩
      rfl
    intro v ρ
    rw [value v ρ, only]
    simp [sumAlong, Finset.sum_range_succ, IndexItem.position]
  · have fits := (index_sums_repeated.{0} made [.fixed 2]).1.mp third
    have inside := fits.within 2 2 List.mem_cons_self
    omega

end Sample

end Expr

end FormCalculus
