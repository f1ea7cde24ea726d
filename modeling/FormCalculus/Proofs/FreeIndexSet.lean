import Mathlib.Data.List.Sort
import FormCalculus.FreeIndices
import FormCalculus.Proofs.Outcome

/-!
A set of free indices is known by the dimension it gives each index. What insertion, removal and
union do to those dimensions.
-/
set_option autoImplicit false

namespace FormCalculus

theorem mem_place_index_iff {index : Index} {dim : Nat} {entries : List (Index × Nat)}
    (absent : ∀ entry ∈ entries, entry.1 ≠ index) (entry : Index × Nat) :
    entry ∈ placeIndex index dim entries ↔ entry = (index, dim) ∨ entry ∈ entries := by
  refine ⟨mem_place_index, ?_⟩
  induction entries with
  | nil => simp [placeIndex]
  | cons head rest ih =>
      obtain ⟨other, absent⟩ := List.forall_mem_cons.mp absent
      intro member
      unfold placeIndex
      split
      · exact List.mem_cons.mpr member
      · split
        · rcases member with rfl | member
          · exact List.mem_cons_of_mem _ (ih absent (.inl rfl))
          · rcases List.mem_cons.mp member with rfl | inside
            · exact List.mem_cons_self
            · exact List.mem_cons_of_mem _ (ih absent (.inr inside))
        · rename_i notBefore notAfter
          have same : head.1.number = index.number := by omega
          exact absurd (congrArg Index.mk same) other

namespace FreeIndices

variable {a b r : FreeIndices} {i j : Index} {d : Nat}

theorem mem_entries_iff (set : FreeIndices) (i : Index) (d : Nat) :
    (i, d) ∈ set.entries ↔ set.dim? i = some d := by
  obtain ⟨entries, increasing⟩ := set
  show _ ↔ entries.lookup i = some d
  induction entries with
  | nil => simp
  | cons head rest ih =>
      obtain ⟨index, dim⟩ := head
      obtain ⟨above, increasing⟩ := List.pairwise_cons.mp increasing
      rw [List.lookup_cons]
      by_cases same : i = index
      · subst same
        have elsewhere : (i, d) ∉ rest := fun inside => absurd (above (i, d) inside) (Nat.lt_irrefl _)
        simp [elsewhere, eq_comm]
      · have differs : (i == index) = false := beq_false_of_ne same
        simpa [same, differs] using ih increasing

/-- Sets that give every index the same dimension are the same. -/
theorem ext_dim (same : ∀ i d, a.dim? i = some d ↔ b.dim? i = some d) : a = b := by
  have irreflexive : Std.Irrefl fun x y : Index × Nat => x.1.number < y.1.number :=
    ⟨fun _ => Nat.lt_irrefl _⟩
  have entries : a.entries = b.entries :=
    a.increasing.eq_of_mem_iff b.increasing fun ⟨i, d⟩ => by
      rw [mem_entries_iff, mem_entries_iff, same]
  cases a
  cases b
  exact (FreeIndices.mk.injEq ..).mpr entries

theorem contains_iff : a.contains i = true ↔ ∃ d, a.dim? i = some d := Option.isSome_iff_exists

theorem not_contains_iff : ¬ a.contains i = true ↔ a.dim? i = none := by
  simp [contains]

theorem mem_indices_iff : i ∈ a.indices ↔ a.contains i = true := by
  rw [contains_iff, indices, List.mem_map]
  constructor
  · rintro ⟨⟨_, d⟩, inside, rfl⟩
    exact ⟨d, (mem_entries_iff a _ d).mp inside⟩
  · rintro ⟨d, found⟩
    exact ⟨(i, d), (mem_entries_iff a i d).mpr found, rfl⟩

@[simp] theorem empty_dim (i : Index) : (∅ : FreeIndices).dim? i = none := rfl

@[simp] theorem empty_contains (i : Index) : (∅ : FreeIndices).contains i = false := rfl

@[simp] theorem is_empty_iff : a.isEmpty = true ↔ a = ∅ := by
  obtain ⟨entries, increasing⟩ := a
  cases entries with
  | nil => exact ⟨fun _ => rfl, fun _ => rfl⟩
  | cons head rest => exact ⟨nofun, nofun⟩

theorem erase_dim (a : FreeIndices) (i j : Index) (d : Nat) :
    (a.erase i).dim? j = some d ↔ j ≠ i ∧ a.dim? j = some d := by
  rw [← mem_entries_iff, ← mem_entries_iff, erase, List.mem_filter, and_comm]
  simp

theorem insert_dim (run : a.insert i d = .ok r) (j : Index) (e : Nat) :
    r.dim? j = some e ↔ a.dim? j = some e ∨ (j = i ∧ e = d) := by
  rw [insert] at run
  cases found : a.dim? i with
  | none =>
      rw [found] at run
      cases run
      have absent : ∀ entry ∈ a.entries, entry.1 ≠ i := by
        rintro ⟨_, e⟩ inside rfl
        rw [(mem_entries_iff a _ e).mp inside] at found
        cases found
      rw [← mem_entries_iff, ← mem_entries_iff, mem_place_index_iff absent]
      simp [or_comm]
  | some present =>
      simp only [found] at run
      by_cases same : present = d
      · rw [if_pos same] at run
        cases run
        refine ⟨.inl, ?_⟩
        rintro (known | ⟨rfl, rfl⟩)
        · exact known
        · rw [found, same]
      · rw [if_neg same] at run
        cases run

theorem insert_all_dim {entries : List (Index × Nat)} (run : a.insertAll entries = .ok r)
    (j : Index) (e : Nat) : r.dim? j = some e ↔ a.dim? j = some e ∨ (j, e) ∈ entries := by
  induction entries generalizing a with
  | nil =>
      cases run
      simp
  | cons head rest ih =>
      obtain ⟨middle, first, others⟩ := (except_bind_ok _ _ _).mp run
      rw [ih others, insert_dim first, List.mem_cons, Prod.mk.injEq, or_assoc]

/-- What is free in `r` is what is free in `a` or in `b`. -/
def IsUnion (r a b : FreeIndices) : Prop :=
  ∀ i d, r.dim? i = some d ↔ a.dim? i = some d ∨ b.dim? i = some d

theorem union_is_union (run : a.union b = .ok r) : IsUnion r a b := by
  intro i d
  rw [insert_all_dim run, mem_entries_iff]

theorem IsUnion.symm (union : IsUnion r a b) : IsUnion r b a := fun i d => by
  rw [union i d, or_comm]

theorem IsUnion.unique {s : FreeIndices} (first : IsUnion r a b) (second : IsUnion s a b) : r = s :=
  ext_dim fun i d => by rw [first, second]

theorem is_union_empty (a : FreeIndices) : IsUnion a ∅ a := fun i d => by simp

/-- Free in `a` with the dimension it has in `b`. -/
instance : HasSubset FreeIndices := ⟨fun a b => ∀ i d, a.dim? i = some d → b.dim? i = some d⟩

theorem subset_refl (a : FreeIndices) : a ⊆ a := fun _ _ found => found

theorem empty_subset (a : FreeIndices) : ∅ ⊆ a := fun _ _ found => nomatch found

theorem subset_contains (inside : a ⊆ b) (found : a.contains i = true) : b.contains i = true := by
  obtain ⟨d, found⟩ := contains_iff.mp found
  exact contains_iff.mpr ⟨d, inside i d found⟩

theorem IsUnion.left_subset (union : IsUnion r a b) : a ⊆ r := fun i d found =>
  (union i d).mpr (.inl found)

theorem IsUnion.right_subset (union : IsUnion r a b) : b ⊆ r := fun i d found =>
  (union i d).mpr (.inr found)

theorem mem_repeated_iff : (i, d) ∈ a.repeated b ↔ a.dim? i = some d ∧ b.contains i = true := by
  rw [repeated, List.mem_filter, mem_entries_iff]

/-- The entries that two sets share are known by their order. -/
theorem repeated_eq {entries : List (Index × Nat)}
    (increasing : entries.Pairwise fun a b => a.1.number < b.1.number)
    (same : ∀ i d, (i, d) ∈ entries ↔ a.dim? i = some d ∧ b.contains i = true) :
    a.repeated b = entries := by
  have irreflexive : Std.Irrefl fun x y : Index × Nat => x.1.number < y.1.number :=
    ⟨fun _ => Nat.lt_irrefl _⟩
  refine (a.increasing.filter _).eq_of_mem_iff increasing fun ⟨i, d⟩ => ?_
  rw [same]
  exact mem_repeated_iff

end FreeIndices

end FormCalculus
