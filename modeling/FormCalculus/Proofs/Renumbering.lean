import FormCalculus.Build.Indexing
import FormCalculus.Proofs.Agreeing
import FormCalculus.Proofs.FreeIndexSet

/-!
Renumbering indices in a way that keeps their order. What is done with free indices and subscripts is
done with the renumbered ones in the same way.
-/
set_option autoImplicit false

namespace FormCalculus

/-- New numbers for the indices, in the same order. -/
structure Renumbering where
  index : Index → Index
  ordered : ∀ i j, (index i).number < (index j).number ↔ i.number < j.number

namespace Renumbering

variable (ρ : Renumbering)

theorem injective : Function.Injective ρ.index := by
  intro i j same
  have below := ρ.ordered i j
  have above := ρ.ordered j i
  rw [same] at below above
  have numbers : i.number = j.number := by omega
  exact congrArg Index.mk numbers

@[simp] theorem index_eq_iff {i j : Index} : ρ.index i = ρ.index j ↔ i = j := ρ.injective.eq_iff

def item : IndexItem → IndexItem
  | .fixed position => .fixed position
  | .free index => .free (ρ.index index)

theorem item_injective : Function.Injective ρ.item := by
  intro i j same
  cases i <;> cases j <;> simp_all [item]

def entry (entry : Index × Nat) : Index × Nat := (ρ.index entry.1, entry.2)

theorem entry_injective : Function.Injective ρ.entry := by
  rintro ⟨i, d⟩ ⟨j, e⟩ same
  simp_all [entry]

def free (set : FreeIndices) : FreeIndices :=
  ⟨set.entries.map ρ.entry, set.increasing.map _ fun a b => (ρ.ordered a.1 b.1).mpr⟩

theorem free_injective : Function.Injective ρ.free := by
  rintro ⟨entries, _⟩ ⟨entries', _⟩ same
  have equal := (FreeIndices.mk.injEq ..).mp same
  exact (FreeIndices.mk.injEq ..).mpr (List.map_injective_iff.mpr ρ.entry_injective equal)

@[simp] theorem free_eq_iff {a b : FreeIndices} : ρ.free a = ρ.free b ↔ a = b :=
  ρ.free_injective.eq_iff

@[simp] theorem free_empty : ρ.free ∅ = ∅ := rfl

@[simp] theorem free_is_empty (a : FreeIndices) : (ρ.free a).isEmpty = a.isEmpty :=
  List.isEmpty_map

@[simp] theorem free_indices (a : FreeIndices) : (ρ.free a).indices = a.indices.map ρ.index := by
  simp only [FreeIndices.indices, free, List.map_map]
  rfl

/-- Renumbered indices are looked up among renumbered ones. -/
theorem lookup_entry (entries : List (Index × Nat)) (i : Index) :
    (entries.map ρ.entry).lookup (ρ.index i) = entries.lookup i := by
  induction entries with
  | nil => rfl
  | cons head rest ih =>
      have same : (ρ.index i == ρ.index head.1) = (i == head.1) := by
        rw [Bool.eq_iff_iff, beq_iff_eq, beq_iff_eq, index_eq_iff]
      obtain ⟨j, d⟩ := head
      rw [List.map_cons, entry, List.lookup_cons, List.lookup_cons, same, ih]

@[simp] theorem free_dim (a : FreeIndices) (i : Index) : (ρ.free a).dim? (ρ.index i) = a.dim? i :=
  ρ.lookup_entry a.entries i

@[simp] theorem free_contains (a : FreeIndices) (i : Index) :
    (ρ.free a).contains (ρ.index i) = a.contains i := by
  rw [FreeIndices.contains, free_dim, FreeIndices.contains]

theorem free_erase (a : FreeIndices) (i : Index) :
    (ρ.free a).erase (ρ.index i) = ρ.free (a.erase i) := by
  refine (FreeIndices.mk.injEq ..).mpr ?_
  show (a.entries.map ρ.entry).filter _ = (a.entries.filter _).map ρ.entry
  rw [List.filter_map]
  congr 1
  refine List.filter_congr fun e _ => ?_
  simp [entry]

theorem place_index (i : Index) (d : Nat) (entries : List (Index × Nat)) :
    placeIndex (ρ.index i) d (entries.map ρ.entry) = (placeIndex i d entries).map ρ.entry := by
  induction entries with
  | nil => rfl
  | cons head rest ih =>
      simp only [List.map_cons, placeIndex, entry, ρ.ordered]
      split
      · rfl
      · split
        · rw [List.map_cons, ← ih]
          rfl
        · rfl

theorem insert_agrees (a : FreeIndices) (i : Index) (d : Nat) :
    Agree (fun r r' => r' = ρ.free r) (a.insert i d) ((ρ.free a).insert (ρ.index i) d) := by
  unfold FreeIndices.insert
  rw [free_dim]
  split
  · exact .ok ((FreeIndices.mk.injEq ..).mpr (ρ.place_index i d a.entries))
  · exact .ite Iff.rfl (.ok rfl) .error

theorem insert_all_agrees (a : FreeIndices) (entries : List (Index × Nat)) :
    Agree (fun r r' => r' = ρ.free r) (a.insertAll entries)
      ((ρ.free a).insertAll (entries.map ρ.entry)) := by
  induction entries generalizing a with
  | nil => exact .ok rfl
  | cons head rest ih =>
      obtain ⟨i, d⟩ := head
      refine (ρ.insert_agrees a i d).bind fun middle _ same => ?_
      rw [same]
      exact ih middle

theorem join_agrees (a b : FreeIndices) :
    Agree (fun r r' => r' = ρ.free r) (a.join b) ((ρ.free a).join (ρ.free b)) :=
  (ρ.insert_all_agrees a b.entries).mapError _ _

theorem repeated_indices (a b : FreeIndices) :
    ((ρ.free a).repeated (ρ.free b)).map (·.1) = ((a.repeated b).map (·.1)).map ρ.index := by
  unfold FreeIndices.repeated
  show ((a.entries.map ρ.entry).filter _).map _ = _
  rw [List.filter_map, List.map_map, List.map_map]
  have same : (a.entries.filter ((fun e : Index × Nat => (ρ.free b).contains e.1) ∘ ρ.entry)) =
      a.entries.filter fun e => b.contains e.1 :=
    List.filter_congr fun e _ => ρ.free_contains b e.1
  rw [same]
  rfl

@[simp] theorem free_items (items : List IndexItem) :
    (items.map ρ.item).filterMap IndexItem.free? =
      (items.filterMap IndexItem.free?).map ρ.index := by
  rw [List.filterMap_map, List.map_filterMap]
  refine List.filterMap_congr fun item _ => ?_
  cases item <;> rfl

@[simp] theorem items_of_indices (indices : List Index) :
    (indices.map ρ.index).map IndexItem.free = (indices.map IndexItem.free).map ρ.item := by
  rw [List.map_map, List.map_map]
  rfl

open Expr in
theorem subscript_indices (items : List IndexItem) :
    subscriptIndices (items.map ρ.item) = (subscriptIndices items).map ρ.index := by
  have placed (indices : List Index) (entries : List (Index × Nat)) :
      (indices.map ρ.index).foldl (fun entries index => placeIndex index 0 entries)
        (entries.map ρ.entry) =
      (indices.foldl (fun entries index => placeIndex index 0 entries) entries).map ρ.entry := by
    induction indices generalizing entries with
    | nil => rfl
    | cons i rest ih => rw [List.map_cons, List.foldl_cons, place_index, ih, List.foldl_cons]
  unfold subscriptIndices
  rw [free_items, ← List.map_nil (f := ρ.entry), placed, List.map_map, List.map_map]
  rfl

end Renumbering

end FormCalculus
