import FormCalculus.Symbol

/-!
The free indices of an expression: a finite map from index to dimension, kept in increasing
order of the index.
-/
set_option autoImplicit false

namespace FormCalculus

/-- An index met with two dimensions. -/
structure DimensionConflict where
  index : Index
  first : Nat
  second : Nat
deriving DecidableEq

/-- Keeps the entries in increasing order, replacing the dimension of an index already there. -/
def placeIndex (index : Index) (dim : Nat) : List (Index × Nat) → List (Index × Nat)
  | [] => [(index, dim)]
  | entry :: rest =>
      if index.number < entry.1.number then (index, dim) :: entry :: rest
      else if entry.1.number < index.number then entry :: placeIndex index dim rest
      else (index, dim) :: rest

theorem mem_place_index {index : Index} {dim : Nat} {entries : List (Index × Nat)}
    {entry : Index × Nat} (member : entry ∈ placeIndex index dim entries) :
    entry = (index, dim) ∨ entry ∈ entries := by
  induction entries with
  | nil => simpa [placeIndex] using member
  | cons head rest ih =>
      unfold placeIndex at member
      split at member
      · simpa using member
      · split at member
        · rcases List.mem_cons.mp member with same | inside
          · exact .inr (same ▸ List.mem_cons_self)
          · exact (ih inside).imp_right (List.mem_cons_of_mem head)
        · rcases List.mem_cons.mp member with same | inside
          · exact .inl same
          · exact .inr (List.mem_cons_of_mem head inside)

/-- The free indices of an expression with the dimension each ranges over. -/
structure FreeIndices where
  entries : List (Index × Nat)
  increasing : entries.Pairwise fun a b => a.1.number < b.1.number
deriving DecidableEq

theorem place_index_increasing (index : Index) (dim : Nat) {entries : List (Index × Nat)}
    (increasing : entries.Pairwise fun a b => a.1.number < b.1.number) :
    (placeIndex index dim entries).Pairwise fun a b => a.1.number < b.1.number := by
  induction entries with
  | nil => simp [placeIndex]
  | cons head rest ih =>
      obtain ⟨above, increasing⟩ := List.pairwise_cons.mp increasing
      unfold placeIndex
      split
      · rename_i less
        refine List.pairwise_cons.mpr ⟨?_, List.pairwise_cons.mpr ⟨above, increasing⟩⟩
        intro entry member
        rcases List.mem_cons.mp member with same | inside
        · exact same ▸ less
        · exact Nat.lt_trans less (above entry inside)
      · split
        · rename_i less
          refine List.pairwise_cons.mpr ⟨?_, ih increasing⟩
          intro entry member
          rcases mem_place_index member with same | inside
          · exact same ▸ less
          · exact above entry inside
        · refine List.pairwise_cons.mpr ⟨?_, increasing⟩
          intro entry member
          have less := above entry member
          show index.number < entry.1.number
          omega

namespace FreeIndices

def empty : FreeIndices := ⟨[], .nil⟩

instance : EmptyCollection FreeIndices := ⟨empty⟩

instance : Inhabited FreeIndices := ⟨empty⟩

def single (index : Index) (dim : Nat) : FreeIndices := ⟨[(index, dim)], by simp⟩

def isEmpty (set : FreeIndices) : Bool := set.entries.isEmpty

def size (set : FreeIndices) : Nat := set.entries.length

def indices (set : FreeIndices) : List Index := set.entries.map (·.1)

/-- The dimension of an index, if it is free. -/
def dim? (set : FreeIndices) (index : Index) : Option Nat := set.entries.lookup index

def contains (set : FreeIndices) (index : Index) : Bool := (set.dim? index).isSome

/-- Adds an index; one that is free already has to keep its dimension. -/
def insert (set : FreeIndices) (index : Index) (dim : Nat) :
    Except DimensionConflict FreeIndices :=
  match set.dim? index with
  | none => .ok ⟨placeIndex index dim set.entries, place_index_increasing index dim set.increasing⟩
  | some present => if present = dim then .ok set else .error ⟨index, present, dim⟩

def erase (set : FreeIndices) (index : Index) : FreeIndices :=
  ⟨set.entries.filter fun entry => entry.1 ≠ index, set.increasing.filter _⟩

/-- Adds the entries one by one, stopping at the first conflict. -/
def insertAll (set : FreeIndices) : List (Index × Nat) → Except DimensionConflict FreeIndices
  | [] => .ok set
  | (index, dim) :: rest => do (← set.insert index dim).insertAll rest

def union (a b : FreeIndices) : Except DimensionConflict FreeIndices := a.insertAll b.entries

/-- The entries of `a` whose index is free in `b` too. -/
def repeated (a b : FreeIndices) : List (Index × Nat) := a.entries.filter fun entry => b.contains entry.1

/-- The set built from `entries` in the given order. -/
def ofList (entries : List (Index × Nat)) : Except DimensionConflict FreeIndices :=
  empty.insertAll entries

end FreeIndices

end FormCalculus
