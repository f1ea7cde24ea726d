import FormCalculus.Proofs.ReadingFree
import FormCalculus.Proofs.Tameness

/-!
Indices that may be free, and fresh ones, by which tensors are subscripted without summing and over
which scalars are made into tensors.
-/
set_option autoImplicit false

namespace FormCalculus.Denotes

open Expr

variable {a r : Expr} {shape : Shape} {A B : Index → Nat → Prop} {supply : Supply}

/-- Nothing is free. -/
def Closed : Index → Nat → Prop := fun _ _ => False

theorem mem_subscript_indices {items : List IndexItem} {i : Index}
    (member : i ∈ subscriptIndices items) : .free i ∈ items := by
  have collected {indices : List Index} {entries : List (Index × Nat)}
      (member : i ∈ (indices.foldl (fun entries index => placeIndex index 0 entries) entries).map (·.1)) :
      i ∈ indices ∨ i ∈ entries.map (·.1) := by
    induction indices generalizing entries with
    | nil => exact .inr member
    | cons index rest ih =>
        rcases ih member with here | here
        · exact .inl (List.mem_cons_of_mem _ here)
        · obtain ⟨entry, inside, rfl⟩ := List.mem_map.mp here
          rcases mem_place_index inside with rfl | inside
          · exact .inl List.mem_cons_self
          · exact .inr (List.mem_map.mpr ⟨entry, inside, rfl⟩)
  rcases collected member with inside | inside
  · obtain ⟨item, inside, same⟩ := List.mem_filterMap.mp inside
    cases item with
    | fixed => cases same
    | free index => exact Option.some.inj same ▸ inside
  · cases inside

/-- Subscripting by indices that occur only once sums over none. -/
theorem index_of_once {items : List IndexItem}
    (once : ∀ i, .free i ∈ items → a.occurrences items i = 1) : a.index items = a.subscript items := by
  have none : (subscriptIndices items).filter (fun i => a.occurrences items i = 2) = [] :=
    List.filter_eq_nil_iff.mpr fun i member => by simp [once i (mem_subscript_indices member)]
  have few : (subscriptIndices items).find? (fun i => 2 < a.occurrences items i) = Option.none :=
    List.find?_eq_none.mpr fun i member => by simp [once i (mem_subscript_indices member)]
  unfold Expr.index
  simp only [few, none]
  cases a.subscript items <;> rfl

theorem index_once {items : List IndexItem} (once : ∀ i, .free i ∈ items → a.occurrences items i = 1)
    (run : a.index items = .ok r) : a.subscript items = .ok r :=
  (index_of_once once).symm.trans run

/-- Different indices that are not free in the tensor. -/
structure FreshFor (A : Index → Nat → Prop) (indices : List Index) : Prop where
  distinct : indices.Nodup
  absent : ∀ i d, i ∈ indices → ¬ A i d

/-- Subscripting by different indices that are not free in the tensor sums over none. -/
theorem index_by_of_once {indices : List Index} (distinct : indices.Nodup)
    (absent : ∀ i ∈ indices, ¬ a.free.contains i = true) :
    a.indexBy indices = a.subscript (indices.map .free) := by
  refine index_of_once fun i member => ?_
  have member : i ∈ indices := (List.mem_map_of_injective free_injective).mp member
  simp only [occurrences, absent i member]
  rw [List.count_map_of_injective _ _ free_injective]
  exact List.count_eq_one_of_mem distinct member

theorem index_by_once {indices : List Index} (distinct : indices.Nodup)
    (absent : ∀ i ∈ indices, ¬ a.free.contains i = true) (run : a.indexBy indices = .ok r) :
    a.subscript (indices.map .free) = .ok r :=
  (index_by_of_once distinct absent).symm.trans run

/-- Every index that may be free has a number that the supply has handed out. -/
def Below (A : Index → Nat → Prop) (supply : Supply) : Prop :=
  ∀ i d, A i d → i.number < supply.index

theorem fresh_next {supply : Supply} (below : Below A supply) (count : Nat) :
    FreshFor A (Fresh.nextIndices supply count) := by
  refine ⟨Fresh.next_indices_distinct supply count, fun i d member known => ?_⟩
  have handed := below i d known
  have bounds := Fresh.next_indices_bounds member
  omega

theorem zip_unique {indices : List Index} {i : Index} {d d' : Nat} (distinct : indices.Nodup)
    (pair : (i, d) ∈ indices.zip shape) (pair' : (i, d') ∈ indices.zip shape) : d = d' := by
  induction indices generalizing shape with
  | nil => cases pair
  | cons index rest ih =>
      cases shape with
      | nil => cases pair
      | cons dim shape =>
          obtain ⟨absent, distinct⟩ := List.nodup_cons.mp distinct
          rcases List.mem_cons.mp pair with here | below
          · cases here
            rcases List.mem_cons.mp pair' with here' | below'
            · cases here'
              rfl
            · exact absurd (List.of_mem_zip below').1 absent
          · rcases List.mem_cons.mp pair' with here' | below'
            · cases here'
              exact absurd (List.of_mem_zip below).1 absent
            · exact ih distinct below below'

/-- Shapes that give the same dimension along each index are the same. -/
theorem shape_unique {indices : List Index} {shape shape' : Shape}
    (length : indices.length = shape.length) (length' : indices.length = shape'.length)
    (same : ∀ i d d', (i, d) ∈ indices.zip shape → (i, d') ∈ indices.zip shape' → d = d') :
    shape = shape' := by
  induction indices generalizing shape shape' with
  | nil =>
      rw [List.eq_nil_of_length_eq_zero length.symm, List.eq_nil_of_length_eq_zero length'.symm]
  | cons index rest ih =>
      obtain _ | ⟨dim, shape⟩ := shape
      · cases length
      obtain _ | ⟨dim', shape'⟩ := shape'
      · cases length'
      rw [same index dim dim' List.mem_cons_self List.mem_cons_self]
      rw [ih (Nat.succ.inj length) (Nat.succ.inj length') fun i d d' pair pair' =>
        same i d d' (List.mem_cons_of_mem _ pair) (List.mem_cons_of_mem _ pair')]

theorem FreshFor.sublist {indices others : List Index} (fresh : FreshFor A indices)
    (part : others.Sublist indices) : FreshFor A others :=
  ⟨fresh.distinct.sublist part, fun i d member => fresh.absent i d (part.subset member)⟩

theorem FreshFor.mono {indices : List Index} (fresh : FreshFor A indices)
    (less : ∀ i d, B i d → A i d) : FreshFor B indices :=
  ⟨fresh.distinct, fun i d member known => fresh.absent i d member (less i d known)⟩

theorem FreshFor.swap {i j : Index} (fresh : FreshFor A [i, j]) : FreshFor A [j, i] := by
  refine ⟨?_, fun k d member => fresh.absent k d ?_⟩
  · simpa [eq_comm] using fresh.distinct
  · simpa [or_comm] using member

/-- Two indices, one taken after the other. -/
theorem fresh_pair (below : Below A supply) :
    FreshFor A [⟨supply.index⟩, ⟨supply.index + 1⟩] :=
  fresh_next below 2

theorem swap_zip {i j k : Index} {m n d : Nat} :
    (k, d) ∈ [j, i].zip [n, m] ↔ (k, d) ∈ [i, j].zip [m, n] := by
  simp [or_comm]

/-- Two indices bound to a component of a matrix. -/
theorem bind_pair {i j : Index} (ρ : Assignment) (distinct : [i, j].Nodup) (p q : Nat) :
    ρ.bindAll ([i, j].zip [p, q]) i = p ∧ ρ.bindAll ([i, j].zip [p, q]) j = q := by
  simpa using Assignment.bind_all_zip (ρ := ρ) (c := [p, q]) distinct rfl

/-- The positions along some axes and along those after them. -/
theorem split_positions {ρ : Assignment} {rows columns : List Index} {c : Component}
    (positions : (rows ++ columns).map ρ = c) :
    rows.map ρ = c.take rows.length ∧ columns.map ρ = c.drop rows.length := by
  subst positions
  simp

end FormCalculus.Denotes
