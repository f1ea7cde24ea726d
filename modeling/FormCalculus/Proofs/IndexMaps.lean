import Mathlib.Data.Finmap
import FormCalculus.Proofs.SearchingIndices
import FormCalculus.Proofs.FreshAxes

/-!
A set of free indices is a finite map from index to dimension. Whatever is inserted, removed and joined,
from the empty set on, the entries increase, and they are those of the map that the same changes make.
-/
set_option autoImplicit false

namespace FormCalculus

/-- Dimensions of finitely many indices. -/
abbrev DimensionMap : Type := Finmap fun _ : Index => Nat

/-- Indices that both maps have are given one dimension. -/
def DimensionMap.Agree (m m' : DimensionMap) : Prop :=
  ∀ i ∈ m.keys ∩ m'.keys, m.lookup i = m'.lookup i

instance (m m' : DimensionMap) : Decidable (m.Agree m') :=
  inferInstanceAs (Decidable (∀ i ∈ m.keys ∩ m'.keys, m.lookup i = m'.lookup i))

namespace FreeIndices

variable {a b c u : FreeIndices} {m m' : DimensionMap} {i : Index} {d : Nat}

theorem insert_refused (a : FreeIndices) (i : Index) (d : Nat) :
    (∃ conflict, a.insert i d = .error conflict) ↔ ∃ e, a.dim? i = some e ∧ e ≠ d := by
  unfold insert
  cases a.dim? i with
  | none => simp
  | some present => by_cases same : present = d <;> simp [same]

theorem insert_known (known : a.contains i = true) (run : a.insert i d = .ok u) : u = a := by
  obtain ⟨e, found⟩ := contains_iff.mp known
  unfold insert at run
  simp only [found] at run
  split at run <;> cases run
  rfl

theorem union_runs_iff (a b : FreeIndices) : (∃ u, a.union b = .ok u) ↔ Compatible a b := by
  constructor
  · rintro ⟨u, run⟩
    exact (union_is_union run).compatible
  · intro compatible
    obtain ⟨u, union⟩ := exists_union compatible
    exact ⟨u, union.runs⟩

theorem union_comm (run : a.union b = .ok u) : b.union a = .ok u := (union_is_union run).symm.runs

theorem union_self (a : FreeIndices) : a.union a = .ok a :=
  IsUnion.runs fun _ _ => (or_self_iff).symm

/-- Sets that are joined one after the other can be joined from the other end. -/
theorem union_shift {x : FreeIndices} (first : a.union b = .ok x) (whole : x.union c = .ok u) :
    ∃ y, b.union c = .ok y ∧ a.union y = .ok u := by
  have left := union_is_union first
  have all := union_is_union whole
  have compatible : Compatible b c := fun i d d' here there =>
    all.compatible i d d' ((left i d).mpr (.inr here)) there
  obtain ⟨y, right⟩ := exists_union compatible
  refine ⟨y, right.runs, IsUnion.runs fun i d => ?_⟩
  rw [all i d, left i d, right i d, or_assoc]

theorem union_assoc (a b c : FreeIndices) (u : FreeIndices) :
    (a.union b >>= fun x => x.union c) = .ok u ↔ (b.union c >>= fun y => a.union y) = .ok u := by
  rw [except_bind_ok, except_bind_ok]
  constructor
  · rintro ⟨x, first, whole⟩
    exact union_shift first whole
  · rintro ⟨y, first, whole⟩
    obtain ⟨x, second, whole⟩ := union_shift (union_comm first) (union_comm whole)
    exact ⟨x, union_comm second, union_comm whole⟩

/-- The set has the indices of the map, with its dimensions. -/
def Shows (a : FreeIndices) (m : DimensionMap) : Prop := ∀ i, a.dim? i = m.lookup i

theorem Shows.contains (shows : Shows a m) (i : Index) : a.contains i = true ↔ i ∈ m := by
  unfold FreeIndices.contains
  rw [shows i]
  exact Finmap.lookup_isSome

theorem Shows.eq_iff (shows : Shows a m) (shows' : Shows b m') : a = b ↔ m = m' := by
  constructor
  · rintro rfl
    exact Finmap.ext_lookup fun i => (shows i).symm.trans (shows' i)
  · rintro rfl
    exact ext_dim fun i d => by rw [shows i, shows' i]

theorem Shows.compatible (shows : Shows a m) (shows' : Shows b m') : Compatible a b ↔ m.Agree m' := by
  simp only [DimensionMap.Agree, Finset.mem_inter, Finmap.mem_keys]
  constructor
  · rintro compatible i ⟨here, there⟩
    obtain ⟨d, found⟩ := Finmap.mem_iff.mp here
    obtain ⟨d', found'⟩ := Finmap.mem_iff.mp there
    rw [found, found', compatible i d d' ((shows i).trans found) ((shows' i).trans found')]
  · intro agree i d d' found found'
    rw [shows i] at found
    rw [shows' i] at found'
    have same := agree i ⟨Finmap.mem_of_lookup_eq_some found, Finmap.mem_of_lookup_eq_some found'⟩
    rw [found, found'] at same
    exact Option.some.inj same

theorem shows_empty : Shows ∅ ∅ := fun _ => rfl

theorem Shows.erase (shows : Shows a m) (i : Index) : Shows (a.erase i) (m.erase i) := by
  intro j
  refine Option.ext fun e => ?_
  rw [erase_dim, shows j]
  by_cases same : j = i
  · subst same
    simp [Finmap.lookup_erase]
  · rw [Finmap.lookup_erase_ne same]
    exact and_iff_right same

theorem Shows.insert (shows : Shows a m) (absent : i ∉ m) (run : a.insert i d = .ok u) :
    Shows u (m.insert i d) := by
  intro j
  refine Option.ext fun e => ?_
  rw [insert_dim run, shows j]
  by_cases same : j = i
  · subst same
    rw [Finmap.lookup_insert, Finmap.lookup_eq_none.mpr absent]
    simp [eq_comm]
  · rw [Finmap.lookup_insert_of_ne m same]
    simp [same]

theorem Shows.union (shows : Shows a m) (shows' : Shows b m') (run : a.union b = .ok u) :
    Shows u (m ∪ m') := by
  have union := union_is_union run
  intro j
  refine Option.ext fun e => ?_
  rw [union j e, shows j, shows' j]
  cases found : m.lookup j with
  | some d =>
      rw [Finmap.lookup_union_left (Finmap.mem_of_lookup_eq_some found), found]
      refine or_iff_left_of_imp fun found' => ?_
      rw [union.compatible j d e ((shows j).trans found) ((shows' j).trans found')]
  | none =>
      rw [Finmap.lookup_union_right (Finmap.lookup_eq_none.mp found)]
      simp

end FreeIndices

/-- The changes that have led to a set of free indices, from the empty set on. -/
inductive IndexHistory
  | empty
  | insert (before : IndexHistory) (i : Index) (d : Nat)
  | remove (before : IndexHistory) (i : Index)
  | union (before other : IndexHistory)

namespace IndexHistory

open FreeIndices

/-- The entries that the changes leave; a refused change leaves those before it. -/
def entries : IndexHistory → List (Index × Nat)
  | empty => []
  | insert before i d => (IndexEntries.insert before.entries i d).2
  | remove before i => (IndexEntries.remove before.entries i).2
  | union before other =>
      match IndexEntries.union before.entries other.entries with
      | .ok merged => merged
      | .error _ => before.entries

/-- The set that the changes leave. -/
def set : IndexHistory → FreeIndices
  | empty => ∅
  | insert before i d =>
      match before.set.insert i d with
      | .ok changed => changed
      | .error _ => before.set
  | remove before i => before.set.erase i
  | union before other =>
      match before.set.union other.set with
      | .ok merged => merged
      | .error _ => before.set

/-- The changes made to a map: an index that is there keeps its dimension. -/
def map : IndexHistory → DimensionMap
  | empty => ∅
  | insert before i d => if i ∈ before.map then before.map else before.map.insert i d
  | remove before i => before.map.erase i
  | union before other => if before.map.Agree other.map then before.map ∪ other.map else before.map

variable (h : IndexHistory)

theorem set_shows_map : h.set.Shows h.map := by
  induction h with
  | empty => exact shows_empty
  | insert before i d ih =>
      rw [set, map]
      by_cases known : i ∈ before.map
      · rw [if_pos known]
        cases run : before.set.insert i d with
        | ok changed => exact insert_known ((ih.contains i).mpr known) run ▸ ih
        | error conflict => exact ih
      · rw [if_neg known]
        have absent : before.set.dim? i = none := (ih i).trans (Finmap.lookup_eq_none.mpr known)
        obtain ⟨changed, run⟩ := insert_runs (a := before.set) (i := i) (d := d) (by simp [absent])
        rw [run]
        exact ih.insert known run
  | remove before i ih => exact ih.erase i
  | union before other ih ih' =>
      rw [set, map]
      by_cases agree : before.map.Agree other.map
      · rw [if_pos agree]
        obtain ⟨u, run⟩ := (union_runs_iff _ _).mpr ((ih.compatible ih').mpr agree)
        rw [run]
        exact ih.union ih' run
      · rw [if_neg agree]
        cases run : before.set.union other.set with
        | ok u => exact absurd ((ih.compatible ih').mp ((union_runs_iff _ _).mp ⟨u, run⟩)) agree
        | error conflict => exact ih

theorem entries_eq : h.entries = h.set.entries := by
  induction h with
  | empty => rfl
  | insert before i d ih =>
      rw [entries, set, ih, IndexEntries.insert_searched]
      cases before.set.insert i d <;> rfl
  | remove before i ih =>
      rw [entries, set, ih, IndexEntries.remove_searched]
  | union before other ih ih' =>
      rw [entries, set, ih, ih', IndexEntries.union_searched]
      cases before.set.union other.set <;> rfl

end IndexHistory

open IndexEntries

/-- From the empty set on, the entries that insertions, removals and unions leave are in increasing order
and are those of the set of free indices. What they answer is what the finite map says that the same
changes make, and they are the same only for the same map. -/
theorem entries_are_map (h h' h'' : IndexHistory) :
    (h.entries.Pairwise (fun a b => a.1.number < b.1.number) ∧ Implement h.entries h.set) ∧
    (∀ i, dim? h.entries i = h.map.lookup i ∧ (contains h.entries i = true ↔ i ∈ h.map) ∧
      (remove h.entries i).1 = h.map.lookup i) ∧
    (∀ i d,
      ((∃ conflict, (IndexEntries.insert h.entries i d).1 = .error conflict) ↔
        ∃ e, h.map.lookup i = some e ∧ e ≠ d) ∧
      ∀ conflict, (IndexEntries.insert h.entries i d).1 = .error conflict →
        (IndexEntries.insert h.entries i d).2 = h.entries) ∧
    (((∃ u, union h.entries h'.entries = .ok u) ↔ h.map.Agree h'.map) ∧
      (∀ u, union h.entries h'.entries = .ok u → union h'.entries h.entries = .ok u) ∧
      (∀ u, (union h.entries h'.entries >>= fun x => union x h''.entries) = .ok u ↔
        (union h'.entries h''.entries >>= fun y => union h.entries y) = .ok u) ∧
      union h.entries h.entries = .ok h.entries) ∧
    ((repeated h.entries h'.entries).Pairwise (fun a b => a.1.number < b.1.number) ∧
      ∀ i d, (i, d) ∈ repeated h.entries h'.entries ↔ h.map.lookup i = some d ∧ i ∈ h'.map) ∧
    (h.entries = h'.entries ↔ h.map = h'.map) := by
  have shows := h.set_shows_map
  have shows' := h'.set_shows_map
  rw [h.entries_eq, h'.entries_eq, h''.entries_eq]
  refine ⟨⟨h.set.increasing, entries_implement h.set⟩, fun i => ⟨?_, ?_, ?_⟩, fun i d => ?_,
    ⟨?_, fun u => ?_, fun u => ?_, ?_⟩, ⟨?_, fun i d => ?_⟩, ?_⟩
  · rw [dim_searched, shows i]
  · rw [contains_searched, shows.contains i]
  · rw [remove_searched, shows i]
  · rw [insert_searched, ← shows i, ← FreeIndices.insert_refused]
    cases h.set.insert i d with
    | ok changed => exact ⟨iff_of_false nofun nofun, nofun⟩
    | error conflict => exact ⟨iff_of_true ⟨conflict, rfl⟩ ⟨conflict, rfl⟩, fun _ _ => rfl⟩
  · rw [union_searched, ← shows.compatible shows', ← FreeIndices.union_runs_iff]
    cases h.set.union h'.set <;> simp
  · simp only [union_searched, except_map_ok]
    rintro ⟨x, run, rfl⟩
    exact ⟨x, FreeIndices.union_comm run, rfl⟩
  · simp only [unions_searched, union_of_union_searched, except_map_ok, FreeIndices.union_assoc]
  · rw [union_searched, FreeIndices.union_self]
    rfl
  · rw [repeated_searched]
    exact h.set.increasing.filter _
  · rw [repeated_searched, FreeIndices.mem_repeated_iff, shows i, shows'.contains i]
  · rw [← shows.eq_iff shows', FreeIndices.mk.injEq]

section Sample

/-- Two indices joined with a third, which has been given another dimension before. -/
def joinedIndices : IndexHistory :=
  .union (.insert (.insert .empty ⟨2⟩ 3) ⟨0⟩ 2) (.insert (.remove (.insert .empty ⟨1⟩ 7) ⟨1⟩) ⟨1⟩ 4)

/-- The same three indices in another order, and a dimension that is refused. -/
def insertedIndices : IndexHistory :=
  .insert (.insert (.insert (.insert .empty ⟨1⟩ 4) ⟨0⟩ 2) ⟨2⟩ 3) ⟨1⟩ 5

/-- Both leave the same entries, in the order of the indices. A dimension that is refused changes nothing,
and which of two sets comes first in a union does not matter. -/
theorem joined_like_inserted :
    joinedIndices.entries = [(⟨0⟩, 2), (⟨1⟩, 4), (⟨2⟩, 3)] ∧
    insertedIndices.entries = joinedIndices.entries ∧
    (IndexEntries.insert joinedIndices.entries ⟨1⟩ 5).2 = joinedIndices.entries ∧
    ∃ u, union joinedIndices.entries (IndexHistory.insert .empty ⟨3⟩ 6).entries = .ok u ∧
      union (IndexHistory.insert .empty ⟨3⟩ 6).entries joinedIndices.entries = .ok u := by
  obtain ⟨⟨_, implement⟩, _, refused, ⟨agreed, swapped, _⟩, _, same⟩ :=
    entries_are_map joinedIndices (.insert .empty ⟨3⟩ 6) .empty
  refine ⟨?_, ?_, ?_, ?_⟩
  · rw [implement.stored]
    rfl
  · exact (entries_are_map insertedIndices joinedIndices .empty).2.2.2.2.2.mpr (by decide)
  · obtain ⟨conflict, run⟩ := (refused ⟨1⟩ 5).1.mpr ⟨4, by decide, by decide⟩
    exact (refused ⟨1⟩ 5).2 conflict run
  · obtain ⟨u, run⟩ := agreed.mpr (by decide)
    exact ⟨u, run, swapped u run⟩

end Sample

end FormCalculus
