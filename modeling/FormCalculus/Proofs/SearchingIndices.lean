import FormCalculus.Proofs.FreeIndexSet

/-!
Entries of indices and dimensions in a plain list, in which an index is looked up by halving the range
that it can be in. A new index is put where the search ends. On the entries of a set of free indices
these operations are those of the set, so that they keep the entries in increasing order.
-/
set_option autoImplicit false

namespace FormCalculus

/-- Where an index stands among `count` entries, or where it would have to be put. -/
inductive Place (count : Nat)
  | found (position : Fin count)
  | absent (position : Nat)

namespace IndexEntries

variable {entries : List (Index × Nat)} {i : Index} {d : Nat}

/-- Halves the range of positions from `low` to `high` until it meets the index or nothing is left. -/
def searchIn (entries : List (Index × Nat)) (i : Index) (low high : Nat)
    (bound : high ≤ entries.length) : Place entries.length :=
  if more : low < high then
    have inside : (low + high) / 2 < entries.length := by omega
    if entries[(low + high) / 2].1.number < i.number then
      searchIn entries i ((low + high) / 2 + 1) high bound
    else if i.number < entries[(low + high) / 2].1.number then
      searchIn entries i low ((low + high) / 2) (Nat.le_of_lt inside)
    else .found ⟨(low + high) / 2, inside⟩
  else .absent low
termination_by high - low

def search (entries : List (Index × Nat)) (i : Index) : Place entries.length :=
  searchIn entries i 0 entries.length (Nat.le_refl _)

def dim? (entries : List (Index × Nat)) (i : Index) : Option Nat :=
  match search entries i with
  | .found position => some entries[position].2
  | .absent _ => none

def contains (entries : List (Index × Nat)) (i : Index) : Bool := (dim? entries i).isSome

/-- Puts an index among the entries, or refuses another dimension; with the entries after that. -/
def insert (entries : List (Index × Nat)) (i : Index) (d : Nat) :
    Except DimensionConflict Unit × List (Index × Nat) :=
  match search entries i with
  | .found position =>
      if entries[position].2 = d then (.ok (), entries)
      else (.error ⟨i, entries[position].2, d⟩, entries)
  | .absent position => (.ok (), entries.insertIdx position (i, d))

/-- Takes an index out of the entries, with its dimension if it was there. -/
def remove (entries : List (Index × Nat)) (i : Index) : Option Nat × List (Index × Nat) :=
  match search entries i with
  | .found position => (some entries[position].2, entries.eraseIdx position)
  | .absent _ => (none, entries)

/-- Inserts the entries of the other list one by one, until one is refused. -/
def union (merged : List (Index × Nat)) :
    List (Index × Nat) → Except DimensionConflict (List (Index × Nat))
  | [] => .ok merged
  | (i, d) :: rest =>
      match insert merged i d with
      | (.ok (), merged) => union merged rest
      | (.error conflict, _) => .error conflict

def repeated (entries others : List (Index × Nat)) : List (Index × Nat) :=
  entries.filter fun entry => contains others entry.1

/-! Searching entries in increasing order. -/

/-- The place is that of the index, with what is less before it and what is greater behind. -/
def IsPlace (entries : List (Index × Nat)) (i : Index) : Place entries.length → Prop
  | .found position => entries[position].1 = i
  | .absent position => position ≤ entries.length ∧
      ∀ j (h : j < entries.length),
        (j < position → entries[j].1.number < i.number) ∧ (position ≤ j → i.number < entries[j].1.number)

theorem search_in_place (increasing : entries.Pairwise fun a b => a.1.number < b.1.number)
    (low high : Nat) (bound : high ≤ entries.length) (ordered : low ≤ high)
    (before : ∀ j (h : j < entries.length), j < low → entries[j].1.number < i.number)
    (behind : ∀ j (h : j < entries.length), high ≤ j → i.number < entries[j].1.number) :
    IsPlace entries i (searchIn entries i low high bound) := by
  have less := List.pairwise_iff_getElem.mp increasing
  -- What lies outside the range is known to be less or greater.
  fun_induction searchIn entries i low high bound with
  | case1 low high bound more inside below ih =>
      refine ih (by omega) (fun j h earlier => ?_) behind
      rcases Nat.lt_or_eq_of_le (Nat.le_of_lt_succ earlier) with first | rfl
      · exact Nat.lt_trans (less j _ h inside first) below
      · exact below
  | case2 low high bound more inside _ above ih =>
      refine ih (by omega) before fun j h later => ?_
      rcases Nat.lt_or_eq_of_le later with last | rfl
      · exact Nat.lt_trans above (less _ j inside h last)
      · exact above
  | case3 low high bound more inside notBelow notAbove =>
      exact congrArg Index.mk (Nat.le_antisymm (Nat.not_lt.mp notAbove) (Nat.not_lt.mp notBelow))
  | case4 low high bound none =>
      exact ⟨by omega, fun j h => ⟨before j h, fun later => behind j h (by omega)⟩⟩

theorem search_place (increasing : entries.Pairwise fun a b => a.1.number < b.1.number) (i : Index) :
    IsPlace entries i (search entries i) :=
  search_in_place increasing 0 entries.length _ (Nat.zero_le _) (fun _ _ below => nomatch below)
    fun _ h above => absurd h (Nat.not_lt.mpr above)

/-! The operations on the entries of a set. -/

open FreeIndices

theorem insert_idx_eq_place_index {position : Nat} (bound : position ≤ entries.length)
    (around : ∀ j (h : j < entries.length),
      (j < position → entries[j].1.number < i.number) ∧ (position ≤ j → i.number < entries[j].1.number)) :
    entries.insertIdx position (i, d) = placeIndex i d entries := by
  induction entries generalizing position with
  | nil =>
      obtain rfl : position = 0 := Nat.le_zero.mp bound
      rfl
  | cons head rest ih =>
      have first := around 0 (Nat.zero_lt_succ _)
      cases position with
      | zero =>
          have less : i.number < head.1.number := first.2 (Nat.le_refl 0)
          rw [placeIndex, if_pos less]
          rfl
      | succ position =>
          have less : head.1.number < i.number := first.1 (Nat.zero_lt_succ _)
          rw [placeIndex, if_neg (Nat.lt_asymm less), if_pos less, List.insertIdx_succ_cons]
          refine congrArg (head :: ·) (ih (Nat.le_of_succ_le_succ bound) fun j h => ?_)
          have other := around (j + 1) (Nat.succ_lt_succ h)
          exact ⟨fun below => other.1 (Nat.succ_lt_succ below),
            fun above => other.2 (Nat.succ_le_succ above)⟩

variable (set a b : FreeIndices)

/-- An index of the set is found with its dimension, and another one is not. -/
theorem search_cases (i : Index) :
    (∃ position, search set.entries i = .found position ∧ set.entries[position].1 = i ∧
      set.dim? i = some set.entries[position].2) ∨
    ∃ position, search set.entries i = .absent position ∧ set.dim? i = none ∧
      ∀ d, set.entries.insertIdx position (i, d) = placeIndex i d set.entries := by
  have place := search_place set.increasing i
  cases found : search set.entries i with
  | found position =>
      rw [found] at place
      have same : set.entries[position].1 = i := place
      refine .inl ⟨position, rfl, same, ?_⟩
      have member : (i, set.entries[position].2) ∈ set.entries := by
        rw [← same]
        exact List.getElem_mem _
      exact (mem_entries_iff set i _).mp member
  | absent position =>
      rw [found] at place
      obtain ⟨bound, around⟩ := place
      refine .inr ⟨position, rfl, ?_, fun d => insert_idx_eq_place_index bound around⟩
      refine Option.eq_none_iff_forall_ne_some.mpr fun d known => ?_
      obtain ⟨j, h, same⟩ := List.getElem_of_mem ((mem_entries_iff set i d).mpr known)
      have beside := around j h
      rw [same] at beside
      rcases Nat.lt_or_ge j position with below | above
      · exact Nat.lt_irrefl _ (beside.1 below)
      · exact Nat.lt_irrefl _ (beside.2 above)

theorem dim_searched (i : Index) : dim? set.entries i = set.dim? i := by
  unfold dim?
  obtain ⟨position, found, _, known⟩ | ⟨position, found, unknown, _⟩ := search_cases set i
  · rw [found, known]
  · rw [found, unknown]

theorem contains_searched (i : Index) : contains set.entries i = set.contains i :=
  congrArg Option.isSome (dim_searched set i)

/-- What a change of a set answers, with the entries after it. -/
def outcome : Except DimensionConflict FreeIndices → Except DimensionConflict Unit × List (Index × Nat)
  | .ok changed => (.ok (), changed.entries)
  | .error conflict => (.error conflict, set.entries)

theorem insert_searched (i : Index) (d : Nat) :
    insert set.entries i d = outcome set (set.insert i d) := by
  unfold insert FreeIndices.insert
  obtain ⟨position, found, _, known⟩ | ⟨position, found, unknown, placed⟩ := search_cases set i
  · rw [found, known]
    by_cases same : set.entries[position].2 = d
    · simp only [if_pos same]
      rfl
    · simp only [if_neg same]
      rfl
  · rw [found, unknown]
    exact congrArg (Prod.mk _) (placed d)

theorem erase_idx_eq_erase (position : Fin set.entries.length) :
    set.entries.eraseIdx position = (set.erase set.entries[position].1).entries := by
  have irreflexive : Std.Irrefl fun x y : Index × Nat => x.1.number < y.1.number :=
    ⟨fun _ => Nat.lt_irrefl _⟩
  have less := List.pairwise_iff_getElem.mp set.increasing
  refine (set.increasing.sublist (List.eraseIdx_sublist _ _)).eq_of_mem_iff
    (set.erase _).increasing fun entry => ?_
  rw [List.mem_eraseIdx_iff_getElem, erase, List.mem_filter, decide_eq_true_eq]
  constructor
  · rintro ⟨j, h, other, rfl⟩
    refine ⟨List.getElem_mem h, fun same => ?_⟩
    have number : set.entries[j].1.number = set.entries[position].1.number := congrArg Index.number same
    rcases Nat.lt_or_gt_of_ne other with before | behind
    · exact Nat.ne_of_lt (less j position h position.isLt before) number
    · exact Nat.ne_of_gt (less position j position.isLt h behind) number
  · rintro ⟨member, other⟩
    obtain ⟨j, h, rfl⟩ := List.getElem_of_mem member
    refine ⟨j, h, ?_, rfl⟩
    rintro rfl
    exact other rfl

theorem remove_searched (i : Index) :
    remove set.entries i = (set.dim? i, (set.erase i).entries) := by
  unfold remove
  obtain ⟨position, found, rfl, known⟩ | ⟨position, found, unknown, _⟩ := search_cases set i
  · rw [found, known]
    exact congrArg (Prod.mk _) (erase_idx_eq_erase set position)
  · rw [found, unknown]
    refine congrArg (Prod.mk none) (List.filter_eq_self.mpr fun entry member => ?_).symm
    refine decide_eq_true fun same => ?_
    have known := (mem_entries_iff set entry.1 entry.2).mp member
    rw [same, unknown] at known
    cases known

theorem union_searched : union a.entries b.entries = FreeIndices.entries <$> a.union b := by
  unfold FreeIndices.union
  -- The entries of the other set are a list like any other.
  induction b.entries generalizing a with
  | nil => rfl
  | cons head rest ih =>
      rw [union, insertAll, insert_searched]
      cases a.insert head.1 head.2 with
      | error conflict => rfl
      | ok changed => exact ih changed

theorem repeated_searched : repeated a.entries b.entries = a.repeated b :=
  List.filter_congr fun entry _ => contains_searched b entry.1

theorem unions_searched (c : FreeIndices) :
    (union a.entries b.entries >>= fun x => union x c.entries) =
      FreeIndices.entries <$> (a.union b >>= fun x => x.union c) := by
  rw [union_searched]
  cases a.union b with
  | error conflict => rfl
  | ok x => exact union_searched x c

theorem union_of_union_searched (c : FreeIndices) :
    (union b.entries c.entries >>= fun x => union a.entries x) =
      FreeIndices.entries <$> (b.union c >>= fun x => a.union x) := by
  rw [union_searched]
  cases b.union c with
  | error conflict => rfl
  | ok x => exact union_searched a x

/-- The entries are those of the set, and searching them answers and leaves what the set does. -/
structure Implement (entries : List (Index × Nat)) (set : FreeIndices) : Prop where
  stored : entries = set.entries
  dim : ∀ i, dim? entries i = set.dim? i
  contains : ∀ i, contains entries i = set.contains i
  insert : ∀ i d, insert entries i d = outcome set (set.insert i d)
  remove : ∀ i, remove entries i = (set.dim? i, (set.erase i).entries)
  union : ∀ b : FreeIndices, union entries b.entries = FreeIndices.entries <$> set.union b
  repeated : ∀ b : FreeIndices, repeated entries b.entries = set.repeated b

theorem entries_implement : Implement set.entries set where
  stored := rfl
  dim := dim_searched set
  contains := contains_searched set
  insert := insert_searched set
  remove := remove_searched set
  union := union_searched set
  repeated := repeated_searched set

end IndexEntries

end FormCalculus
