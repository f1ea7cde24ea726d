import FormCalculus.Analysis.Dependency
import FormCalculus.Proofs.Ordering

/-!
Sets as increasing lists have the elements they should, and the sets of dependencies combine term
by term. One set is under another where each of its terms is part of a term of the other; combining
keeps this order, and so do failures.
-/
set_option autoImplicit false

namespace FormCalculus

namespace OrderedSet

variable {α : Type} {cmp : α → α → Ordering}

theorem mem_single {x y : α} : y ∈ (single x : OrderedSet α cmp) ↔ y = x := List.mem_singleton

theorem not_mem_empty (x : α) : x ∉ (∅ : OrderedSet α cmp) := List.not_mem_nil

theorem is_empty_iff {set : OrderedSet α cmp} : set.isEmpty = true ↔ ∀ x, x ∉ set :=
  List.isEmpty_iff.trans List.eq_nil_iff_forall_not_mem

theorem exists_mem {set : OrderedSet α cmp} (some : ¬ set.isEmpty = true) : ∃ x, x ∈ set := by
  by_contra none
  exact some (is_empty_iff.mpr (not_exists.mp none))

theorem eq_empty {set : OrderedSet α cmp} (empty : set.isEmpty = true) : set = ∅ := by
  obtain ⟨elements, increasing⟩ := set
  obtain rfl : elements = [] := List.isEmpty_iff.mp empty
  rfl

theorem disjoint_iff [BEq α] [LawfulBEq α] {a b : OrderedSet α cmp} :
    a.disjoint b = true ↔ ∀ x ∈ a, x ∉ b := by
  unfold disjoint contains
  rw [List.all_eq_true]
  refine forall₂_congr fun x _ => ?_
  rw [Bool.not_eq_true', ← Bool.not_eq_true, List.contains_iff_mem]
  rfl

section

variable [Std.TransCmp cmp]

theorem nodup (set : OrderedSet α cmp) : set.elements.Nodup :=
  set.increasing.imp fun {x _} less same => by
    have equal : cmp x x = .eq := Std.ReflCmp.compare_self
    rw [← same, equal] at less
    cases less

theorem ext_mem {a b : OrderedSet α cmp} (same : ∀ x, x ∈ a ↔ x ∈ b) : a = b := by
  have elements : a.elements = b.elements := by
    have equal := (List.perm_ext_iff_of_nodup a.nodup b.nodup).mpr same
    refine equal.eq_of_pairwise (fun x y _ _ less greater => ?_) a.increasing b.increasing
    exact absurd greater (Std.OrientedCmp.not_lt_of_lt less)
  obtain ⟨xs, increasing⟩ := a
  cases elements
  rfl

end

section

variable [Std.LawfulEqCmp cmp]

theorem mem_placed {x y : α} {list : List α} : y ∈ placeElement cmp x list ↔ y = x ∨ y ∈ list := by
  refine ⟨mem_place_element, fun either => ?_⟩
  induction list with
  | nil => simpa [placeElement] using either
  | cons head rest ih =>
      unfold placeElement
      split
      · exact List.mem_cons.mpr either
      · rename_i equal
        obtain rfl := Std.LawfulEqCmp.eq_of_compare equal
        rcases either with rfl | inside
        · exact List.mem_cons_self
        · exact inside
      · rcases either with same | inside
        · exact List.mem_cons_of_mem _ (ih (.inl same))
        · rcases List.mem_cons.mp inside with same | inside
          · exact List.mem_cons.mpr (.inl same)
          · exact List.mem_cons_of_mem _ (ih (.inr inside))

variable [Std.TransCmp cmp]

theorem mem_insert {set : OrderedSet α cmp} {x y : α} : y ∈ set.insert x ↔ y = x ∨ y ∈ set :=
  mem_placed

theorem mem_inserts {list : List α} {set : OrderedSet α cmp} {x : α} :
    x ∈ list.foldl insert set ↔ x ∈ set ∨ x ∈ list := by
  induction list generalizing set with
  | nil => simp
  | cons head rest ih => rw [List.foldl_cons, ih, mem_insert, List.mem_cons, or_comm (a := x = head), or_assoc]

theorem mem_union {a b : OrderedSet α cmp} {x : α} : x ∈ a.union b ↔ x ∈ a ∨ x ∈ b := mem_inserts

theorem mem_of_list {list : List α} {x : α} : x ∈ (ofList list : OrderedSet α cmp) ↔ x ∈ list :=
  mem_inserts.trans (or_iff_right (not_mem_empty x))

theorem union_comm (a b : OrderedSet α cmp) : a.union b = b.union a :=
  ext_mem fun _ => by rw [mem_union, mem_union, or_comm]

theorem union_assoc (a b c : OrderedSet α cmp) : (a.union b).union c = a.union (b.union c) :=
  ext_mem fun _ => by rw [mem_union, mem_union, mem_union, mem_union, or_assoc]

theorem union_self (a : OrderedSet α cmp) : a.union a = a :=
  ext_mem fun _ => by rw [mem_union, or_self]

end

end OrderedSet

theorem compare_on_lawful {α β : Type} [Ord β] [Std.LawfulEqOrd β] {code : α → β}
    (injective : ∀ a b, code a = code b → a = b) : Std.LawfulEqCmp (compareOn code) where
  compare_self {a} := (Std.ReflCmp.compare_self : compare (code a) (code a) = .eq)
  eq_of_compare same := injective _ _ (Std.LawfulEqOrd.eq_of_compare same)

instance : Std.LawfulEqCmp (compareOn Argument.code) :=
  compare_on_lawful fun _ _ => Argument.code_injective

theorem DependencyTerm.code_injective {s t : DependencyTerm} (same : s.code = t.code) : s = t := by
  obtain ⟨xs, increasing⟩ := s
  obtain ⟨ys, increasing'⟩ := t
  obtain rfl : xs = ys :=
    List.map_injective_iff.mpr (fun _ _ => Argument.code_injective) same
  rfl

instance : Std.LawfulEqCmp (compareOn DependencyTerm.code) :=
  compare_on_lawful fun _ _ => DependencyTerm.code_injective

namespace DependencySet

open OrderedSet

variable {A A' B B' D D' : DependencySet} {t : DependencyTerm} {a : Argument}

/-- Some term of `D` depends on `a`. -/
def Mentions (D : DependencySet) (a : Argument) : Prop := ∃ t ∈ D, a ∈ t

/-- Every term of `D` is part of one of `D'`. -/
def Under (D D' : DependencySet) : Prop := ∀ t ∈ D, ∃ t' ∈ D', ∀ a ∈ t, a ∈ t'

theorem Under.refl (D : DependencySet) : Under D D := fun t member => ⟨t, member, fun _ => id⟩

theorem Under.trans (first : Under A B) (second : Under B D) : Under A D := by
  intro t member
  obtain ⟨t', member', part⟩ := first t member
  obtain ⟨t'', member'', part'⟩ := second t' member'
  exact ⟨t'', member'', fun a inside => part' a (part a inside)⟩

theorem empty_under (D : DependencySet) : Under ∅ D := fun t member => absurd member (not_mem_empty t)

theorem under_union_left (A B : DependencySet) : Under A (A.union B) :=
  fun t member => ⟨t, mem_union.mpr (.inl member), fun _ => id⟩

theorem under_union_right (A B : DependencySet) : Under B (A.union B) :=
  fun t member => ⟨t, mem_union.mpr (.inr member), fun _ => id⟩

theorem union_under (left : Under A D) (right : Under B D) : Under (A.union B) D :=
  fun t member => (mem_union.mp member).elim (left t) (right t)

theorem Under.mentions (under : Under D D') : Mentions D a → Mentions D' a := by
  rintro ⟨t, member, inside⟩
  obtain ⟨t', member', part⟩ := under t member
  exact ⟨t', member', part a inside⟩

theorem Under.empty (under : Under D D') (empty : D'.isEmpty = true) : D.isEmpty = true := by
  refine is_empty_iff.mpr fun t member => ?_
  obtain ⟨t', member', _⟩ := under t member
  exact is_empty_iff.mp empty t' member'

theorem mentions_union : Mentions (A.union B) a ↔ Mentions A a ∨ Mentions B a := by
  simp only [Mentions, mem_union, or_and_right, exists_or]

theorem not_mentions_empty (a : Argument) : ¬ Mentions ∅ a :=
  fun ⟨t, member, _⟩ => not_mem_empty t member

theorem mem_pairs {s t : DependencyTerm} :
    (s, t) ∈ A.elements.flatMap (fun s => B.elements.map fun t => (s, t)) ↔ s ∈ A ∧ t ∈ B := by
  rw [List.mem_flatMap]
  constructor
  · rintro ⟨_, left, inside⟩
    obtain ⟨_, right, same⟩ := List.mem_map.mp inside
    cases same
    exact ⟨left, right⟩
  · exact fun ⟨left, right⟩ => ⟨s, left, List.mem_map_of_mem right⟩

/-- A product of two factors fails where a term of one shares an argument with one of the other. -/
theorem combine_none : combine? A B = none ↔ ∃ s ∈ A, ∃ t ∈ B, ∃ a, a ∈ s ∧ a ∈ t := by
  unfold combine?
  by_cases first : A.isEmpty = true
  · rw [if_pos first]
    refine iff_of_false nofun ?_
    rintro ⟨s, member, _⟩
    exact is_empty_iff.mp first s member
  by_cases second : B.isEmpty = true
  · rw [if_neg first, if_pos second]
    refine iff_of_false nofun ?_
    rintro ⟨s, _, t, member, _⟩
    exact is_empty_iff.mp second t member
  rw [if_neg first, if_neg second]
  simp only [ite_eq_right_iff, reduceCtorEq, imp_false, List.all_eq_true, OrderedSet.disjoint_iff,
    Prod.forall, mem_pairs, not_forall, not_not, exists_prop, and_assoc, exists_and_left]

/-- The terms of a product: those of one factor where the other has none, else all pairs. -/
theorem mem_combine (run : combine? A B = some D) :
    t ∈ D ↔ (A.isEmpty = true ∧ t ∈ B) ∨ (B.isEmpty = true ∧ t ∈ A) ∨
      ∃ s ∈ A, ∃ s' ∈ B, t = s.union s' := by
  unfold combine? at run
  by_cases first : A.isEmpty = true
  · rw [if_pos first, Option.some.injEq] at run
    subst run
    have none := is_empty_iff.mp first
    simp [first, none]
  by_cases second : B.isEmpty = true
  · rw [if_neg first, if_pos second, Option.some.injEq] at run
    subst run
    have none := is_empty_iff.mp second
    simp [first, second, none]
  rw [if_neg first, if_neg second, Option.ite_none_right_eq_some, Option.some.injEq] at run
  obtain ⟨_, rfl⟩ := run
  rw [mem_of_list, or_iff_right fun empty => first empty.1, or_iff_right fun empty => second empty.1]
  simp only [List.mem_map, Prod.exists, mem_pairs, and_assoc, exists_and_left, eq_comm (a := t)]

theorem combine_apart (run : combine? A B = some D) {s t : DependencyTerm} (left : s ∈ A)
    (right : t ∈ B) : ∀ a ∈ s, a ∉ t := by
  intro a inside inside'
  rw [combine_none.mpr ⟨s, left, t, right, a, inside, inside'⟩] at run
  cases run

theorem under_combine_left (run : combine? A B = some D) : Under A D := by
  intro s member
  by_cases empty : B.isEmpty = true
  · exact ⟨s, (mem_combine run).mpr (.inr (.inl ⟨empty, member⟩)), fun _ => id⟩
  · obtain ⟨t, other⟩ := exists_mem empty
    exact ⟨s.union t, (mem_combine run).mpr (.inr (.inr ⟨s, member, t, other, rfl⟩)),
      fun a inside => mem_union.mpr (.inl inside)⟩

theorem under_combine_right (run : combine? A B = some D) : Under B D := by
  intro t member
  by_cases empty : A.isEmpty = true
  · exact ⟨t, (mem_combine run).mpr (.inl ⟨empty, member⟩), fun _ => id⟩
  · obtain ⟨s, other⟩ := exists_mem empty
    exact ⟨s.union t, (mem_combine run).mpr (.inr (.inr ⟨s, other, t, member, rfl⟩)),
      fun a inside => mem_union.mpr (.inr inside)⟩

theorem combine_swap (run : combine? A B = some D) : combine? B A = some D := by
  cases other : combine? B A with
  | none =>
      obtain ⟨t, right, s, left, a, inside, inside'⟩ := combine_none.mp other
      exact absurd inside (combine_apart run left right a inside')
  | some D' =>
      refine congrArg some (ext_mem fun t => ?_)
      rw [mem_combine other, mem_combine run, or_left_comm]
      refine or_congr_right (or_congr_right ⟨?_, ?_⟩)
      · exact fun ⟨s, right, s', left, same⟩ => ⟨s', left, s, right, same.trans (union_comm s s')⟩
      · exact fun ⟨s, left, s', right, same⟩ => ⟨s', right, s, left, same.trans (union_comm s s')⟩

/-- Factors with less make a product with less, if there is one at all. -/
theorem combine_under (run : combine? A B = some D) (left : Under A' A) (right : Under B' B) :
    ∃ D', combine? A' B' = some D' ∧ Under D' D := by
  cases other : combine? A' B' with
  | none =>
      obtain ⟨s, member, t, member', a, inside, inside'⟩ := combine_none.mp other
      obtain ⟨u, above, part⟩ := left s member
      obtain ⟨v, above', part'⟩ := right t member'
      exact absurd (part' a inside') (combine_apart run above above' a (part a inside))
  | some D' =>
      refine ⟨D', rfl, fun t member => ?_⟩
      obtain ⟨_, member⟩ | ⟨_, member⟩ | ⟨s, here, s', there, rfl⟩ := (mem_combine other).mp member
      · exact (right.trans (under_combine_right run)) t member
      · exact (left.trans (under_combine_left run)) t member
      · obtain ⟨u, above, part⟩ := left s here
        obtain ⟨v, above', part'⟩ := right s' there
        exact ⟨u.union v, (mem_combine run).mpr (.inr (.inr ⟨u, above, v, above', rfl⟩)),
          fun a inside => mem_union.mpr ((mem_union.mp inside).imp (part a) (part' a))⟩

theorem mentions_combine (run : combine? A B = some D) :
    Mentions D a ↔ Mentions A a ∨ Mentions B a := by
  constructor
  · rintro ⟨t, member, inside⟩
    obtain ⟨_, member⟩ | ⟨_, member⟩ | ⟨s, here, s', there, rfl⟩ := (mem_combine run).mp member
    · exact .inr ⟨t, member, inside⟩
    · exact .inl ⟨t, member, inside⟩
    · exact (mem_union.mp inside).imp (fun inside => ⟨s, here, inside⟩)
        fun inside => ⟨s', there, inside⟩
  · rintro (mentioned | mentioned)
    · exact (under_combine_left run).mentions mentioned
    · exact (under_combine_right run).mentions mentioned

theorem union_empty_iff : (A.union B).isEmpty = true ↔ A.isEmpty = true ∧ B.isEmpty = true := by
  simp only [is_empty_iff, mem_union, not_or, forall_and]

theorem combine_union {C E F : DependencySet} (whole : combine? A (B.union C) = some D)
    (left : combine? A B = some E) (right : combine? A C = some F)
    (either : A.isEmpty = true ∨ (B.isEmpty = true ↔ C.isEmpty = true)) : D = E.union F := by
  refine ext_mem fun t => ?_
  rw [mem_union, mem_combine whole, mem_combine left, mem_combine right, union_empty_iff]
  simp only [mem_union, or_and_right, exists_or, and_or_left]
  by_cases first : A.isEmpty = true
  · have none := is_empty_iff.mp first
    simp [first, none]
  · have same := either.resolve_left first
    by_cases second : B.isEmpty = true
    · have none := is_empty_iff.mp second
      have none' := is_empty_iff.mp (same.mp second)
      simp [first, second, same.mp second, none, none']
    · simp [first, second, mt same.mpr second]

/-- A product distributes over a sum unless exactly one of the summands has no dependencies. -/
theorem combine_union_iff {C E F : DependencySet} (whole : combine? A (B.union C) = some D)
    (left : combine? A B = some E) (right : combine? A C = some F)
    (own : ∀ t ∈ B.union C, ∃ a, a ∈ t) :
    D = E.union F ↔ A.isEmpty = true ∨ (B.isEmpty = true ↔ C.isEmpty = true) := by
  constructor
  · rintro rfl
    by_contra neither
    obtain ⟨some, other⟩ := not_or.mp neither
    -- A summand without dependencies leaves the terms of `A` alone, which no product with the
    -- other summand does.
    obtain ⟨s, member⟩ := exists_mem some
    have alone : s ∈ E.union F := by
      rw [mem_union, mem_combine left, mem_combine right]
      by_cases first : B.isEmpty = true
      · exact .inl (.inr (.inl ⟨first, member⟩))
      · have second : C.isEmpty = true := by
          by_contra second
          exact other (iff_of_false first second)
        exact .inr (.inr (.inl ⟨second, member⟩))
    obtain ⟨empty, _⟩ | ⟨empty, _⟩ | ⟨s', _, t, there, rfl⟩ := (mem_combine whole).mp alone
    · exact some empty
    · obtain ⟨first, second⟩ := union_empty_iff.mp empty
      exact other (iff_of_true first second)
    · obtain ⟨x, inside⟩ := own t there
      exact combine_apart whole member there x (mem_union.mpr (.inr inside)) inside
  · exact combine_union whole left right

end DependencySet

end FormCalculus
