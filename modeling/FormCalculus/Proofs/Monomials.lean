import Mathlib.Algebra.BigOperators.Ring.List
import FormCalculus.Proofs.Depending

/-!
The analysis of polynomials, compared with their multiplied-out form. A polynomial is accepted
exactly if no monomial has an argument twice. Its dependencies are the argument sets of the
monomials that are left when, in every product, the terms of a factor that have no argument are
dropped beside those that have one; so a mixed factor can hide the monomials that its dropped terms
stand in.
-/
set_option autoImplicit false

namespace FormCalculus

open Expr OrderedSet DependencySet

/-- Sums and products of terminals. -/
inductive IsPolynomial : Expr → Prop
  | terminal (data : Terminal) : IsPolynomial (.terminal data)
  | sum {a b : Expr} {shape : Shape} {free : FreeIndices} :
      IsPolynomial a → IsPolynomial b → IsPolynomial (.node .sum [a, b] shape free)
  | product {a b : Expr} {shape : Shape} {free : FreeIndices} :
      IsPolynomial a → IsPolynomial b → IsPolynomial (.node .product [a, b] shape free)

/-- Every monomial of one factor with every monomial of the other. -/
def multiplied (ms ns : List (List Terminal)) : List (List Terminal) :=
  ms.flatMap fun m => ns.map fun n => m ++ n

/-- The multiplied-out form of a polynomial, each monomial as the list of its factors. -/
def monomials : Expr → List (List Terminal)
  | .terminal data => [[data]]
  | .node .sum [a, b] _ _ => monomials a ++ monomials b
  | .node .product [a, b] _ _ => multiplied (monomials a) (monomials b)
  | _ => []

/-- The arguments among the factors of a monomial. -/
def argumentsOf (m : List Terminal) : List Argument :=
  m.filterMap fun data => (Expr.terminal data).argument?

/-- The monomials with an argument, or all of them if there is none. -/
def dependent (ms : List (List Terminal)) : List (List Terminal) :=
  if ∃ m ∈ ms, argumentsOf m ≠ [] then ms.filter fun m => argumentsOf m ≠ [] else ms

/-- The monomials left when mixed factors lose their terms without arguments. -/
def retained : Expr → List (List Terminal)
  | .terminal data => [[data]]
  | .node .sum [a, b] _ _ => retained a ++ retained b
  | .node .product [a, b] _ _ => multiplied (dependent (retained a)) (dependent (retained b))
  | _ => []

/-- `t` is the set of the arguments of `m`, which has some. -/
def Lists (m : List Terminal) (t : DependencyTerm) : Prop :=
  argumentsOf m ≠ [] ∧ ∀ a, a ∈ t ↔ a ∈ argumentsOf m

/-- The terms of `D` are the nonempty argument sets of the monomials. -/
def ListsAll (ms : List (List Terminal)) (D : DependencySet) : Prop := ∀ t, t ∈ D ↔ ∃ m ∈ ms, Lists m t

/-- The arguments `list`, if there are any, are part of one term of `D`. -/
def Covered (D : DependencySet) (list : List Argument) : Prop := list ≠ [] → ∃ t ∈ D, ∀ a ∈ list, a ∈ t

section

variable {m n : List Terminal} {ms ns : List (List Terminal)} {t : DependencyTerm} {a : Argument}

@[simp] theorem arguments_append (m n : List Terminal) :
    argumentsOf (m ++ n) = argumentsOf m ++ argumentsOf n := List.filterMap_append

theorem mem_multiplied {x : List Terminal} :
    x ∈ multiplied ms ns ↔ ∃ m ∈ ms, ∃ n ∈ ns, x = m ++ n := by
  simp only [multiplied, List.mem_flatMap, List.mem_map, eq_comm]

theorem mem_dependent :
    m ∈ dependent ms ↔ m ∈ ms ∧ ((∃ n ∈ ms, argumentsOf n ≠ []) → argumentsOf m ≠ []) := by
  unfold dependent
  by_cases some : ∃ n ∈ ms, argumentsOf n ≠ []
  · rw [if_pos some, List.mem_filter, decide_eq_true_iff]
    exact and_congr_right fun _ => ⟨fun own _ => own, fun own => own some⟩
  · rw [if_neg some]
    exact (and_iff_left fun other => absurd other some).symm

theorem dependent_nonempty (nonempty : ms ≠ []) : dependent ms ≠ [] := by
  by_cases some : ∃ n ∈ ms, argumentsOf n ≠ []
  · obtain ⟨m, member, own⟩ := some
    exact List.ne_nil_of_mem (mem_dependent.mpr ⟨member, fun _ => own⟩)
  · obtain ⟨m, member⟩ := List.exists_mem_of_ne_nil ms nonempty
    exact List.ne_nil_of_mem (mem_dependent.mpr ⟨member, fun other => absurd other some⟩)

theorem multiplied_nonempty (left : ms ≠ []) (right : ns ≠ []) : multiplied ms ns ≠ [] := by
  obtain ⟨m, member⟩ := List.exists_mem_of_ne_nil ms left
  obtain ⟨n, member'⟩ := List.exists_mem_of_ne_nil ns right
  exact List.ne_nil_of_mem (mem_multiplied.mpr ⟨m, member, n, member', rfl⟩)

theorem lists_of_list (own : argumentsOf m ≠ []) : Lists m (.ofList (argumentsOf m)) :=
  ⟨own, fun _ => mem_of_list⟩

theorem Lists.eq {t' : DependencyTerm} (first : Lists m t) (second : Lists m t') : t = t' :=
  ext_mem fun a => (first.2 a).trans (second.2 a).symm

theorem Lists.append {s : DependencyTerm} (left : Lists m s) (right : Lists n t) :
    Lists (m ++ n) (s.union t) := by
  refine ⟨?_, fun a => ?_⟩
  · rw [arguments_append]
    exact List.append_ne_nil_of_left_ne_nil left.1 _
  · rw [mem_union, left.2, right.2, arguments_append, List.mem_append]

theorem lists_append_left (none : argumentsOf n = []) : Lists (m ++ n) t ↔ Lists m t := by
  simp only [Lists, arguments_append, none, List.append_nil]

theorem lists_append_right (none : argumentsOf m = []) : Lists (m ++ n) t ↔ Lists n t := by
  simp only [Lists, arguments_append, none, List.nil_append]

end

section

variable {e : Expr} {D : DependencySet}

theorem IsPolynomial.monomials_nonempty (poly : IsPolynomial e) : monomials e ≠ [] := by
  induction poly with
  | terminal data => exact List.cons_ne_nil _ _
  | sum _ _ left => exact List.append_ne_nil_of_left_ne_nil left _
  | product _ _ left right => exact multiplied_nonempty left right

theorem IsPolynomial.retained_nonempty (poly : IsPolynomial e) : retained e ≠ [] := by
  induction poly with
  | terminal data => exact List.cons_ne_nil _ _
  | sum _ _ left => exact List.append_ne_nil_of_left_ne_nil left _
  | product _ _ left right =>
      exact multiplied_nonempty (dependent_nonempty left) (dependent_nonempty right)

theorem IsPolynomial.retained_subset (poly : IsPolynomial e) : retained e ⊆ monomials e := by
  induction poly with
  | terminal data => exact List.Subset.refl _
  | sum _ _ left right =>
      intro m member
      exact List.mem_append.mpr ((List.mem_append.mp member).imp (fun inside => left inside)
        fun inside => right inside)
  | product _ _ left right =>
      intro x member
      obtain ⟨m, first, n, second, rfl⟩ := mem_multiplied.mp member
      exact mem_multiplied.mpr
        ⟨m, left (mem_dependent.mp first).1, n, right (mem_dependent.mp second).1, rfl⟩

theorem IsPolynomial.unlabelled (poly : IsPolynomial e) : Unlabelled e := by
  induction poly with
  | terminal data => exact unlabelled_terminal data
  | sum _ _ left right | product _ _ left right =>
      exact unlabelled_of_operands nofun (operands_pair left right)

theorem IsPolynomial.consistent (poly : IsPolynomial e) : Consistent e :=
  consistent_of_unlabelled poly.unlabelled

/-- The value of a polynomial in a ring, for values of its terminals. -/
def ringValue {R : Type*} [CommSemiring R] (f : Terminal → R) : Expr → R
  | .terminal data => f data
  | .node .sum [a, b] _ _ => ringValue f a + ringValue f b
  | .node .product [a, b] _ _ => ringValue f a * ringValue f b
  | _ => 0

theorem sum_multiplied {R : Type*} [CommSemiring R] (f : Terminal → R) (ms ns : List (List Terminal)) :
    ((multiplied ms ns).map fun m => (m.map f).prod).sum =
      (ms.map fun m => (m.map f).prod).sum * (ns.map fun n => (n.map f).prod).sum := by
  induction ms with
  | nil => simp [multiplied]
  | cons m ms ih =>
      have first : ((ns.map fun n => m ++ n).map fun x => (x.map f).prod).sum =
          (m.map f).prod * (ns.map fun n => (n.map f).prod).sum := by
        simp only [List.map_map, Function.comp_def, List.map_append, List.prod_append,
          List.sum_map_mul_left]
      rw [multiplied, List.flatMap_cons, List.map_append, List.sum_append, first, List.map_cons,
        List.sum_cons, add_mul, ← ih, multiplied]

/-- A polynomial is the sum of its monomials. -/
theorem IsPolynomial.ring_value {R : Type*} [CommSemiring R] (poly : IsPolynomial e) (f : Terminal → R) :
    ringValue f e = ((monomials e).map fun m => (m.map f).prod).sum := by
  induction poly with
  | terminal data => simp [ringValue, monomials]
  | sum _ _ left right => rw [ringValue, monomials, left, right, List.map_append, List.sum_append]
  | @product a b _ _ _ _ left right =>
      rw [ringValue, monomials, left, right]
      exact (sum_multiplied f _ _).symm

end

section

variable {ms ns : List (List Terminal)} {A B D : DependencySet}

theorem ListsAll.empty (all : ListsAll ms D) : D.isEmpty = true ↔ ¬ ∃ m ∈ ms, argumentsOf m ≠ [] := by
  rw [is_empty_iff]
  constructor
  · rintro none ⟨m, member, own⟩
    exact none _ ((all _).mpr ⟨m, member, lists_of_list own⟩)
  · intro none t inside
    obtain ⟨m, member, lists⟩ := (all t).mp inside
    exact none ⟨m, member, lists.1⟩

theorem lists_all_sum (left : ListsAll ms A) (right : ListsAll ns B) :
    ListsAll (ms ++ ns) (A.union B) := by
  intro t
  rw [mem_union, left, right]
  simp only [List.mem_append, or_and_right, exists_or]

theorem lists_all_product (left : ListsAll ms A) (right : ListsAll ns B) (some : ms ≠ [])
    (some' : ns ≠ []) (run : A.combine? B = .some D) :
    ListsAll (multiplied (dependent ms) (dependent ns)) D := by
  intro t
  rw [mem_combine run]
  constructor
  · rintro (⟨empty, inside⟩ | ⟨empty, inside⟩ | ⟨s, inside, s', inside', rfl⟩)
    · -- No monomial of the first factor has an argument, so any of them will do.
      obtain ⟨m, any⟩ := List.exists_mem_of_ne_nil _ (dependent_nonempty some)
      obtain ⟨n, member, lists⟩ := (right t).mp inside
      have none : argumentsOf m = [] :=
        by_contra fun own => left.empty.mp empty ⟨m, (mem_dependent.mp any).1, own⟩
      have kept : n ∈ dependent ns := mem_dependent.mpr ⟨member, fun _ => lists.1⟩
      exact ⟨m ++ n, mem_multiplied.mpr ⟨m, any, n, kept, rfl⟩, (lists_append_right none).mpr lists⟩
    · obtain ⟨n, any⟩ := List.exists_mem_of_ne_nil _ (dependent_nonempty some')
      obtain ⟨m, member, lists⟩ := (left t).mp inside
      have none : argumentsOf n = [] :=
        by_contra fun own => right.empty.mp empty ⟨n, (mem_dependent.mp any).1, own⟩
      have kept : m ∈ dependent ms := mem_dependent.mpr ⟨member, fun _ => lists.1⟩
      exact ⟨m ++ n, mem_multiplied.mpr ⟨m, kept, n, any, rfl⟩, (lists_append_left none).mpr lists⟩
    · obtain ⟨m, member, lists⟩ := (left s).mp inside
      obtain ⟨n, member', lists'⟩ := (right s').mp inside'
      have kept : m ∈ dependent ms := mem_dependent.mpr ⟨member, fun _ => lists.1⟩
      have kept' : n ∈ dependent ns := mem_dependent.mpr ⟨member', fun _ => lists'.1⟩
      exact ⟨m ++ n, mem_multiplied.mpr ⟨m, kept, n, kept', rfl⟩, lists.append lists'⟩
  · rintro ⟨_, member, lists⟩
    obtain ⟨m, first, n, second, rfl⟩ := mem_multiplied.mp member
    obtain ⟨first, own⟩ := mem_dependent.mp first
    obtain ⟨second, own'⟩ := mem_dependent.mp second
    by_cases none : argumentsOf m = []
    · refine .inl ⟨left.empty.mpr fun other => own other none, ?_⟩
      exact (right t).mpr ⟨n, second, (lists_append_right none).mp lists⟩
    by_cases none' : argumentsOf n = []
    · refine .inr (.inl ⟨right.empty.mpr fun other => own' other none', ?_⟩)
      exact (left t).mpr ⟨m, first, (lists_append_left none').mp lists⟩
    · have here := lists_of_list none
      have there := lists_of_list none'
      exact .inr (.inr ⟨_, (left _).mpr ⟨m, first, here⟩, _, (right _).mpr ⟨n, second, there⟩,
        lists.eq (here.append there)⟩)

theorem Covered.under {list : List Argument} (covered : Covered A list) (under : Under A D) :
    Covered D list := by
  intro some
  obtain ⟨t, member, part⟩ := covered some
  obtain ⟨t', member', part'⟩ := under t member
  exact ⟨t', member', fun a inside => part' a (part a inside)⟩

theorem covered_product {xs ys : List Argument} (left : Covered A xs) (right : Covered B ys)
    (run : A.combine? B = some D) : Covered D (xs ++ ys) := by
  by_cases none : xs = []
  · rw [none, List.nil_append]
    exact right.under (under_combine_right run)
  by_cases none' : ys = []
  · rw [none', List.append_nil]
    exact left.under (under_combine_left run)
  · obtain ⟨s, member, part⟩ := left none
    obtain ⟨t, member', part'⟩ := right none'
    refine fun _ => ⟨s.union t, (mem_combine run).mpr (.inr (.inr ⟨s, member, t, member', rfl⟩)), ?_⟩
    intro a inside
    exact mem_union.mpr ((List.mem_append.mp inside).imp (part a) (part' a))

theorem nodup_product {xs ys : List Argument} (left : Covered A xs) (right : Covered B ys)
    (run : A.combine? B = some D) (single : xs.Nodup) (single' : ys.Nodup) : (xs ++ ys).Nodup := by
  refine List.nodup_append.mpr ⟨single, single', ?_⟩
  rintro a inside _ inside' rfl
  obtain ⟨s, member, part⟩ := left (List.ne_nil_of_mem inside)
  obtain ⟨t, member', part'⟩ := right (List.ne_nil_of_mem inside')
  exact combine_apart run member member' a (part a inside) (part' a inside')

end

section

variable {e a b : Expr} {shape : Shape} {free : FreeIndices} {D : DependencySet}

theorem depends_terminal_cases {data : Terminal} (depends : Depends (.terminal data) D) :
    (∃ x, argumentsOf [data] = [x] ∧ D = .ofArgument x) ∨ (argumentsOf [data] = [] ∧ D = ∅) := by
  cases depends with
  | argument x => exact .inl ⟨x, rfl, rfl⟩
  | terminal none => exact .inr ⟨List.filterMap_cons_none none, rfl⟩

theorem depends_sum_cases (depends : Depends (.node .sum [a, b] shape free) D) :
    ∃ A B, Depends a A ∧ Depends b B ∧ D = A.union B := by
  cases depends with
  | sum left right => exact ⟨_, _, left, right, rfl⟩
  | linear kind | nonlinear kind | product kind => exact absurd kind (by decide)

theorem depends_product_cases (depends : Depends (.node .product [a, b] shape free) D) :
    ∃ A B, Depends a A ∧ Depends b B ∧ A.combine? B = some D := by
  cases depends with
  | product _ left right run => exact ⟨_, _, left, right, run⟩
  | linear kind | nonlinear kind => exact absurd kind (by decide)

/-- The dependencies of a polynomial are the argument sets of the monomials it retains. -/
theorem IsPolynomial.lists_retained (poly : IsPolynomial e) (depends : Depends e D) :
    ListsAll (retained e) D := by
  induction poly generalizing D with
  | terminal data =>
      intro t
      simp only [retained, List.mem_singleton, exists_eq_left]
      obtain ⟨x, only, rfl⟩ | ⟨none, rfl⟩ := depends_terminal_cases depends
      · have lists := lists_of_list (m := [data]) (by rw [only]; exact List.cons_ne_nil x [])
        rw [only] at lists
        exact mem_single.trans ⟨fun same => same ▸ lists, fun other => other.eq lists⟩
      · exact iff_of_false (not_mem_empty t) fun lists => lists.1 none
  | sum _ _ left right =>
      obtain ⟨A, B, first, second, rfl⟩ := depends_sum_cases depends
      exact lists_all_sum (left first) (right second)
  | product one other left right =>
      obtain ⟨A, B, first, second, run⟩ := depends_product_cases depends
      exact lists_all_product (left first) (right second) one.retained_nonempty
        other.retained_nonempty run

theorem IsPolynomial.covered (poly : IsPolynomial e) (depends : Depends e D) :
    ∀ m ∈ monomials e, (argumentsOf m).Nodup ∧ Covered D (argumentsOf m) := by
  induction poly generalizing D with
  | terminal data =>
      intro m member
      obtain rfl := List.mem_singleton.mp member
      obtain ⟨x, only, rfl⟩ | ⟨none, rfl⟩ := depends_terminal_cases depends
      · rw [only]
        refine ⟨List.nodup_singleton x, fun _ => ⟨.single x, mem_single.mpr rfl, ?_⟩⟩
        exact fun a inside => mem_single.mpr (List.mem_singleton.mp inside)
      · rw [none]
        exact ⟨List.nodup_nil, fun some => absurd rfl some⟩
  | sum _ _ left right =>
      obtain ⟨A, B, first, second, rfl⟩ := depends_sum_cases depends
      intro m member
      rcases List.mem_append.mp member with member | member
      · obtain ⟨single, covered⟩ := left first m member
        exact ⟨single, covered.under (under_union_left A B)⟩
      · obtain ⟨single, covered⟩ := right second m member
        exact ⟨single, covered.under (under_union_right A B)⟩
  | product _ _ left right =>
      obtain ⟨A, B, first, second, run⟩ := depends_product_cases depends
      intro x member
      obtain ⟨m, here, n, there, rfl⟩ := mem_multiplied.mp member
      obtain ⟨single, covered⟩ := left first m here
      obtain ⟨single', covered'⟩ := right second n there
      rw [arguments_append]
      exact ⟨nodup_product covered covered' run single single', covered_product covered covered' run⟩

/-- A polynomial in which no monomial has an argument twice has dependencies. -/
theorem IsPolynomial.depends (poly : IsPolynomial e)
    (single : ∀ m ∈ monomials e, (argumentsOf m).Nodup) : ∃ D, Depends e D := by
  induction poly with
  | terminal data =>
      cases data with
      | argument a => exact ⟨_, .argument a⟩
      | _ => exact ⟨_, .terminal rfl⟩
  | sum _ _ left right =>
      obtain ⟨A, first⟩ := left fun m member => single m (List.mem_append_left _ member)
      obtain ⟨B, second⟩ := right fun m member => single m (List.mem_append_right _ member)
      exact ⟨_, .sum first second⟩
  | @product a b _ _ one other left right =>
      have both {m n : List Terminal} (member : m ∈ monomials a) (member' : n ∈ monomials b) :
          (argumentsOf m ++ argumentsOf n).Nodup :=
        arguments_append m n ▸ single _ (mem_multiplied.mpr ⟨m, member, n, member', rfl⟩)
      obtain ⟨n, any⟩ := List.exists_mem_of_ne_nil _ other.monomials_nonempty
      obtain ⟨A, first⟩ := left fun m member => (List.nodup_append.mp (both member any)).1
      obtain ⟨m, any⟩ := List.exists_mem_of_ne_nil _ one.monomials_nonempty
      obtain ⟨B, second⟩ := right fun n member => (List.nodup_append.mp (both any member)).2.1
      cases run : A.combine? B with
      | some D => exact ⟨D, .product (by decide) first second run⟩
      | none =>
          -- The analysis overrates no factor: terms that share an argument are those of monomials.
          obtain ⟨s, inside, t, inside', x, here, there⟩ := combine_none.mp run
          obtain ⟨m, member, lists⟩ := (one.lists_retained first s).mp inside
          obtain ⟨n, member', lists'⟩ := (other.lists_retained second t).mp inside'
          have apart := both (one.retained_subset member) (other.retained_subset member')
          exact absurd ((lists'.2 x).mp there)
            (List.disjoint_of_nodup_append apart ((lists.2 x).mp here))

theorem is_multilinear_ok (run : e.dependencies = .ok D) : e.isMultilinear = .ok true := by
  unfold isMultilinear dependencies?
  rw [run]
  rfl

theorem is_multilinear_refused {x : Expr} (run : e.dependencies = .error (.notMultilinear x)) :
    e.isMultilinear = .ok false := by
  unfold isMultilinear dependencies?
  rw [run]
  rfl

/-- A polynomial is accepted exactly if no monomial of it has an argument twice, and is refused as
not multilinear otherwise. -/
theorem polynomial_accepted_iff (made : Constructible e) (poly : IsPolynomial e) :
    ((∃ D, e.dependencies = .ok D) ↔ ∀ m ∈ monomials e, (argumentsOf m).Nodup) ∧
    (e.isMultilinear = .ok true ↔ ∀ m ∈ monomials e, (argumentsOf m).Nodup) ∧
    ((¬ ∀ m ∈ monomials e, (argumentsOf m).Nodup) →
      (∃ x, e.dependencies = .error (.notMultilinear x)) ∧ e.isMultilinear = .ok false) := by
  have answers {D : DependencySet} : e.dependencies = .ok D ↔ Depends e D :=
    dependencies_ok made.well_typed poly.consistent
  have accepted (single : ∀ m ∈ monomials e, (argumentsOf m).Nodup) :
      ∃ D, e.dependencies = .ok D := by
    obtain ⟨D, depends⟩ := poly.depends single
    exact ⟨D, answers.mpr depends⟩
  have refused (twice : ¬ ∀ m ∈ monomials e, (argumentsOf m).Nodup) :
      ∃ x, e.dependencies = .error (.notMultilinear x) :=
    dependencies_refused made.well_typed poly.consistent fun D depends =>
      twice fun m member => (poly.covered depends m member).1
  have only {D : DependencySet} (run : e.dependencies = .ok D) :
      ∀ m ∈ monomials e, (argumentsOf m).Nodup :=
    fun m member => (poly.covered (answers.mp run) m member).1
  refine ⟨⟨fun ⟨D, run⟩ => only run, accepted⟩, ⟨fun multilinear => ?_, fun single => ?_⟩, fun twice => ?_⟩
  · by_contra twice
    obtain ⟨x, run⟩ := refused twice
    rw [is_multilinear_refused run] at multilinear
    cases multilinear
  · obtain ⟨D, run⟩ := accepted single
    exact is_multilinear_ok run
  · obtain ⟨x, run⟩ := refused twice
    exact ⟨⟨x, run⟩, is_multilinear_refused run⟩

end

/-! A product of two factors that are mixed. -/

def mixedFactor (a : Argument) : Expr :=
  .node .sum [.terminal (.argument a), .terminal (.coefficient ⟨0, .scalar 2⟩)] [] ∅

def mixedProduct : Expr := .node .product [mixedFactor testArgument, mixedFactor trialArgument] [] ∅

theorem mixed_factor_constructible {a : Argument} (member : a ∈ [testArgument, trialArgument]) :
    (mixedFactor a).Constructible := by
  have summands := operands_pair (.terminal (.argument a))
    (Constructible.terminal (.coefficient ⟨0, .scalar 2⟩))
  simp only [List.mem_cons, List.not_mem_nil, or_false] at member
  rcases member with rfl | rfl
  · exact .assemble .sum (by decide) summands rfl
  · exact .assemble .sum (by decide) summands rfl

theorem mixed_product_constructible : mixedProduct.Constructible := by
  have factors := operands_pair (mixed_factor_constructible (by decide : testArgument ∈ _))
    (mixed_factor_constructible (by decide : trialArgument ∈ _))
  exact .assemble .product (by decide) factors (by cbv)

theorem mixed_product_polynomial : IsPolynomial mixedProduct :=
  .product (.sum (.terminal _) (.terminal _)) (.sum (.terminal _) (.terminal _))

theorem mixed_product_accepted :
    mixedProduct.isMultilinear = .ok true ∧ testSquare.isMultilinear = .ok false := by
  obtain ⟨_, accepted, _⟩ := polynomial_accepted_iff mixed_product_constructible mixed_product_polynomial
  obtain ⟨_, _, refused⟩ := polynomial_accepted_iff test_square_constructible
    (.product (.terminal _) (.terminal _))
  exact ⟨accepted.mpr (by decide), (refused (by decide)).2⟩

theorem mixed_product_dependencies :
    mixedProduct.dependencies = .ok (.single (.ofList [testArgument, trialArgument])) := by
  have factor (a : Argument) : Depends (mixedFactor a) ((DependencySet.ofArgument a).union ∅) :=
    .sum (.argument a) (.terminal rfl)
  exact (dependencies_ok mixed_product_constructible.well_typed mixed_product_polynomial.consistent).mpr
    (.product (by decide) (factor testArgument) (factor trialArgument) rfl)

section

variable {e : Expr} {D : DependencySet}

/-- The dependencies of a polynomial list its retained monomials. They list all of its monomials
exactly if no argument set is lost with a monomial that is not retained. -/
theorem polynomial_dependencies_iff (made : Constructible e) (poly : IsPolynomial e)
    (run : e.dependencies = .ok D) :
    ListsAll (retained e) D ∧
      (ListsAll (monomials e) D ↔ ∀ m ∈ monomials e, argumentsOf m ≠ [] →
        ∃ n ∈ retained e, ∀ a, a ∈ argumentsOf n ↔ a ∈ argumentsOf m) := by
  have kept := poly.lists_retained ((dependencies_ok made.well_typed poly.consistent).mp run)
  refine ⟨kept, fun all m member own => ?_, fun found t => ?_⟩
  · have lists := lists_of_list own
    obtain ⟨n, inside, lists'⟩ := (kept _).mp ((all _).mpr ⟨m, member, lists⟩)
    exact ⟨n, inside, fun a => (lists'.2 a).symm.trans (lists.2 a)⟩
  · rw [kept]
    constructor
    · rintro ⟨n, inside, lists⟩
      exact ⟨n, poly.retained_subset inside, lists⟩
    · rintro ⟨m, member, own, same⟩
      obtain ⟨n, inside, same'⟩ := found m member own
      obtain ⟨a, some⟩ := List.exists_mem_of_ne_nil _ own
      exact ⟨n, inside, List.ne_nil_of_mem ((same' a).mpr some), fun a => (same a).trans (same' a).symm⟩

end

/-- The product has a monomial with the first argument alone, and its dependencies do not list it. -/
theorem mixed_product_unlisted :
    ListsAll (retained mixedProduct) (.single (.ofList [testArgument, trialArgument])) ∧
      ¬ ListsAll (monomials mixedProduct) (.single (.ofList [testArgument, trialArgument])) := by
  obtain ⟨kept, exact_iff⟩ := polynomial_dependencies_iff mixed_product_constructible
    mixed_product_polynomial mixed_product_dependencies
  refine ⟨kept, fun all => ?_⟩
  obtain ⟨n, inside, same⟩ := exact_iff.mp all
    [.argument testArgument, .coefficient ⟨0, .scalar 2⟩] (by decide) (by decide)
  have only : n = [.argument testArgument, .argument trialArgument] :=
    List.mem_singleton.mp (show n ∈ [_] from inside)
  subst only
  exact absurd ((same trialArgument).mp (by decide)) (by decide)

/-- Multiplying a sum out keeps the dependencies unless exactly one of the summands has none. -/
theorem multiplied_out_iff {a b c : Expr} {A B C D E : DependencySet}
    {shape shape' shape₁ shape₂ shape₃ : Shape} {free free' free₁ free₂ free₃ : FreeIndices}
    (first : Depends a A) (second : Depends b B) (third : Depends c C)
    (whole : Depends (.node .product [a, .node .sum [b, c] shape free] shape' free') D)
    (parts : Depends (.node .sum
      [.node .product [a, b] shape₁ free₁, .node .product [a, c] shape₂ free₂] shape₃ free₃) E) :
    D = E ↔ A.isEmpty = true ∨ (B.isEmpty = true ↔ C.isEmpty = true) := by
  obtain ⟨A₁, S, factor, summands, run⟩ := depends_product_cases whole
  obtain ⟨E₁, E₂, left, right, rfl⟩ := depends_sum_cases parts
  obtain ⟨A₂, B₂, factor₂, summand₂, run₂⟩ := depends_product_cases left
  obtain ⟨A₃, C₃, factor₃, summand₃, run₃⟩ := depends_product_cases right
  obtain rfl := first.unique factor
  obtain rfl := first.unique factor₂
  obtain rfl := first.unique factor₃
  obtain rfl := second.unique summand₂
  obtain rfl := third.unique summand₃
  obtain rfl := (Depends.sum second third).unique summands
  exact combine_union_iff run run₂ run₃ summands.own

end FormCalculus
