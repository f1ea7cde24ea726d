import Mathlib.Algebra.BigOperators.Group.List.Basic
import Mathlib.Algebra.GroupWithZero.Defs
import FormCalculus.Proofs.Depending

/-!
Dependency sets as a commutative monoid with failure: products are its operation, the set without
terms its unit, and a refusal its zero. Neither the order of factors nor the way in which they are
multiplied two at a time shows in the dependencies of a product.
-/
set_option autoImplicit false

namespace FormCalculus

namespace DependencySet

open OrderedSet

variable {A B C D E F : DependencySet} {t : DependencyTerm}

/-! Products of two sets. -/

theorem empty_combine (A : DependencySet) : combine? ∅ A = some A := rfl

theorem combine_empty (A : DependencySet) : combine? A ∅ = some A := by
  unfold combine?
  by_cases empty : A.isEmpty = true
  · rw [if_pos empty, eq_empty empty]
  · rw [if_neg empty]
    rfl

theorem combine_none_iff : combine? A B = none ↔ ∃ a, Mentions A a ∧ Mentions B a := by
  rw [combine_none]
  constructor
  · rintro ⟨s, left, t, right, a, inside, inside'⟩
    exact ⟨a, ⟨s, left, inside⟩, ⟨t, right, inside'⟩⟩
  · rintro ⟨a, ⟨s, left, inside⟩, ⟨t, right, inside'⟩⟩
    exact ⟨s, left, t, right, a, inside, inside'⟩

theorem combine_comm (A B : DependencySet) : combine? A B = combine? B A :=
  Option.ext fun _ => ⟨combine_swap, combine_swap⟩

theorem mem_pairs_combined (run : combine? A B = some D) (left : ¬ A.isEmpty = true)
    (right : ¬ B.isEmpty = true) : t ∈ D ↔ ∃ s ∈ A, ∃ s' ∈ B, t = s.union s' := by
  rw [mem_combine run, or_iff_right fun empty => left empty.1, or_iff_right fun empty => right empty.1]

theorem combined_some (run : combine? A B = some D) (left : ¬ A.isEmpty = true) :
    ¬ D.isEmpty = true :=
  fun empty => left ((under_combine_left run).empty empty)

/-- Three factors with terms, multiplied from the left and from the right, have the same triples. -/
theorem combined_triples {G : DependencySet} (left : ¬ A.isEmpty = true) (middle : ¬ B.isEmpty = true)
    (right : ¬ C.isEmpty = true) (first : combine? A B = some D) (whole : combine? D C = some F)
    (other : combine? B C = some E) (whole' : combine? A E = some G) : G = F := by
  refine ext_mem fun t => ?_
  rw [mem_pairs_combined whole' left (combined_some other middle),
    mem_pairs_combined whole (combined_some first left) right]
  constructor
  · rintro ⟨s, here, u, there, rfl⟩
    obtain ⟨s', inside, s'', last, rfl⟩ := (mem_pairs_combined other middle right).mp there
    have pair := (mem_pairs_combined first left middle).mpr ⟨s, here, s', inside, rfl⟩
    exact ⟨s.union s', pair, s'', last, (union_assoc s s' s'').symm⟩
  · rintro ⟨u, there, s'', last, rfl⟩
    obtain ⟨s, here, s', inside, rfl⟩ := (mem_pairs_combined first left middle).mp there
    have pair := (mem_pairs_combined other middle right).mpr ⟨s', inside, s'', last, rfl⟩
    exact ⟨s, here, s'.union s'', pair, union_assoc s s' s''⟩

theorem combine_shift (first : combine? A B = some D) (whole : combine? D C = some F) :
    ∃ E, combine? B C = some E ∧ combine? A E = some F := by
  -- A factor without terms is a unit, so that there are only two to multiply.
  by_cases left : A.isEmpty = true
  · obtain rfl := eq_empty left
    cases first
    exact ⟨F, whole, rfl⟩
  by_cases middle : B.isEmpty = true
  · obtain rfl := eq_empty middle
    rw [combine_empty] at first
    cases first
    exact ⟨C, rfl, whole⟩
  by_cases right : C.isEmpty = true
  · obtain rfl := eq_empty right
    rw [combine_empty] at whole
    cases whole
    exact ⟨B, combine_empty B, first⟩
  -- An argument that two of the three mention makes either way fail.
  cases other : combine? B C with
  | none =>
      obtain ⟨a, inside, inside'⟩ := combine_none_iff.mp other
      have fails := combine_none_iff.mpr ⟨a, (mentions_combine first).mpr (.inr inside), inside'⟩
      rw [fails] at whole
      cases whole
  | some E =>
      refine ⟨E, rfl, ?_⟩
      cases whole' : combine? A E with
      | none =>
          obtain ⟨a, inside, inside'⟩ := combine_none_iff.mp whole'
          rcases (mentions_combine other).mp inside' with second | third
          · rw [combine_none_iff.mpr ⟨a, inside, second⟩] at first
            cases first
          · rw [combine_none_iff.mpr ⟨a, (mentions_combine first).mpr (.inl inside), third⟩] at whole
            cases whole
      | some G => exact congrArg some (combined_triples left middle right first whole other whole')

theorem combine_assoc (A B C : DependencySet) :
    ((combine? A B).bind fun D => combine? D C) = (combine? B C).bind fun E => combine? A E := by
  refine Option.ext fun F => ?_
  rw [Option.bind_eq_some_iff, Option.bind_eq_some_iff]
  constructor
  · rintro ⟨D, first, whole⟩
    exact combine_shift first whole
  · rintro ⟨E, first, whole⟩
    obtain ⟨D, second, whole⟩ := combine_shift (combine_swap first) (combine_swap whole)
    exact ⟨D, combine_swap second, combine_swap whole⟩

/-- A product distributes over a sum of two sets with terms, and fails exactly if it fails with one of
the summands. -/
theorem combine_distributes (A : DependencySet) (left : ¬ B.isEmpty = true) (right : ¬ C.isEmpty = true) :
    combine? A (B.union C) =
      (combine? A B).bind fun E => (combine? A C).bind fun F => some (E.union F) := by
  cases whole : combine? A (B.union C) with
  | none =>
      obtain ⟨a, inside, mentioned⟩ := combine_none_iff.mp whole
      rcases mentions_union.mp mentioned with second | third
      · rw [combine_none_iff.mpr ⟨a, inside, second⟩]
        rfl
      · rw [combine_none_iff.mpr ⟨a, inside, third⟩]
        cases combine? A B <;> rfl
  | some D =>
      obtain ⟨E, first, _⟩ := combine_under whole (Under.refl A) (under_union_left B C)
      obtain ⟨F, second, _⟩ := combine_under whole (Under.refl A) (under_union_right B C)
      rw [first, second]
      exact congrArg some (combine_union whole first second (.inr (iff_of_false left right)))

end DependencySet

/-- The dependencies of a factor, unless it is not multilinear. -/
inductive FactorValue
  | of (set : DependencySet)
  | refused

namespace FactorValue

open DependencySet

def ofOption : Option DependencySet → FactorValue
  | some D => .of D
  | none => .refused

/-- What the analysis answers at `e`. -/
def answer (e : Expr) : FactorValue → Except TransformError DependencySet
  | .of D => .ok D
  | .refused => .error (.notMultilinear e)

def times : FactorValue → FactorValue → FactorValue
  | .of A, .of B => ofOption (combine? A B)
  | _, _ => .refused

theorem times_refused (a : FactorValue) : times a .refused = .refused := by
  cases a <;> rfl

theorem option_times (a : Option DependencySet) (B : DependencySet) :
    times (ofOption a) (.of B) = ofOption (a.bind fun A => combine? A B) := by
  cases a <;> rfl

theorem times_option (A : DependencySet) (b : Option DependencySet) :
    times (.of A) (ofOption b) = ofOption (b.bind fun B => combine? A B) := by
  cases b <;> rfl

theorem times_comm (a b : FactorValue) : times a b = times b a := by
  cases a with
  | refused => exact (times_refused b).symm
  | of A =>
      cases b with
      | refused => rfl
      | of B => exact congrArg ofOption (combine_comm A B)

theorem times_assoc (a b c : FactorValue) : times (times a b) c = times a (times b c) := by
  cases a with
  | refused => rfl
  | of A =>
      cases b with
      | refused => rfl
      | of B =>
          cases c with
          | refused => exact times_refused _
          | of C =>
              calc times (ofOption (combine? A B)) (.of C)
                  = ofOption ((combine? A B).bind fun D => combine? D C) := option_times _ C
                _ = ofOption ((combine? B C).bind fun E => combine? A E) := by rw [combine_assoc]
                _ = times (.of A) (ofOption (combine? B C)) := (times_option A _).symm

theorem unit_times (a : FactorValue) : times (.of ∅) a = a := by
  cases a <;> rfl

/-- A refusal is the zero of products. -/
instance : CommMonoidWithZero FactorValue where
  mul := times
  one := .of ∅
  zero := .refused
  mul_assoc := times_assoc
  mul_comm := times_comm
  one_mul := unit_times
  mul_one a := (times_comm a _).trans (unit_times a)
  zero_mul _ := rfl
  mul_zero := times_refused

theorem of_mul_of (A B : DependencySet) : of A * of B = ofOption (combine? A B) := rfl

theorem fold_combine (A : DependencySet) (sets : List DependencySet) :
    ofOption (sets.foldlM combine? A) = of A * (sets.map of).prod := by
  induction sets generalizing A with
  | nil => exact (mul_one (of A)).symm
  | cons B rest ih =>
      rw [List.map_cons, List.prod_cons, ← mul_assoc, of_mul_of, List.foldlM_cons]
      cases combine? A B with
      | none => exact (zero_mul _).symm
      | some D => exact ih D

end FactorValue

open FactorValue

theorem Dependency.product_prod (e : Expr) (sets : List DependencySet) :
    product e sets = ((sets.map of).prod).answer e := by
  have folded : ofOption (sets.foldlM DependencySet.combine? ∅) = (sets.map of).prod :=
    (fold_combine ∅ sets).trans (one_mul _)
  unfold product
  rw [← folded]
  cases sets.foldlM DependencySet.combine? ∅ <;> rfl

/-- Factors multiplied two at a time. -/
inductive Bracketing (α : Type)
  | factor (x : α)
  | times (left right : Bracketing α)

namespace Bracketing

def factors {α : Type} : Bracketing α → List α
  | factor x => [x]
  | times left right => left.factors ++ right.factors

/-- The rule of products applied to two sets at a time. -/
def combined (e : Expr) : Bracketing DependencySet → Except TransformError DependencySet
  | factor A => .ok A
  | times left right => do
      let A ← left.combined e
      let B ← right.combined e
      Dependency.product e [A, B]

theorem combined_prod (e : Expr) (t : Bracketing DependencySet) :
    t.combined e = ((t.factors.map of).prod).answer e := by
  induction t with
  | factor A => exact congrArg (answer e) (mul_one (of A)).symm
  | times left right ih ih' =>
      rw [combined, ih, ih', factors, List.map_append, List.prod_append]
      cases (left.factors.map of).prod with
      | refused => rfl
      | of A =>
          cases (right.factors.map of).prod with
          | refused => rfl
          | of B =>
              have pair : ([A, B].map of).prod = of A * of B := by simp
              exact (Dependency.product_prod e [A, B]).trans (congrArg (answer e) pair)

/-- The expression multiplies these factors in this way, each time by some kind of product. -/
inductive Multiplies : Bracketing Expr → Expr → Prop
  | factor (e : Expr) : Multiplies (.factor e) e
  | times {left right : Bracketing Expr} {op : Operator} {a b : Expr} {shape : Shape}
      {free : FreeIndices} : op.kind ∈ Dependency.productKinds → Multiplies left a →
      Multiplies right b → Multiplies (.times left right) (.node op [a, b] shape free)

end Bracketing

namespace Expr

variable {e a b r : Expr}

def factorValue (e : Expr) : FactorValue :=
  match e.revisit Dependency.rules with
  | .ok D => .of D
  | .error _ => .refused

theorem dependencies_eq_of_value {e' : Expr} (consistent : e.Consistent) (consistent' : e'.Consistent)
    (same : e.factorValue = e'.factorValue) : e.dependencies? = e'.dependencies? := by
  have run : e.dependencies = e.revisit Dependency.rules := transform_revisits consistent
  have run' : e'.dependencies = e'.revisit Dependency.rules := transform_revisits consistent'
  unfold factorValue at same
  unfold dependencies?
  rw [run, run']
  cases first : e.revisit Dependency.rules with
  | ok D =>
      cases second : e'.revisit Dependency.rules with
      | ok D' =>
          rw [first, second] at same
          rw [FactorValue.of.inj same]
      | error err => simp [first, second] at same
  | error err =>
      -- The parts at which the two are refused may differ, and the answer leaves them out.
      obtain ⟨x, rfl⟩ := revisit_error first
      cases second : e'.revisit Dependency.rules with
      | ok D' => simp [first, second] at same
      | error err' =>
          obtain ⟨x', rfl⟩ := revisit_error second
          rfl

theorem revisit_two {op : Operator} {shape : Shape} {free : FreeIndices} :
    (node op [a, b] shape free).revisit Dependency.rules = (do
      let A ← a.revisit Dependency.rules
      let B ← b.revisit Dependency.rules
      ruled Dependency.rules (node op [a, b] shape free) [A, B]) := by
  rw [revisit_eq]
  show (do ruled _ _ (← [a, b].mapM (revisit Dependency.rules))) = _
  rw [List.mapM_cons, List.mapM_cons, List.mapM_nil]
  cases a.revisit Dependency.rules with
  | error err => rfl
  | ok A => cases b.revisit Dependency.rules <;> rfl

theorem factor_value_product {op : Operator} {shape : Shape} {free : FreeIndices}
    (kind : op.kind ∈ Dependency.productKinds) :
    (node op [a, b] shape free).factorValue = a.factorValue * b.factorValue := by
  unfold factorValue
  rw [revisit_two]
  cases a.revisit Dependency.rules with
  | error err => rfl
  | ok A =>
      cases b.revisit Dependency.rules with
      | error err => rfl
      | ok B =>
          show (match ruled Dependency.rules _ [A, B] with | .ok D => _ | .error _ => _) = _
          rw [ruled_node (rule_product kind), product_two, of_mul_of]
          cases DependencySet.combine? A B <;> rfl

/-! The products that the constructors make of scalars. -/

theorem to_expr_value (c : Constant) : c.toExpr.factorValue = 1 := by
  cases c <;> rfl

theorem constant_value {c : Constant} (found : e.constant? = some c) : e.factorValue = 1 := by
  unfold constant? at found
  split at found <;> first | rfl | cases found

theorem one_value (one : e.isOne = true) : e.factorValue = 1 := by
  unfold isOne at one
  cases found : e.constant? with
  | some c => exact constant_value found
  | none => simp [found] at one

theorem scalar_product_value [Folding] (run : scalarProduct a b = .ok r) :
    r.isZero = true ∨ r.factorValue = a.factorValue * b.factorValue := by
  obtain ⟨_, _, free, _, ⟨_, rfl⟩ | folded | ⟨one, rfl⟩ | ⟨one, rfl⟩ | rfl⟩ := scalar_product_cases run
  · exact .inl rfl
  · obtain ⟨x, y, z, left, right, _, rfl⟩ := fold_some folded
    rw [constant_value left, constant_value right, to_expr_value, mul_one]
    exact .inr rfl
  · rw [one_value one, one_mul]
    exact .inr rfl
  · rw [one_value one, mul_one]
    exact .inr rfl
  · right
    rcases sorted_pair_cases a b with same | same
    · rw [same, factor_value_product (by decide)]
    · rw [same, factor_value_product (by decide), mul_comm]

theorem index_sum_value {i : Index} (run : e.indexSum i = .ok r) :
    (e.isZero = true ∧ r.isZero = true) ∨ (e.isZero = false ∧ r.factorValue = e.factorValue) := by
  simp only [indexSum, except_bind_ok] at run
  obtain ⟨_, _, run⟩ := run
  obtain ⟨_, run⟩ := except_if_ok (by simp) run
  cases isZero : e.isZero with
  | true =>
      rw [if_pos isZero] at run
      cases run
      exact .inl ⟨rfl, rfl⟩
  | false =>
      rw [isZero] at run
      cases run
      refine .inr ⟨rfl, ?_⟩
      unfold factorValue
      rw [revisit_two]
      cases e.revisit Dependency.rules <;> rfl

theorem index_sums_value {indices : List Index} (run : e.indexSums indices = .ok r) :
    (e.isZero = true → r.isZero = true) ∧ (r.isZero = true ∨ r.factorValue = e.factorValue) := by
  induction indices generalizing e with
  | nil =>
      cases run
      exact ⟨id, .inr rfl⟩
  | cons i rest ih =>
      obtain ⟨once, first, run⟩ := index_sums_cons run
      obtain ⟨zero, value⟩ := ih run
      obtain ⟨isZero, vanished⟩ | ⟨isZero, same⟩ := index_sum_value first
      · exact ⟨fun _ => zero vanished, .inl (zero vanished)⟩
      · rw [isZero, ← same]
        exact ⟨nofun, value⟩

theorem contracted_product_value [Folding] (run : contractedProduct a b = .ok r) :
    (a.isZero = true ∨ b.isZero = true → r.isZero = true) ∧
      (r.isZero = true ∨ r.factorValue = a.factorValue * b.factorValue) := by
  obtain ⟨product, made, run⟩ := (except_bind_ok _ _ _).mp run
  obtain ⟨zero, value⟩ := index_sums_value run
  constructor
  · intro isZero
    obtain ⟨free, rfl⟩ := zero_product isZero made
    exact zero rfl
  · rcases scalar_product_value made with isZero | same
    · exact .inl (zero isZero)
    · rwa [same] at value

end Expr

namespace Bracketing

variable {t t' : Bracketing Expr} {e e' : Expr}

theorem Multiplies.value (multiplies : t.Multiplies e) :
    e.factorValue = (t.factors.map Expr.factorValue).prod := by
  induction multiplies with
  | factor e => exact (mul_one e.factorValue).symm
  | times kind _ _ left right =>
      rw [Expr.factor_value_product kind, left, right, factors, List.map_append, List.prod_append]

section

variable [Folding]

/-- The product of scalars as it is built, indices that two factors share being summed over. -/
def build : Bracketing Expr → Except BuildError Expr
  | factor e => .ok e
  | times left right => do
      let a ← left.build
      let b ← right.build
      Expr.contractedProduct a b

theorem build_value (run : t.build = .ok e) :
    e.isZero = true ∨ e.factorValue = (t.factors.map Expr.factorValue).prod := by
  induction t generalizing e with
  | factor x =>
      cases run
      exact .inr (mul_one _).symm
  | times left right ih ih' =>
      simp only [build, except_bind_ok] at run
      obtain ⟨a, first, b, second, run⟩ := run
      obtain ⟨zero, value⟩ := Expr.contracted_product_value run
      -- A zero that stands for some of the factors makes the whole product zero.
      rcases ih first with isZero | left
      · exact .inl (zero (.inl isZero))
      rcases ih' second with isZero | right
      · exact .inl (zero (.inr isZero))
      rwa [left, right, ← List.prod_append, ← List.map_append] at value

/-- Two products built of the same factors have the same dependencies, unless a zero among the factors,
or a constant that becomes zero as factors are folded, leaves nothing of one of them. -/
theorem build_dependencies (run : t.build = .ok e) (run' : t'.build = .ok e')
    (same : t.factors.Perm t'.factors) (some : e.isZero = false) (some' : e'.isZero = false)
    (consistent : e.Consistent) (consistent' : e'.Consistent) :
    e.dependencies? = e'.dependencies? := by
  have value := (build_value run).resolve_left (by simp [some])
  have value' := (build_value run').resolve_left (by simp [some'])
  refine Expr.dependencies_eq_of_value consistent consistent' ?_
  rw [value, value', (same.map Expr.factorValue).prod_eq]

end

end Bracketing

/-- Dependency sets make a commutative monoid under products, with failure, and products distribute
over sums of sets that have terms. So the dependencies of a product are the same, or it is refused,
whatever the order of its factors and the way in which they are multiplied two at a time. -/
theorem dependencies_multiply :
    (∀ (e : Expr) (A B C : DependencySet),
      Dependency.product e [A, B] = (match A.combine? B with
        | some D => .ok D
        | none => .error (.notMultilinear e)) ∧
      A.combine? B = B.combine? A ∧
      ((A.combine? B).bind fun D => D.combine? C) = ((B.combine? C).bind fun E => A.combine? E) ∧
      DependencySet.combine? ∅ A = some A ∧ A.combine? ∅ = some A) ∧
    (∀ A B C : DependencySet,
      A.union B = B.union A ∧ (A.union B).union C = A.union (B.union C) ∧ A.union A = A ∧
      (¬ B.isEmpty = true → ¬ C.isEmpty = true → A.combine? (B.union C) =
        (A.combine? B).bind fun E => (A.combine? C).bind fun F => some (E.union F))) ∧
    (∀ (e : Expr) (sets : List DependencySet) (t : Bracketing DependencySet), t.factors.Perm sets →
      t.combined e = Dependency.product e sets) ∧
    ∀ (t t' : Bracketing Expr) (e e' : Expr), t.Multiplies e → t'.Multiplies e' →
      t.factors.Perm t'.factors → e.Consistent → e'.Consistent → e.dependencies? = e'.dependencies? := by
  refine ⟨fun e A B C => ?_, fun A B C => ?_, fun e sets t same => ?_, ?_⟩
  · exact ⟨product_two A B, DependencySet.combine_comm A B, DependencySet.combine_assoc A B C,
      DependencySet.empty_combine A, DependencySet.combine_empty A⟩
  · exact ⟨OrderedSet.union_comm A B, OrderedSet.union_assoc A B C, OrderedSet.union_self A,
      DependencySet.combine_distributes A⟩
  · rw [Bracketing.combined_prod, Dependency.product_prod, (same.map of).prod_eq]
  · intro t t' e e' multiplies multiplies' same consistent consistent'
    refine Expr.dependencies_eq_of_value consistent consistent' ?_
    rw [multiplies.value, multiplies'.value, (same.map Expr.factorValue).prod_eq]

section Sample

def testAlone : DependencySet := .ofArgument testArgument

def trialAlone : DependencySet := .ofArgument trialArgument

def thirdAlone : DependencySet := .ofArgument ⟨2, none, .scalar 2⟩

/-- The product of two arguments times the first of them again. -/
def lateSquare : Expr := .node .product [mass, .terminal (.argument testArgument)] [] ∅

/-- The square of the first argument times the second. -/
def earlySquare : Expr := .node .product [testSquare, .terminal (.argument trialArgument)] [] ∅

theorem three_factors_consistent {first : Expr} (two : first = mass ∨ first = testSquare)
    (last : Argument) : Expr.Consistent (.node .product [first, .terminal (.argument last)] [] ∅) := by
  refine Expr.consistent_of_unlabelled (Expr.unlabelled_of_operands nofun ?_)
  refine Expr.operands_pair ?_ (Expr.unlabelled_terminal _)
  rcases two with rfl | rfl <;>
    exact Expr.unlabelled_of_operands nofun
      (Expr.operands_pair (Expr.unlabelled_terminal _) (Expr.unlabelled_terminal _))

/-- A product with an argument twice is refused, also where only the first and the last factor have it.
A product of three arguments depends on them together, and an argument multiplies the summands of a sum
one by one. -/
theorem squares_refused :
    (lateSquare.dependencies? = earlySquare.dependencies? ∧ earlySquare.dependencies? = .ok none) ∧
    Dependency.product mass [thirdAlone, testAlone, trialAlone] =
      .ok (.single (.ofList [testArgument, trialArgument, ⟨2, none, .scalar 2⟩])) ∧
    testAlone.combine? (trialAlone.union thirdAlone) =
      some (.ofList [.ofList [testArgument, trialArgument], .ofList [testArgument, ⟨2, none, .scalar 2⟩]]) := by
  obtain ⟨_, sums, rule, factors⟩ := dependencies_multiply
  refine ⟨⟨?_, ?_⟩, ?_, ?_⟩
  · let t : Expr := .terminal (.argument testArgument)
    let u : Expr := .terminal (.argument trialArgument)
    have late : (Bracketing.times (.times (.factor t) (.factor u)) (.factor t)).Multiplies lateSquare :=
      .times (by decide) (.times (by decide) (.factor t) (.factor u)) (.factor t)
    have early : (Bracketing.times (.times (.factor t) (.factor t)) (.factor u)).Multiplies earlySquare :=
      .times (by decide) (.times (by decide) (.factor t) (.factor t)) (.factor u)
    have same : [t, u, t].Perm [t, t, u] := (List.Perm.swap t u []).cons t
    exact factors _ _ _ _ late early same (three_factors_consistent (.inl rfl) _)
      (three_factors_consistent (.inr rfl) _)
  · have run : earlySquare.dependencies = earlySquare.revisit Dependency.rules :=
      Expr.transform_revisits (three_factors_consistent (.inr rfl) _)
    unfold Expr.dependencies?
    rw [run]
    rfl
  · let nested : Bracketing DependencySet :=
      .times (.factor testAlone) (.times (.factor trialAlone) (.factor thirdAlone))
    have same : nested.factors.Perm [thirdAlone, testAlone, trialAlone] :=
      @List.perm_append_comm _ [testAlone, trialAlone] [thirdAlone]
    rw [← rule mass _ nested same]
    rfl
  · rw [(sums testAlone trialAlone thirdAlone).2.2.2 (by decide) (by decide)]
    rfl

end Sample

end FormCalculus
