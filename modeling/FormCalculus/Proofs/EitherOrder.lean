import FormCalculus.Proofs.Commuting
import FormCalculus.Proofs.FreshAxes

/-!
Sums and products of scalars in either order, labels included. The operands of such a node are
sorted by an order that does not look into labelled expressions, so the two results are equal
rather than identical. Where one order fails the other one does, with an error of the same kind.
-/
set_option autoImplicit false

namespace FormCalculus

variable {α β : Type}

/-- Both runs have a result, and the results are related, or both fail, with errors of one
constructor. -/
inductive SameOutcome (R : α → α → Prop) : Except BuildError α → Except BuildError α → Prop
  | ok {x y : α} : R x y → SameOutcome R (.ok x) (.ok y)
  | error {d e : BuildError} : d.ctorIdx = e.ctorIdx → SameOutcome R (.error d) (.error e)

namespace SameOutcome

variable {R : α → α → Prop} {S : β → β → Prop} {act act' : Except BuildError α}

theorem mono {S : α → α → Prop} (outcome : SameOutcome R act act') (imp : ∀ x y, R x y → S x y) :
    SameOutcome S act act' := by
  cases outcome with
  | ok related => exact .ok (imp _ _ related)
  | error variant => exact .error variant

theorem bind {next next' : α → Except BuildError β} (outcome : SameOutcome R act act')
    (others : ∀ x y, act = .ok x → act' = .ok y → R x y → SameOutcome S (next x) (next' y)) :
    SameOutcome S (act >>= next) (act' >>= next') := by
  cases outcome with
  | ok related => exact others _ _ rfl rfl related
  | error variant => exact .error variant

theorem ok_left {x : α} (outcome : SameOutcome R act act') (run : act = .ok x) :
    ∃ y, act' = .ok y ∧ R x y := by
  cases outcome with
  | ok related =>
      cases run
      exact ⟨_, rfl, related⟩
  | error => cases run

/-- Runs that take no fresh names leave the same supply behind. -/
theorem lift (outcome : SameOutcome R act act') (supply : Supply) :
    SameOutcome (fun p q => R p.1 q.1 ∧ p.2 = q.2) ((liftM act : Fresh BuildError α) supply)
      ((liftM act' : Fresh BuildError α) supply) := by
  cases outcome with
  | ok related => exact .ok ⟨related, rfl⟩
  | error variant => exact .error variant

/-- One check, made in two ways. -/
theorem check {p q : Prop} [Decidable p] [Decidable q] {d e : BuildError} (same : p ↔ q)
    (variant : d.ctorIdx = e.ctorIdx) :
    SameOutcome (fun _ _ => p) (if p then .ok () else .error d) (if q then .ok () else .error e) := by
  by_cases passes : p
  · rw [if_pos passes, if_pos (same.mp passes)]
    exact .ok passes
  · rw [if_neg passes, if_neg (mt same.mpr passes)]
    exact .error variant

end SameOutcome

theorem FreeIndices.join_either (a b : FreeIndices) : SameOutcome Eq (a.join b) (b.join a) := by
  cases left : a.join b with
  | ok free =>
      rw [(join_ok left).symm.joins]
      exact .ok rfl
  | error d =>
      cases right : b.join a with
      | ok free =>
          rw [(join_ok right).symm.joins] at left
          cases left
      | error e =>
          obtain ⟨conflict, _, rfl⟩ := (except_map_error_error _ _ _).mp left
          obtain ⟨conflict', _, rfl⟩ := (except_map_error_error _ _ _).mp right
          exact .error rfl

namespace Expr

variable {a b x y : Expr}

/-- Equal, of one shape and with the same free indices. Labelled expressions are equal by their
label alone, so the latter do not follow. -/
structure Interchange (x y : Expr) : Prop where
  same : (x == y) = true
  shape : x.shape = y.shape
  free : x.free = y.free

theorem Interchange.refl (x : Expr) : Interchange x x := ⟨same_refl x, rfl, rfl⟩

theorem same_zero (same : (x == y) = true) : x.isZero = y.isZero := by
  cases x <;> cases y <;> simp_all [isZero]

theorem sorted_pair_either (a b : Expr) : (sortedPair a b == sortedPair b a) = true := by
  rw [operands_same_iff]
  unfold sortedPair
  rw [compare_swap a b]
  cases found : compare b a with
  | lt | gt => simp
  | eq =>
      have same : (b == a) = true := order_same found
      simp [same, same_symm same]

theorem index_sum_either (alike : Interchange x y) (index : Index) :
    SameOutcome Interchange (x.indexSum index) (y.indexSum index) := by
  have scalar : x.isScalar = true ↔ y.isScalar = true := by rw [isScalar, isScalar, alike.shape]
  unfold indexSum expectScalar
  refine (SameOutcome.check scalar (by rfl)).bind fun _ _ _ _ _ => ?_
  rw [alike.free, same_zero alike.same]
  cases y.free.contains index with
  | false => exact .error rfl
  | true =>
      cases y.isZero with
      | true => exact .ok (Interchange.refl _)
      | false => exact .ok ⟨by simp [alike.same], rfl, rfl⟩

theorem index_sums_either (alike : Interchange x y) (indices : List Index) :
    SameOutcome Interchange (x.indexSums indices) (y.indexSums indices) := by
  induction indices generalizing x y with
  | nil => exact .ok alike
  | cons index rest ih =>
      exact (index_sum_either alike index).bind fun _ _ _ _ summed => ih summed

theorem add_either (doubles : DoublesCommute a b) :
    SameOutcome Interchange (a.add b) (b.add a) := by
  have shapes : a.shape = b.shape ↔ b.shape = a.shape := eq_comm
  have frees : a.free = b.free ↔ b.free = a.free := eq_comm
  unfold add expectSameShape expectSameFree
  refine (SameOutcome.check shapes (by rfl)).bind fun _ _ _ _ shape => ?_
  refine (SameOutcome.check frees (by rfl)).bind fun _ _ _ _ free => ?_
  have folds : fold? .addition a b = fold? .addition b a := fold_comm trivial doubles
  cases left : a.isZero with
  | true =>
      cases right : b.isZero with
      | true =>
          -- Either order drops another zero, but there is just one of a type.
          rw [zero_unique left right shape free]
          exact .ok (Interchange.refl b)
      | false => exact .ok (Interchange.refl b)
  | false =>
      cases right : b.isZero with
      | true => exact .ok (Interchange.refl a)
      | false =>
          simp only [Bool.false_eq_true, if_false, folds]
          cases fold? .addition b a with
          | some folded => exact .ok (Interchange.refl folded)
          | none => exact .ok ⟨by simp [shape, free, sorted_pair_either], shape, free⟩

theorem ones_fold (left : a.isOne = true) (right : b.isOne = true) :
    fold? .multiplication a b ≠ none := by
  intro unfolded
  rcases fold_none_iff.mp unfolded with none | none
  · simp [isOne, none] at left
  · simp [isOne, none] at right

theorem scalar_product_either (doubles : DoublesCommute a b) :
    SameOutcome Interchange (a.scalarProduct b) (b.scalarProduct a) := by
  have folds : fold? .multiplication a b = fold? .multiplication b a := fold_comm trivial doubles
  unfold scalarProduct expectScalar
  cases a.isScalar <;> cases b.isScalar
  case false.false | false.true | true.false => exact .error rfl
  case true.true =>
    refine (FreeIndices.join_either a.free b.free).bind fun free _ _ _ same => ?_
    subst same
    rw [Bool.or_comm b.isZero, ← folds]
    cases a.isZero || b.isZero with
    | true => exact .ok (Interchange.refl _)
    | false =>
        cases folded : fold? .multiplication a b with
        | some c => exact .ok (Interchange.refl c)
        | none =>
            -- Two ones fold, so at most one of the factors is left out as a unit.
            cases left : a.isOne with
            | true =>
                cases right : b.isOne with
                | true => simp [ones_fold left right] at folded
                | false => exact .ok (Interchange.refl b)
            | false =>
                cases right : b.isOne with
                | true => exact .ok (Interchange.refl a)
                | false => exact .ok ⟨by simp [sorted_pair_either], rfl, rfl⟩

theorem contracted_product_either (doubles : DoublesCommute a b) :
    SameOutcome Interchange (a.contractedProduct b) (b.contractedProduct a) := by
  refine (scalar_product_either doubles).bind fun x y run _ alike => ?_
  obtain ⟨_, _, free, union, _⟩ := scalar_product_cases run
  -- The sums run over the indices of the left factor that the right one has, and these are sorted.
  rw [FreeIndices.repeated_symm union.compatible]
  exact index_sums_either alike _

theorem build_either {op : Operator} (doubles : DoublesCommute a b)
    (commutes : op = .sum ∨ op = .product) (supply : Supply) :
    SameOutcome (fun p q => Interchange p.1 q.1 ∧ p.2 = q.2) (op.build [a, b] supply)
      (op.build [b, a] supply) := by
  rcases commutes with rfl | rfl
  · exact (add_either doubles).lift supply
  · exact (scalar_product_either doubles).lift supply

theorem mul_either (doubles : DoublesCommute a b) (left : a.shape = []) (right : b.shape = [])
    (supply : Supply) :
    SameOutcome (fun r s => Interchange r.1 s.1 ∧ r.2 = s.2) (a.mul b supply) (b.mul a supply) := by
  have product : a.mul b = liftM (a.contractedProduct b) := by simp [mul, rank, left, right]
  have product' : b.mul a = liftM (b.contractedProduct a) := by simp [mul, rank, left, right]
  rw [product, product']
  exact (contracted_product_either doubles).lift supply

theorem reconstruct_node {op : Operator} {operands : List Expr} {shape : Shape}
    {free : FreeIndices} (vs : List Expr) (arity : vs.length = operands.length) :
    (node op operands shape free).reconstruct vs = op.build vs := by
  simp [reconstruct, Expr.operands, arity]

theorem reconstruct_refused (vs : List Expr) {supply : Supply}
    (arity : vs.length ≠ x.operands.length) :
    x.reconstruct vs supply = .error (.arity x.kind x.operands.length vs.length) := by
  unfold reconstruct
  rw [if_pos arity]
  rfl

theorem reconstruct_either (doubles : DoublesCommute a b)
    (kind : x.kind = .sum ∨ x.kind = .product) (supply : Supply) :
    SameOutcome (fun r s => Interchange r.1 s.1 ∧ r.2 = s.2) (x.reconstruct [a, b] supply)
      (x.reconstruct [b, a] supply) := by
  by_cases arity : 2 = x.operands.length
  · cases x with
    | terminal | labelled => cases arity
    | node op operands shape free =>
        have commutes : op = .sum ∨ op = .product := by
          cases op <;> simp_all [Expr.kind, Operator.kind]
        replace arity : 2 = operands.length := arity
        rw [reconstruct_node [a, b] arity, reconstruct_node [b, a] arity]
        exact build_either doubles commutes supply
  · rw [reconstruct_refused [a, b] arity, reconstruct_refused [b, a] arity]
    exact .error rfl

/-- A sum of two expressions, a product of two scalars and the node rebuilt of two operands are
equal in either order, the supply left behind included, or refused with errors of one constructor. -/
theorem sums_and_products_in_either_order (a b : Expr) (doubles : DoublesCommute a b) :
    SameOutcome (fun r s => (r == s) = true) (a.add b) (b.add a) ∧
      (a.shape = [] → b.shape = [] → ∀ supply,
        SameOutcome (fun r s => (r.1 == s.1) = true ∧ r.2 = s.2)
          (a.mul b supply) (b.mul a supply)) ∧
      ∀ x : Expr, x.kind = .sum ∨ x.kind = .product → ∀ supply,
        SameOutcome (fun r s => (r.1 == s.1) = true ∧ r.2 = s.2)
          (x.reconstruct [a, b] supply) (x.reconstruct [b, a] supply) := by
  have equal (r s : Expr × Supply) (alike : Interchange r.1 s.1 ∧ r.2 = s.2) :
      (r.1 == s.1) = true ∧ r.2 = s.2 := ⟨alike.1.same, alike.2⟩
  refine ⟨(add_either doubles).mono fun r s alike => alike.same, ?_, ?_⟩
  · intro left right supply
    exact (mul_either doubles left right supply).mono equal
  · intro x kind supply
    exact (reconstruct_either doubles kind supply).mono equal

/-- Only two constants have doubles that could change places. -/
theorem doubles_commute_of_not_constant (other : a.constant? = none) : DoublesCommute a b :=
  fun _ _ left _ => absurd (other.symm.trans left) (Option.some_ne_none _).symm

section Sample

/-- An entry of a matrix, with two free indices. -/
def matrixEntry : Expr :=
  .node .indexed [.terminal (.coefficient ⟨1, .tensor [3, 3] 3⟩), multiIndex [.free ⟨0⟩, .free ⟨1⟩]]
    [] ⟨[(⟨0⟩, 3), (⟨1⟩, 3)], by decide⟩

/-- A component of a vector, whose index is one of them. -/
def vectorEntry : Expr :=
  .node .indexed [.terminal (.coefficient ⟨0, .vector 3 3⟩), multiIndex [.free ⟨1⟩]] [] (.single ⟨1⟩ 3)

/-- The row of the matrix times the vector. -/
def entrySum : Expr :=
  .node .indexSum [.node .product [vectorEntry, matrixEntry] [] ⟨[(⟨0⟩, 3), (⟨1⟩, 3)], by decide⟩,
    multiIndex [.free ⟨1⟩]] [] (.single ⟨0⟩ 3)

/-- Two expressions under one label. -/
def oneName : Expr := .labelled ⟨0⟩ (.terminal (.coefficient ⟨2, .scalar 3⟩))

def sameName : Expr := .labelled ⟨0⟩ (.terminal (.coefficient ⟨3, .scalar 3⟩))

/-- The product of a matrix entry and a vector entry is summed over the index that they share. Under
one label the two sums are equal without being the same. -/
theorem entries_in_either_order :
    SameOutcome (fun r s => (r == s) = true) ((int 2).add (real (.ofFloat 3)))
      ((real (.ofFloat 3)).add (int 2)) ∧
    (∃ p, matrixEntry.mul vectorEntry {} = .ok (entrySum, {}) ∧
      vectorEntry.mul matrixEntry {} = .ok (p, {}) ∧ (entrySum == p) = true) ∧
    ∃ p q, oneName.add sameName = .ok p ∧ sameName.add oneName = .ok q ∧ (p == q) = true ∧ p ≠ q := by
  refine ⟨?_, ?_, ?_⟩
  · have doubles : DoublesCommute (int 2) (real (.ofFloat 3)) := by
      rintro x y left right
      obtain rfl : Constant.int 2 = x := Option.some.inj left
      exact Constant.doubles_commute_of_apart fun clash => absurd clash.1 (by decide)
    exact (sums_and_products_in_either_order _ _ doubles).1
  · have outcome := (sums_and_products_in_either_order matrixEntry vectorEntry
      (doubles_commute_of_not_constant rfl)).2.1 rfl rfl {}
    have run : matrixEntry.mul vectorEntry {} = .ok (entrySum, {}) := by cbv
    obtain ⟨⟨p, after⟩, run', same, unused⟩ := outcome.ok_left run
    obtain rfl : {} = after := unused
    exact ⟨p, run, run', same⟩
  · have outcome := (sums_and_products_in_either_order oneName sameName
      (doubles_commute_of_not_constant rfl)).1
    have run : oneName.add sameName = .ok (.node .sum [oneName, sameName] [] ∅) := by cbv
    have run' : sameName.add oneName = .ok (.node .sum [sameName, oneName] [] ∅) := by cbv
    obtain ⟨q, swapped, same⟩ := outcome.ok_left run
    obtain rfl := Except.ok.inj (run'.symm.trans swapped)
    exact ⟨_, _, run, run', same, by simp [oneName, sameName]⟩

end Sample

end Expr

end FormCalculus
