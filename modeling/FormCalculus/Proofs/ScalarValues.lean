import FormCalculus.Proofs.MatrixFormulas
import FormCalculus.Proofs.Tameness
import FormCalculus.Proofs.Totality

/-!
Scalars without free indices, valued in a commutative ring. Their sums, products and differences can
always be built, and have the sum, the product and the difference for their value.
-/
set_option autoImplicit false

namespace FormCalculus

open Expr

namespace Folding

variable {R : Type*} (value : Constant → R) (operate? : Constant.Operation → Option (R → R → R))

/-- The value of what constants are folded to is what the operation makes of their values. -/
def KeepsValues [Folding] : Prop :=
  ∀ op f a b r, operate? op = some f → Folding.fold? op a b = some r → value r = f (value a) (value b)

open scoped Classical in
/-- The folds that keep values, and no others. -/
@[reducible] noncomputable def thatKeeps : Folding where
  fold? op a b :=
    if some (value (op.apply a b)) = (operate? op).map fun f => f (value a) (value b) then
      some (op.apply a b)
    else none
  root? _ := none

theorem that_keeps_values : @KeepsValues R value operate? (thatKeeps value operate?) := by
  classical
  intro op f a b r known folded
  change (if _ then _ else _) = _ at folded
  split at folded
  · rename_i same
    cases folded
    rw [known] at same
    exact Option.some.inj same
  · cases folded

end Folding

/-- A valuation of scalars in a commutative ring. A component of a tensor, and whatever else is no
number, sum or product, has any value. -/
structure Valuation (R : Type*) [CommRing R] where
  atom : Expr → R
  real : Binary64 → R
  real_one : ∀ value : Binary64, value.isOne = true → real value = 1

namespace Valuation

variable {R : Type*} [CommRing R] (v : Valuation R)

def value : Expr → R
  | .terminal (.zero _ _) => 0
  | .terminal (.int value) => value.toInt
  | .terminal (.real value) => v.real value
  | .node .sum [a, b] _ _ => value a + value b
  | .node .product [a, b] _ _ => value a * value b
  | e => v.atom e

def constant : Constant → R
  | .zero => 0
  | .int value => value.toInt
  | .real value => v.real value

/-- What a ring makes of two values; it has no quotients and no powers. -/
def operate? : Constant.Operation → Option (R → R → R)
  | .addition => some (· + ·)
  | .multiplication => some (· * ·)
  | .division | .exponentiation => none

/-- Folding keeps values. -/
def Exact [Folding] : Prop := Folding.KeepsValues v.constant operate?

/-- The folds whose result has the value of the sum or the product of the values, and no others. -/
@[reducible] noncomputable def exactFolding : Folding := .thatKeeps v.constant operate?

/-- Every fold that `run` performs is exact: to leave out those that are not changes nothing. -/
def FoldsExactly {α : Type} (run : Folding → α) : Prop := run v.exactFolding = run Folding.eager

theorem exact_folding_exact : @Exact R _ v v.exactFolding := Folding.that_keeps_values _ _

/-- A scalar with the property and without free indices, of the given value. -/
structure Gives (P : Expr → Prop) (e : Expr) (x : R) : Prop where
  good : P e
  scalar : e.shape = []
  closed : e.free = ∅
  value : v.value e = x

variable {v} {P : Expr → Prop} {a b e : Expr} {x y : R}

theorem Gives.congr (gives : v.Gives P a x) (same : x = y) : v.Gives P a y := same ▸ gives

theorem value_of_is_zero (zero : e.isZero = true) : v.value e = 0 := by
  obtain ⟨shape, free, rfl⟩ := is_zero_iff.mp zero
  rfl

theorem value_to_expr (k : Constant) : v.value k.toExpr = v.constant k := by cases k <;> rfl

theorem value_constant {k : Constant} (known : e.constant? = some k) : v.value e = v.constant k := by
  unfold constant? at known
  split at known <;> cases known <;> rfl

theorem value_of_is_one (one : e.isOne = true) : v.value e = 1 := by
  unfold isOne at one
  cases known : e.constant? with
  | none => simp [known] at one
  | some k =>
      rw [value_constant known]
      simp only [known, Option.any_some] at one
      cases k with
      | zero => cases one
      | int value =>
          have same : value = 1 := by simpa [Constant.isOne] using one
          subst same
          exact Int.cast_one
      | real value => exact v.real_one value one

variable [kept : KeptByBuilding P]

theorem gives_zero : v.Gives P zero 0 := ⟨kept.built (.zeros [] ∅), rfl, rfl, rfl⟩

theorem gives_int (value : Int64) : v.Gives P (int value) (value.toInt : R) := by
  obtain ⟨scalar, closed⟩ := int_stored value
  refine ⟨kept.built (.int value), scalar, closed, ?_⟩
  unfold int
  split
  · rename_i zero
    subst zero
    exact Int.cast_zero.symm
  · rfl

section Arithmetic

variable [Folding] (exact : v.Exact)

include exact

theorem Gives.add (left : v.Gives P a x) (right : v.Gives P b y) :
    ∃ r, a.add b = .ok r ∧ v.Gives P r (x + y) := by
  obtain ⟨r, run⟩ := add_total (left.scalar.trans right.scalar.symm) (left.closed.trans right.closed.symm)
  refine ⟨r, run, ?_⟩
  have good : P r := kept.built (.add nofun (.given left.good) (.given right.good) run)
  obtain ⟨_, _, ⟨zero, rfl⟩ | ⟨zero, rfl⟩ | folded | rfl⟩ := add_cases run
  · exact right.congr (by rw [← left.value, value_of_is_zero zero, zero_add])
  · exact left.congr (by rw [← right.value, value_of_is_zero zero, add_zero])
  · obtain ⟨_, scalar, closed⟩ := fold_stored folded
    obtain ⟨p, q, k, first, second, found, rfl⟩ := fold_some folded
    refine ⟨good, scalar, closed, ?_⟩
    rw [value_to_expr, exact .addition _ p q k rfl found, ← value_constant first, ← value_constant second,
      left.value, right.value]
  · refine ⟨good, left.scalar, left.closed, ?_⟩
    rw [← left.value, ← right.value]
    obtain order | order := sorted_pair_cases a b <;> rw [order]
    · rfl
    · exact add_comm _ _

theorem Gives.product (left : v.Gives P a x) (right : v.Gives P b y) :
    ∃ r, a.contractedProduct b = .ok r ∧ v.Gives P r (x * y) := by
  have union : FreeIndices.IsUnion ∅ a.free b.free := by
    rw [left.closed, right.closed]
    exact FreeIndices.is_union_empty ∅
  obtain ⟨r, run⟩ := scalar_product_total left.scalar right.scalar union
  have sums : a.contractedProduct b = .ok r := by
    unfold contractedProduct
    rw [run, left.closed]
    rfl
  refine ⟨r, sums, ?_⟩
  have good : P r := kept.built (.scalar_product nofun (.given left.good) (.given right.good) run)
  obtain ⟨_, _, free, union', made⟩ := scalar_product_cases run
  obtain rfl := union'.unique union
  obtain ⟨zero | zero, rfl⟩ | folded | ⟨one, rfl⟩ | ⟨one, rfl⟩ | rfl := made
  · exact ⟨good, rfl, rfl, by rw [← left.value, value_of_is_zero zero, zero_mul]; rfl⟩
  · exact ⟨good, rfl, rfl, by rw [← right.value, value_of_is_zero zero, mul_zero]; rfl⟩
  · obtain ⟨_, scalar, closed⟩ := fold_stored folded
    obtain ⟨p, q, k, first, second, found, rfl⟩ := fold_some folded
    refine ⟨good, scalar, closed, ?_⟩
    rw [value_to_expr, exact .multiplication _ p q k rfl found, ← value_constant first,
      ← value_constant second, left.value, right.value]
  · exact right.congr (by rw [← left.value, value_of_is_one one, one_mul])
  · exact left.congr (by rw [← right.value, value_of_is_one one, mul_one])
  · refine ⟨good, rfl, rfl, ?_⟩
    rw [← left.value, ← right.value]
    obtain order | order := sorted_pair_cases a b <;> rw [order]
    · rfl
    · exact mul_comm _ _

theorem Gives.neg (gives : v.Gives P a x) : ∃ r, a.scalarNeg = .ok r ∧ v.Gives P r (-x) := by
  obtain ⟨r, run, product⟩ := (gives_int (-1) : v.Gives P _ _).product exact gives
  have minus : ((-1 : Int64).toInt : R) = -1 := by
    show ((-1 : Int) : R) = -1
    rw [Int.cast_neg, Int.cast_one]
  exact ⟨r, run, product.congr (by rw [minus, neg_one_mul])⟩

theorem Gives.sub (left : v.Gives P a x) (right : v.Gives P b y) :
    ∃ r, a.scalarSub b = .ok r ∧ v.Gives P r (x - y) := by
  obtain ⟨negated, first, negative⟩ := right.neg exact
  obtain ⟨r, run, sum⟩ := left.add exact negative
  exact ⟨r, (except_bind_ok _ _ _).mpr ⟨negated, first, run⟩, sum.congr (sub_eq_add_neg x y).symm⟩

end Arithmetic

end Valuation

end FormCalculus
