import Mathlib.Algebra.Ring.Int.Parity
import FormCalculus.Proofs.Tameness

/-!
Folding of two whole numbers of 64 bits. It gives the whole number that arithmetic has for a result,
where there is one that fits, and the double of the same operation on their doubles otherwise.
-/
set_option autoImplicit false

namespace FormCalculus

namespace Constant

theorem fit_iff (n : Int) (z : Int64) : fit n = some z ↔ z.toInt = n := by
  have largest : Int64.maxValue.toInt = 2 ^ 63 - 1 := rfl
  unfold fit
  split
  · rename_i range
    have back : (Int64.ofInt n).toInt = n := Int64.toInt_ofInt_of_le range.1 (by omega)
    rw [Option.some.injEq]
    constructor
    · rintro rfl
      exact back
    · exact fun same => Int64.toInt_inj.mp (back.trans same.symm)
  · rename_i outside
    constructor
    · nofun
    · rintro rfl
      exact absurd ⟨z.minValue_le_toInt, z.toInt_le⟩ outside

/-- A power of two or more, of either sign, outgrows 64 bits at the exponent 64. -/
theorem power_outgrows {x : Int} {n : Nat} (large : 2 ≤ x.natAbs) (many : 64 ≤ n) (z : Int64) :
    z.toInt ≠ x ^ n := by
  intro same
  have small : z.toInt.natAbs ≤ 2 ^ 63 := by
    have low := z.le_toInt
    have high := z.toInt_lt
    omega
  have grown : 2 ^ 64 ≤ (x ^ n).natAbs := by
    rw [Int.natAbs_pow]
    exact (Nat.pow_le_pow_right (by decide) many).trans (Nat.pow_le_pow_left large n)
  rw [← same] at grown
  omega

theorem zero_power (n : Nat) : (if (n : Int) = 0 then 1 else 0 : Int64).toInt = 0 ^ n := by
  rw [zero_pow_eq]
  by_cases none : n = 0 <;> simp [none]

theorem opposite_power (n : Nat) : (if (n : Int) % 2 = 0 then 1 else -1 : Int64).toInt = (-1) ^ n := by
  rw [neg_one_pow_eq_ite]
  by_cases even : Even n
  · have remainder : (n : Int) % 2 = 0 := by
      have := Nat.even_iff.mp even
      omega
    rw [if_pos remainder, if_pos even]
    rfl
  · have remainder : ¬ (n : Int) % 2 = 0 := by
      have := mt Nat.even_iff.mpr even
      omega
    rw [if_neg remainder, if_neg even]
    rfl

namespace Operation

/-- The whole number that an operation has for its result on two others: the quotient where nothing
is left over, and the power where the exponent is a natural number of 32 bits. -/
def Gives : Operation → Int → Int → Int → Prop
  | .addition, x, y, z => z = x + y
  | .multiplication, x, y, z => z = x * y
  | .division, x, y, z => y ≠ 0 ∧ z * y = x
  | .exponentiation, x, y, z => ∃ n : Nat, n < 2 ^ 32 ∧ y = n ∧ z = x ^ n

/-- Where an operation has a result: not for a zero divisor, nor for zero to the power zero. -/
def Defined : Operation → Int → Int → Prop
  | .division, _, y => y ≠ 0
  | .exponentiation, x, y => ¬ (x = 0 ∧ y = 0)
  | _, _, _ => True

instance (op : Operation) (x y : Int) : Decidable (op.Defined x y) :=
  match op with
  | .division => inferInstanceAs (Decidable (y ≠ 0))
  | .exponentiation => inferInstanceAs (Decidable (¬ (x = 0 ∧ y = 0)))
  | .addition | .multiplication => inferInstanceAs (Decidable True)

end Operation

theorem exact_power_iff (x y : Int) (z : Int64) :
    exactPower x y = some z ↔ Operation.Gives .exponentiation x y z.toInt := by
  unfold exactPower Operation.Gives
  by_cases outside : y < 0 ∨ 0x100000000 ≤ y
  · rw [if_pos outside]
    refine ⟨nofun, ?_⟩
    rintro ⟨n, small, rfl, _⟩
    omega
  rw [if_neg outside]
  obtain ⟨n, rfl⟩ : ∃ n : Nat, y = n := ⟨y.toNat, by omega⟩
  have small : n < 2 ^ 32 := by omega
  have power : (∃ m : Nat, m < 2 ^ 32 ∧ (n : Int) = m ∧ z.toInt = x ^ m) ↔ z.toInt = x ^ n := by
    constructor
    · rintro ⟨m, _, same, value⟩
      rwa [Int.ofNat_inj.mp same]
    · exact fun value => ⟨n, small, rfl, value⟩
  refine Iff.trans ?_ power.symm
  have known (w : Int64) (value : w.toInt = x ^ n) : some w = some z ↔ z.toInt = x ^ n := by
    rw [Option.some.injEq, ← value, Int64.toInt_inj, eq_comm]
  -- Powers of these three bases stay within 64 bits for every exponent; others outgrow them.
  by_cases zero : x = 0
  · rw [if_pos zero]
    exact known _ (zero ▸ zero_power n)
  by_cases one : x = 1
  · rw [if_neg zero, if_pos one]
    exact known 1 (one ▸ (one_pow n).symm)
  by_cases opposite : x = -1
  · rw [if_neg zero, if_neg one, if_pos opposite]
    exact known _ (opposite ▸ opposite_power n)
  rw [if_neg zero, if_neg one, if_neg opposite]
  by_cases many : 64 ≤ n
  · rw [if_pos (by omega)]
    exact ⟨nofun, fun value => absurd value (power_outgrows (by omega) many z)⟩
  · rw [if_neg (by omega), fit_iff, Int.toNat_natCast]
    rfl

/-- On whole numbers an operation is exact: it has the result that arithmetic has, if that fits. -/
theorem exact_iff {op : Operation} {x y : Int} (defined : op.Defined x y) (z : Int64) :
    op.exact x y = some z ↔ op.Gives x y z.toInt := by
  cases op with
  | addition => exact fit_iff _ z
  | multiplication => exact fit_iff _ z
  | division =>
      have nonzero : y ≠ 0 := defined
      show (if x % y = 0 then fit (x / y) else none) = some z ↔ y ≠ 0 ∧ z.toInt * y = x
      split
      · rename_i whole
        have cancels : x / y * y = x := Int.ediv_mul_cancel (Int.dvd_of_emod_eq_zero whole)
        rw [fit_iff]
        constructor
        · rintro same
          exact ⟨nonzero, by rw [same, cancels]⟩
        · rintro ⟨_, product⟩
          exact mul_right_cancel₀ nonzero (product.trans cancels.symm)
      · rename_i rest
        refine ⟨nofun, ?_⟩
        rintro ⟨_, product⟩
        exact absurd (Int.emod_eq_zero_of_dvd ⟨z.toInt, by rw [mul_comm, product]⟩) rest
  | exponentiation => exact exact_power_iff x y z

namespace Operation

/-- What two whole numbers fold to. -/
def ofInts (op : Operation) (x y : Int64) : Expr :=
  match op.exact x.toInt y.toInt with
  | some z => .int z
  | none => .real (Binary64.combine op.approximate (.ofInt x.toInt) (.ofInt y.toInt))

def construct : Operation → Expr → Expr → Fresh BuildError Expr
  | .addition, a, b => a.add b
  | .multiplication, a, b => a.mul b
  | .division, a, b => a.divide b
  | .exponentiation, a, b => a.pow b

/-- The operator of the node that it makes. -/
def operator : Operation → Operator
  | .addition => .sum
  | .multiplication => .product
  | .division => .division
  | .exponentiation => .power

end Operation

theorem of_int_to_expr (v : Int64) : (ofInt v).toExpr = .int v := by
  unfold ofInt Expr.int
  split <;> rfl

theorem of_real_to_expr (v : Binary64) : (ofReal v).toExpr = .real v := by
  unfold ofReal Expr.real
  split <;> rfl

theorem of_int_double (v : Int64) : (ofInt v).toBinary64 = Binary64.ofInt v.toInt := by
  unfold ofInt
  split
  · rename_i zero
    rw [zero]
    rfl
  · rfl

theorem of_int_number {v : Int64} (nonzero : v ≠ 0) : ofInt v = .int v := if_neg nonzero

/-- The exact result is looked for unless both constants are the zero expression. -/
theorem apply_ints (op : Operation) {x y : Int64} (number : x ≠ 0 ∨ y ≠ 0) :
    op.apply (ofInt x) (ofInt y) =
      match op.exact x.toInt y.toInt with
      | some z => ofInt z
      | none => ofReal (Binary64.combine op.approximate (ofInt x).toBinary64 (ofInt y).toBinary64) := by
  by_cases left : x = 0
  · have right : y ≠ 0 := number.resolve_left (not_not.mpr left)
    rw [left, of_int_number right]
    rfl
  · rw [of_int_number left]
    by_cases right : y = 0
    · rw [right]
      rfl
    · rw [of_int_number right]
      rfl

end Constant

namespace Expr

open Constant (Operation)

theorem int_constant (v : Int64) : (int v).constant? = some (Constant.ofInt v) := by
  unfold int Constant.ofInt
  split <;> rfl

theorem int_zero (v : Int64) : (int v).isZero = decide (v = 0) := by
  unfold int
  split <;> simp_all [isZero, zero, zeros]

theorem int_one (v : Int64) : (int v).isOne = decide (v = 1) := by
  rw [isOne, int_constant, Constant.ofInt]
  split <;> simp_all [Constant.isOne]

theorem fold_ints (op : Operation) {x y : Int64} (number : x ≠ 0 ∨ y ≠ 0) :
    fold? op (int x) (int y) = some (op.ofInts x y) := by
  have folds : fold? op (int x) (int y) =
      some (op.apply (Constant.ofInt x) (Constant.ofInt y)).toExpr := by
    unfold fold?
    rw [int_constant, int_constant]
    rfl
  rw [folds, Constant.apply_ints op number, Constant.of_int_double, Constant.of_int_double]
  unfold Operation.ofInts
  cases op.exact x.toInt y.toInt with
  | none => exact congrArg some (Constant.of_real_to_expr _)
  | some z => exact congrArg some (Constant.of_int_to_expr z)

/-- Where arithmetic has a result that fits, that is what the numbers fold to. -/
theorem of_ints_exact {op : Operation} {x y z : Int64} (gives : op.Gives x.toInt y.toInt z.toInt)
    (defined : op.Defined x.toInt y.toInt) : op.ofInts x y = int z := by
  unfold Operation.ofInts
  rw [(Constant.exact_iff defined z).mpr gives]

theorem of_ints_approximate {op : Operation} {x y : Int64} (defined : op.Defined x.toInt y.toInt)
    (nothing : ∀ z : Int64, ¬ op.Gives x.toInt y.toInt z.toInt) :
    op.ofInts x y =
      real (Binary64.combine op.approximate (.ofInt x.toInt) (.ofInt y.toInt)) := by
  unfold Operation.ofInts
  cases exact : op.exact x.toInt y.toInt with
  | none => rfl
  | some z => exact absurd ((Constant.exact_iff defined z).mp exact) (nothing z)

theorem add_ints (x y : Int64) : (int x).add (int y) = .ok (Operation.addition.ofInts x y) := by
  obtain ⟨shape, free⟩ := int_stored x
  obtain ⟨shape', free'⟩ := int_stored y
  unfold add
  simp only [expect_same_shape_runs (shape.trans shape'.symm), expect_same_free_runs (free.trans free'.symm),
    except_ok_bind, int_zero, decide_eq_true_eq]
  -- A zero summand is dropped before the fold, and what is left is the exact sum.
  by_cases left : x = 0
  · have gives : Operation.addition.Gives x.toInt y.toInt y.toInt := by
      show y.toInt = x.toInt + y.toInt
      simp [left]
    rw [if_pos left, of_ints_exact gives trivial]
    rfl
  · rw [if_neg left]
    by_cases right : y = 0
    · have gives : Operation.addition.Gives x.toInt y.toInt x.toInt := by
        show x.toInt = x.toInt + y.toInt
        simp [right]
      rw [if_pos right, of_ints_exact gives trivial]
      rfl
    · rw [if_neg right, fold_ints .addition (.inl left)]
      rfl

theorem ints_union (x y : Int64) : (∅ : FreeIndices).IsUnion (int x).free (int y).free := by
  rw [(int_stored x).2, (int_stored y).2]
  exact FreeIndices.is_union_empty ∅

theorem scalar_product_ints (x y : Int64) :
    (int x).scalarProduct (int y) = .ok (Operation.multiplication.ofInts x y) := by
  obtain ⟨shape, _⟩ := int_stored x
  obtain ⟨shape', _⟩ := int_stored y
  unfold scalarProduct
  simp only [expect_scalar_runs shape, expect_scalar_runs shape', (ints_union x y).joins, except_ok_bind, int_zero,
    Bool.or_eq_true, decide_eq_true_eq]
  by_cases zero : x = 0 ∨ y = 0
  · have gives : Operation.multiplication.Gives x.toInt y.toInt (0 : Int64).toInt := by
      show 0 = x.toInt * y.toInt
      rcases zero with rfl | rfl <;> simp
    rw [if_pos zero, of_ints_exact gives trivial]
    rfl
  · rw [if_neg zero, fold_ints .multiplication (.inl fun left => zero (.inl left))]
    rfl

theorem scalar_quotient_ints (x : Int64) {y : Int64} (divisor : y ≠ 0) :
    (int x).scalarQuotient (int y) = .ok (Operation.division.ofInts x y) := by
  obtain ⟨shape, _⟩ := int_stored x
  obtain ⟨shape', _⟩ := int_stored y
  unfold scalarQuotient
  simp only [expect_scalar_runs shape, expect_scalar_runs shape', (ints_union x y).joins, except_ok_bind, int_zero,
    decide_eq_true_eq, divisor, if_false]
  by_cases zero : x = 0
  · have nonzero : y.toInt ≠ 0 := fun same => divisor (Int64.toInt_inj.mp same)
    have gives : Operation.division.Gives x.toInt y.toInt (0 : Int64).toInt := by
      refine ⟨nonzero, ?_⟩
      simp [zero]
    rw [if_pos zero, of_ints_exact gives nonzero]
    rfl
  · rw [if_neg zero, fold_ints .division (.inl zero)]
    rfl

theorem pow_ints {x y : Int64} (number : x ≠ 0 ∨ y ≠ 0) :
    (int x).pow (int y) = .ok (Operation.exponentiation.ofInts x y) := by
  obtain ⟨shape, _⟩ := int_stored x
  obtain ⟨shape', free'⟩ := int_stored y
  have plain : (int y).free.isEmpty = true := FreeIndices.is_empty_iff.mpr free'
  unfold pow
  simp only [expect_scalar_runs shape, expect_scalar_runs shape', plain, except_ok_bind, int_one,
    Bool.not_true, Bool.false_eq_true, if_false, decide_eq_true_eq]
  by_cases one : y = 1
  · have gives : Operation.exponentiation.Gives x.toInt y.toInt x.toInt :=
      ⟨1, by decide, by rw [one]; rfl, (pow_one _).symm⟩
    have nonzero : y.toInt ≠ 0 := by
      rw [one]
      decide
    rw [if_pos one, of_ints_exact gives fun zeros => nonzero zeros.2]
    rfl
  · rw [if_neg one, fold_ints .exponentiation number]
    rfl

theorem contracted_product_ints (x y : Int64) :
    (int x).contractedProduct (int y) = .ok (Operation.multiplication.ofInts x y) := by
  unfold contractedProduct
  rw [(int_stored x).2, (int_stored y).2, scalar_product_ints]
  rfl

theorem divide_ints (x : Int64) {y : Int64} (divisor : y ≠ 0) (supply : Supply) :
    (int x).divide (int y) supply = .ok (Operation.division.ofInts x y, supply) := by
  have scalar : (int x).isScalar = true := by simp [isScalar, int_stored x]
  unfold divide
  rw [expect_scalar_runs (int_stored y).1, if_pos scalar, scalar_quotient_ints x divisor]
  rfl

/-- Each constructor hands on what the numbers fold to, as does the building of its node. -/
theorem construct_ints {op : Operation} {x y : Int64} (defined : op.Defined x.toInt y.toInt)
    (supply : Supply) :
    op.construct (int x) (int y) supply = .ok (op.ofInts x y, supply) ∧
      op.operator.build [int x, int y] supply = .ok (op.ofInts x y, supply) := by
  have lifted {act : Except BuildError Expr} {r : Expr} (run : act = .ok r) :
      (liftM act : Fresh BuildError Expr) supply = .ok (r, supply) :=
    (Fresh.lift_ok _ _).mpr ⟨run, rfl⟩
  cases op with
  | addition => exact ⟨lifted (add_ints x y), lifted (add_ints x y)⟩
  | multiplication =>
      have product : (int x).mul (int y) = liftM ((int x).contractedProduct (int y)) := by
        simp [mul, rank, int_stored x, int_stored y]
      refine ⟨?_, lifted (scalar_product_ints x y)⟩
      rw [Operation.construct, product]
      exact lifted (contracted_product_ints x y)
  | division =>
      have divisor : y ≠ 0 := by
        rintro rfl
        exact defined rfl
      exact ⟨divide_ints x divisor supply, lifted (scalar_quotient_ints x divisor)⟩
  | exponentiation =>
      have number : x ≠ 0 ∨ y ≠ 0 := by
        by_contra zeros
        obtain ⟨rfl, rfl⟩ : x = 0 ∧ y = 0 := by simpa using zeros
        exact defined ⟨rfl, rfl⟩
      exact ⟨lifted (pow_ints number), lifted (pow_ints number)⟩

/-- Two whole numbers fold to the whole number that is their exact result, if it fits in 64 bits,
and to the double of the operation on their doubles if not. No fold fails. -/
theorem whole_numbers_fold (op : Operation) (x y : Int64) (defined : op.Defined x.toInt y.toInt)
    (supply : Supply) :
    (∀ z : Int64, op.Gives x.toInt y.toInt z.toInt →
      op.construct (int x) (int y) supply = .ok (int z, supply) ∧
        op.operator.build [int x, int y] supply = .ok (int z, supply)) ∧
    ((∀ z : Int64, ¬ op.Gives x.toInt y.toInt z.toInt) →
      let double := Binary64.combine op.approximate (.ofInt x.toInt) (.ofInt y.toInt)
      op.construct (int x) (int y) supply = .ok (real double, supply) ∧
        op.operator.build [int x, int y] supply = .ok (real double, supply)) := by
  have built := construct_ints defined supply
  refine ⟨fun z gives => ?_, fun nothing => ?_⟩
  · rwa [of_ints_exact gives defined] at built
  · rwa [of_ints_approximate defined nothing] at built

section Sample

/-- The smallest number has no opposite in 64 bits, so as a quotient and as a product that is the
double; it is itself a power of minus two. Of seven halves nothing is cut off. -/
theorem smallest_number_folds :
    Operation.division.construct (int Int64.minValue) (int (-1)) {} =
      .ok (real ⟨0x43e0000000000000⟩, {}) ∧
    Operation.multiplication.construct (int Int64.minValue) (int (-1)) {} =
      .ok (real ⟨0x43e0000000000000⟩, {}) ∧
    Operation.exponentiation.construct (int (-2)) (int 63) {} = .ok (int Int64.minValue, {}) ∧
    Operation.division.construct (int 7) (int 2) {} = .ok (real ⟨0x400c000000000000⟩, {}) := by
  have smallest : Int64.minValue.toInt = -2 ^ 63 := rfl
  refine ⟨?_, ?_, ?_, ?_⟩
  · have nothing (z : Int64) : ¬ Operation.division.Gives Int64.minValue.toInt (-1) z.toInt := by
      rintro ⟨_, product⟩
      have := z.toInt_lt
      omega
    have double : Binary64.combine Operation.division.approximate (.ofInt Int64.minValue.toInt)
        (.ofInt (-1)) = ⟨0x43e0000000000000⟩ := by decide +kernel
    have folds := (whole_numbers_fold .division Int64.minValue (-1) (by decide) {}).2 nothing
    exact double ▸ folds.1
  · have nothing (z : Int64) : ¬ Operation.multiplication.Gives Int64.minValue.toInt (-1) z.toInt := by
      intro product
      have same : z.toInt = Int64.minValue.toInt * -1 := product
      have := z.toInt_lt
      omega
    have double : Binary64.combine Operation.multiplication.approximate (.ofInt Int64.minValue.toInt)
        (.ofInt (-1)) = ⟨0x43e0000000000000⟩ := by decide +kernel
    have folds := (whole_numbers_fold .multiplication Int64.minValue (-1) trivial {}).2 nothing
    exact double ▸ folds.1
  · have gives : Operation.exponentiation.Gives (-2) 63 Int64.minValue.toInt :=
      ⟨63, by decide, rfl, by decide⟩
    exact ((whole_numbers_fold .exponentiation (-2) 63 (by decide) {}).1 _ gives).1
  · have nothing (z : Int64) : ¬ Operation.division.Gives 7 2 z.toInt := by
      rintro ⟨_, product⟩
      omega
    have double : Binary64.combine Operation.division.approximate (.ofInt 7) (.ofInt 2) =
        ⟨0x400c000000000000⟩ := by decide +kernel
    have folds := (whole_numbers_fold .division 7 2 (by decide) {}).2 nothing
    exact double ▸ folds.1

end Sample

end Expr

end FormCalculus
