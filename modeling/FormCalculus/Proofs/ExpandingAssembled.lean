import FormCalculus.Proofs.ExpandingNodes

/-!
Simplifying first and expanding then gives what expanding first and simplifying then gives: what an
operator makes of its operands expands to what it makes of their expansions.
-/
set_option autoImplicit false

namespace FormCalculus

open FormCalculus.Expr

/-- A node that is made comes from what is given, unless its operator made it. -/
theorem built_nodes {ops : Operator → Prop} {given : Expr → Prop} {e : Expr} {op : Operator}
    {xs : List Expr} {shape : Shape} {free : FreeIndices} (built : Built ops given e)
    (inside : Within (.node op xs shape free) e) (other : ¬ ops op) :
    ∃ o, given o ∧ Within (.node op xs shape free) o := by
  induction built with
  | given known => exact ⟨_, known, inside⟩
  | terminal data =>
      cases inside with
      | step member => cases member
  | operand _ member ih => exact ih (.step member inside)
  | node allowed _ _ _ ih =>
      cases inside with
      | refl => exact absurd allowed other
      | step member below => exact ih _ member below

/-- A tensor is given back in the place of its components along indices that are looked up in it. -/
def Operator.Captures : Operator → List Expr → Prop
  | .componentTensor, [scalar, ii] => ∃ tensor shape free items,
      scalar = .node .indexed [tensor, ii] shape free ∧ ii = multiIndex items ∧
        ∃ i, .free i ∈ items ∧ Seeks i tensor
  | _, _ => False

/-- The operator folds the expansions `u` and `v` of its operands `a` and `b` to what it makes of these
expands to: neither the order of its operands nor a unit that is dropped makes a difference. -/
structure Operator.Confluent (op : Operator) (a b u v : Expr) : Prop where
  sorted : op = .sum ∨ op = .product → ¬ Clash u v
  left : op = .product → a.isOne = true → v.isZero = false → v.constant? ≠ none →
    fold? .multiplication a v = some v
  right : op = .product → b.isOne = true → u.isZero = false → u.constant? ≠ none →
    fold? .multiplication u b = some u
  divisor : op = .division → b.isOne = true → u.isZero = false → u.constant? ≠ none →
    fold? .division u b = some u

namespace Expr

variable {op : Operator} {a b e r t : Expr} {ts : List Expr} {shape : Shape} {free : FreeIndices}
  {scope : Scope}

/-- What is made of orderly operands without labels is orderly. -/
theorem orderly_assembled (other : op ≠ .grad) (spreads : op.Spreads ts)
    (orderly : ∀ o ∈ ts, Orderly o) (plain : ∀ o ∈ ts, Unlabelled o)
    (run : op.assemble ts = .ok t) : Orderly t := by
  have basic (op : Operator) (known : op.isNotation = true) : op ≠ .grad := by
    rintro rfl
    cases known
  have built : Built (· ≠ .grad) (· ∈ ts) t :=
    Built.assemble basic op other (fun _ member => .given member) run
  refine ⟨assemble_formed spreads (fun o member => (orderly o member).formed) run, ?_, ?_⟩
  · exact fun x inside _ y below => built_unlabelled plain built y (below.trans inside)
  · intro f shape free inside gradient
    obtain ⟨o, member, inside⟩ := built_nodes built inside (by simp)
    exact (orderly o member).closed f shape free inside gradient

theorem orderly_terminal (data : Terminal) : Orderly (.terminal data) where
  formed := .terminal data
  plain := fun x inside _ y below => unlabelled_terminal _ y (below.trans inside)
  closed := fun f shape free inside => by
    cases inside with
    | step member => cases member

/-! Leaves. -/

theorem expands_zeros (placed : Placed (zeros shape free) scope) :
    Expands (zeros shape free) scope r ↔ r = .zero := by
  constructor
  · intro expands
    cases expands with
    | zero => rfl
    | terminal notZero => exact absurd rfl notZero
  · rintro rfl
    refine .zero placed.component.length_eq (placed.assigned fun i member => ?_)
    exact FreeIndices.mem_indices_iff.mp member

theorem expands_number {data : Terminal} (scalar : data.shape = [])
    (kind : data.kind ≠ .zero ∧ data.kind ≠ .multiIndex) (nothing : scope.component = []) :
    Expands (.terminal data) scope r ↔ r = .terminal data := by
  have whole (component : Component) : (Expr.terminal data).selectAt component = .ok (.terminal data) := by
    have scalar : (Expr.terminal data).shape = [] := scalar
    unfold selectAt
    rw [if_pos (is_scalar_iff.mpr scalar)]
  constructor
  · intro expands
    cases expands with
    | zero => exact absurd rfl kind.1
    | multiIndex => exact absurd rfl kind.2
    | terminal _ _ _ selected => exact (Except.ok.inj ((whole _).symm.trans selected)).symm
  · rintro rfl
    exact .terminal kind.1 kind.2 (by rw [nothing, scalar]) (whole _)

theorem Placed.nothing (placed : Placed e scope) (scalar : e.shape = []) : scope.component = [] := by
  have lies := placed.component
  rw [scalar] at lies
  exact List.forall₂_nil_right_iff.mp lies

/-- A constant expands to itself. -/
theorem expands_constant {c : Constant} (known : e.constant? = some c) (free : e.free = ∅)
    (placed : Placed e scope) : Expands e scope r ↔ r = e := by
  have nothing := placed.nothing (constant_shape known)
  unfold constant? at known
  split at known
  · rename_i set
    obtain rfl : set = ∅ := free
    exact expands_zeros placed
  · exact expands_number rfl ⟨nofun, nofun⟩ nothing
  · exact expands_number rfl ⟨nofun, nofun⟩ nothing
  · cases known

theorem to_expr_constant (c : Constant) : c.toExpr.constant? = some c := by
  cases c <;> rfl

theorem expands_folded (c : Constant) (nothing : scope.component = []) :
    Expands c.toExpr scope r ↔ r = c.toExpr := by
  refine expands_constant (to_expr_constant c) (folded_free c) ⟨?_, ?_⟩
  · rw [nothing, folded_shape]
    exact .nil
  · rw [folded_free]
    exact nofun

/-! Operators that take their operands at the component of the node. -/

theorem makes_pointwise (pointwise : op.isPointwise = true) (other : op ≠ .spatialDerivative) :
    op.Makes ts scope r ↔
      ∃ results, List.Forall₂ (fun o v => Expands o scope v) ts results ∧ op.assemble results = .ok r := by
  have combines (results : List Expr) : op.combine results = op.assemble results := by
    cases op <;> first | rfl | cases pointwise
  constructor
  · rintro ⟨visits, results, visited, runs, made⟩
    rw [combines] at made
    cases visited with
    | pointwise => exact ⟨results, List.forall₂_map_left_iff.mp runs, made⟩
    | spatialDerivative => exact absurd rfl other
    | _ => cases pointwise
  · rintro ⟨results, runs, made⟩
    rw [← combines] at made
    exact ⟨_, results, .pointwise pointwise other, List.forall₂_map_left_iff.mpr runs, made⟩

theorem makes_two (pointwise : op.isPointwise = true) (other : op ≠ .spatialDerivative) :
    op.Makes [a, b] scope r ↔
      ∃ u v, Expands a scope u ∧ Expands b scope v ∧ op.assemble [u, v] = .ok r := by
  rw [makes_pointwise pointwise other]
  constructor
  · rintro ⟨results, runs, made⟩
    obtain ⟨u, v, rfl, left, right⟩ := pairs_two runs
    exact ⟨u, v, left, right, made⟩
  · rintro ⟨u, v, left, right, made⟩
    exact ⟨[u, v], .cons left (.cons right .nil), made⟩

/-- Constants fold as well before as after. -/
theorem constants_expand {c : Constant} (pointwise : op.isPointwise = true)
    (other : op ≠ .spatialDerivative) (constants : ∀ o ∈ ts, o.constant? ≠ none ∧ o.free = ∅)
    (placed : ∀ o ∈ ts, Placed o scope) (nothing : scope.component = [])
    (run : op.assemble ts = .ok c.toExpr) : op.Makes ts scope r ↔ Expands c.toExpr scope r := by
  have same (results : List Expr) :
      List.Forall₂ (fun o v => Expands o scope v) ts results ↔ ts = results := by
    rw [← List.forall₂_eq_eq_eq]
    have each {o v : Expr} (member : o ∈ ts) : Expands o scope v ↔ o = v := by
      obtain ⟨known, free⟩ := constants o member
      obtain ⟨c, known⟩ := Option.ne_none_iff_exists'.mp known
      rw [expands_constant known free (placed o member), eq_comm]
    exact ⟨fun runs => pairs_imp runs fun o member v => (each member).mp,
      fun runs => pairs_imp runs fun o member v => (each member).mpr⟩
  rw [makes_pointwise pointwise other, expands_folded c nothing]
  constructor
  · rintro ⟨results, runs, made⟩
    obtain rfl := (same results).mp runs
    exact Except.ok.inj (made.symm.trans run)
  · rintro rfl
    exact ⟨ts, (same ts).mpr rfl, run⟩

/-- Sums and products do not depend on the order of their operands, unless these expand to constants
that clash. -/
theorem makes_sorted (commutes : op = .sum ∨ op = .product) (orderly : ∀ o ∈ [a, b], Orderly o)
    (apart : ∀ u v, Expands a scope u → Expands b scope v → ¬ Clash u v) :
    op.Makes (sortedPair a b) scope r ↔ op.Makes [a, b] scope r := by
  rcases sorted_pair_cases a b with same | same
  · rw [same]
  rw [same]
  have pointwise : op.isPointwise = true := by rcases commutes with rfl | rfl <;> rfl
  have other : op ≠ .spatialDerivative := by rcases commutes with rfl | rfl <;> simp
  rw [makes_two pointwise other, makes_two pointwise other]
  have plain {u v : Expr} (left : Expands a scope u) (right : Expands b scope v) :
      Unlabelled u ∧ Unlabelled v :=
    ⟨(expands_resolved (orderly a (by simp)) left).plain,
      (expands_resolved (orderly b (by simp)) right).plain⟩
  constructor
  · rintro ⟨v, u, right, left, made⟩
    refine ⟨u, v, left, right, assemble_reordered (.inr ⟨commutes, v, u, rfl, rfl⟩)
      (operands_pair (plain left right).2 (plain left right).1) ?_ made⟩
    rintro - _ _ same ⟨x, y, known, known', nan, nan', differ⟩
    cases same
    exact apart u v left right ⟨y, x, known', known, nan', nan, differ.symm⟩
  · rintro ⟨u, v, left, right, made⟩
    refine ⟨v, u, right, left, assemble_reordered (.inr ⟨commutes, u, v, rfl, rfl⟩)
      (operands_pair (plain left right).1 (plain left right).2) ?_ made⟩
    rintro - _ _ same
    cases same
    exact apart u v left right

/-! Zeros and ones beside what expansion is through with. -/

section Units

variable {u v : Expr}

theorem zero_add_resolved (resolved : Resolved v) : zero.add v = .ok v := by
  have shape : zero.shape = v.shape := resolved.scalar.symm
  have free : zero.free = v.free := resolved.free.symm
  simp only [add, expect_same_shape_runs shape, expect_same_free_runs free, except_ok_bind]
  rfl

theorem add_zero_resolved (resolved : Resolved v) : v.add zero = .ok v := by
  have shape : v.shape = zero.shape := resolved.scalar
  have free : v.free = zero.free := resolved.free
  simp only [add, expect_same_shape_runs shape, expect_same_free_runs free, except_ok_bind]
  split
  · rename_i isZero
    rw [zero_unique isZero rfl shape free]
    rfl
  · rfl

theorem resolved_union (left : Resolved u) (right : Resolved v) :
    (∅ : FreeIndices).IsUnion u.free v.free := by
  rw [left.free, right.free]
  exact FreeIndices.is_union_empty ∅

theorem resolved_is_zero (resolved : Resolved v) (isZero : v.isZero = true) : v = .zero :=
  zero_unique isZero rfl resolved.scalar resolved.free

theorem zero_product_resolved (left : Resolved u) (right : Resolved v)
    (isZero : u.isZero = true ∨ v.isZero = true) : u.scalarProduct v = .ok .zero := by
  simp only [scalarProduct, expect_scalar_runs left.scalar, expect_scalar_runs right.scalar,
    (resolved_union left right).joins, except_ok_bind, Bool.or_eq_true, isZero, if_true]
  rfl

theorem one_not_zero (one : u.isOne = true) : u.isZero = false := by
  cases isZero : u.isZero with
  | false => rfl
  | true =>
      obtain ⟨shape, free, rfl⟩ := is_zero_iff.mp isZero
      cases shape <;> cases one

theorem one_times_resolved (left : Resolved u) (right : Resolved v) (one : u.isOne = true)
    (keeps : v.isZero = false → v.constant? ≠ none → fold? .multiplication u v = some v) :
    u.scalarProduct v = .ok v := by
  cases isZero : v.isZero with
  | true =>
      rw [zero_product_resolved left right (.inr isZero), resolved_is_zero right isZero]
  | false =>
      simp only [scalarProduct, expect_scalar_runs left.scalar, expect_scalar_runs right.scalar,
        (resolved_union left right).joins, except_ok_bind, one_not_zero one, isZero, Bool.or_false,
        Bool.false_eq_true, if_false]
      by_cases known : v.constant? = none
      · simp only [fold_none_iff.mpr (.inr known), one, if_true]
        rfl
      · simp only [keeps isZero known]
        rfl

theorem times_one_resolved (left : Resolved u) (right : Resolved v) (one : v.isOne = true)
    (keeps : u.isZero = false → u.constant? ≠ none → fold? .multiplication u v = some u) :
    u.scalarProduct v = .ok u := by
  cases isZero : u.isZero with
  | true =>
      rw [zero_product_resolved left right (.inl isZero), resolved_is_zero left isZero]
  | false =>
      simp only [scalarProduct, expect_scalar_runs left.scalar, expect_scalar_runs right.scalar,
        (resolved_union left right).joins, except_ok_bind, one_not_zero one, isZero, Bool.or_false,
        Bool.false_eq_true, if_false]
      by_cases known : u.constant? = none
      · have other : u.isOne = false := by simp [isOne, known]
        simp only [fold_none_iff.mpr (.inl known), one, other, Bool.false_eq_true, if_true, if_false]
        rfl
      · simp only [keeps isZero known]
        rfl

theorem over_one_resolved (left : Resolved u) (right : Resolved v) (one : v.isOne = true)
    (keeps : u.isZero = false → u.constant? ≠ none → fold? .division u v = some u) :
    u.scalarQuotient v = .ok u := by
  simp only [scalarQuotient, expect_scalar_runs left.scalar, expect_scalar_runs right.scalar,
    (resolved_union left right).joins, except_ok_bind, one_not_zero one, Bool.false_eq_true, if_false]
  cases isZero : u.isZero with
  | true =>
      rw [resolved_is_zero left isZero]
      rfl
  | false =>
      by_cases known : u.constant? = none
      · simp only [fold_none_iff.mpr (.inl known), one, Bool.false_eq_true, if_true, if_false]
        rfl
      · simp only [keeps isZero known, Bool.false_eq_true, if_false]
        rfl

theorem zero_quotient (isZero : a.isZero = true) (run : a.scalarQuotient b = .ok t) :
    ∃ free : FreeIndices, free.IsUnion a.free b.free ∧ t = zeros [] free := by
  simp only [scalarQuotient, except_bind_ok, expect_scalar_ok] at run
  obtain ⟨_, _, _, _, run⟩ := run
  obtain ⟨_, run⟩ := except_if_ok (by simp) run
  simp only [except_bind_ok] at run
  obtain ⟨free, joined, run⟩ := run
  rw [if_pos isZero] at run
  exact ⟨free, FreeIndices.join_ok joined, ((except_pure_ok _ _).mp run).symm⟩

end Units

section Arithmetic

theorem expands_one (one : e.isOne = true) (placed : Placed e scope) : Expands e scope r ↔ r = e := by
  cases known : e.constant? with
  | none => simp [isOne, known] at one
  | some c => exact expands_constant known (one_free one) placed

theorem sum_expands (orderly : ∀ o ∈ [a, b], Orderly o) (plain : ∀ o ∈ [a, b], Unlabelled o)
    (placed : ∀ o ∈ [a, b], Placed o scope)
    (folds : ∀ u v, Expands a scope u → Expands b scope v → Operator.Confluent .sum a b u v)
    (run : a.add b = .ok t) :
    Operator.Makes .sum [a, b] scope r ↔ Expands t scope r := by
  have whole : Operator.assemble .sum [a, b] = .ok t := run
  obtain ⟨first, second⟩ : Placed a scope ∧ Placed b scope := ⟨placed a (by simp), placed b (by simp)⟩
  simp only [add, except_bind_ok, expect_same_shape_ok, expect_same_free_ok] at run
  obtain ⟨_, shape, _, free, run⟩ := run
  split at run
  · rename_i isZero
    obtain ⟨_, _, rfl⟩ := is_zero_iff.mp isZero
    cases (except_pure_ok _ _).mp run
    rw [makes_two rfl (by simp)]
    constructor
    · rintro ⟨u, v, left, right, added⟩
      obtain rfl := (expands_zeros first).mp left
      have resolved := expands_resolved (orderly b (by simp)) right
      cases (zero_add_resolved resolved).symm.trans added
      exact right
    · intro expands
      have resolved := expands_resolved (orderly b (by simp)) expands
      exact ⟨.zero, r, (expands_zeros first).mpr rfl, expands, zero_add_resolved resolved⟩
  split at run
  · rename_i isZero
    obtain ⟨_, _, rfl⟩ := is_zero_iff.mp isZero
    cases (except_pure_ok _ _).mp run
    rw [makes_two rfl (by simp)]
    constructor
    · rintro ⟨u, v, left, right, added⟩
      obtain rfl := (expands_zeros second).mp right
      have resolved := expands_resolved (orderly a (by simp)) left
      cases (add_zero_resolved resolved).symm.trans added
      exact left
    · intro expands
      have resolved := expands_resolved (orderly a (by simp)) expands
      exact ⟨r, .zero, expands, (expands_zeros second).mpr rfl, add_zero_resolved resolved⟩
  split at run
  · rename_i nonzero nonzero' _ _ folded
    cases (except_pure_ok _ _).mp run
    obtain ⟨x, y, c, left, right, _, rfl⟩ := fold_some folded
    refine constants_expand rfl (by simp) (operands_pair ?_ ?_) placed
      (first.nothing (constant_shape left)) whole
    · exact ⟨by simp [left], constant_free left (eq_false_of_ne_true nonzero)⟩
    · exact ⟨by simp [right], constant_free right (eq_false_of_ne_true nonzero')⟩
  · cases (except_pure_ok _ _).mp run
    have made := orderly_assembled (by simp) (spreads_other (by simp)) orderly plain whole
    rw [expands_node made (by simp), makes_sorted (.inl rfl) orderly fun u v left right =>
      (folds u v left right).sorted (.inl rfl)]

theorem zeros_vanish (isZero : e.isZero = true) (expands : Expands e scope r) : r = .zero := by
  obtain ⟨_, _, rfl⟩ := is_zero_iff.mp isZero
  cases expands with
  | zero => rfl
  | terminal notZero => exact absurd rfl notZero

theorem product_zero (isZero : a.isZero = true ∨ b.isZero = true) (orderly : ∀ o ∈ [a, b], Orderly o)
    (placed : Placed t scope) (run : a.scalarProduct b = .ok t)
    (makes : Operator.Makes .product [a, b] scope r) : Expands t scope r := by
  obtain ⟨u, v, left, right, made⟩ := (makes_two rfl (by simp)).mp makes
  obtain ⟨left', right'⟩ : Resolved u ∧ Resolved v :=
    ⟨expands_resolved (orderly a (by simp)) left, expands_resolved (orderly b (by simp)) right⟩
  obtain rfl : r = .zero := by
    have vanishes : u.isZero = true ∨ v.isZero = true :=
      isZero.imp (fun isZero => by rw [zeros_vanish isZero left]; rfl)
        fun isZero => by rw [zeros_vanish isZero right]; rfl
    exact (Except.ok.inj ((zero_product_resolved left' right' vanishes).symm.trans made)).symm
  obtain ⟨_, rfl⟩ := zero_product isZero run
  exact (expands_zeros placed).mpr rfl

theorem product_expands (left : a.isZero = false) (right : b.isZero = false)
    (orderly : ∀ o ∈ [a, b], Orderly o) (plain : ∀ o ∈ [a, b], Unlabelled o)
    (placed : ∀ o ∈ [a, b], Placed o scope)
    (folds : ∀ u v, Expands a scope u → Expands b scope v → Operator.Confluent .product a b u v)
    (run : a.scalarProduct b = .ok t) :
    Operator.Makes .product [a, b] scope r ↔ Expands t scope r := by
  have whole : Operator.assemble .product [a, b] = .ok t := run
  have resolved {o v : Expr} (member : o ∈ [a, b]) (expands : Expands o scope v) : Resolved v :=
    expands_resolved (orderly o member) expands
  simp only [scalarProduct, except_bind_ok, expect_scalar_ok] at run
  obtain ⟨_, scalar, _, _, _, _, run⟩ := run
  rw [if_neg (by simp [left, right])] at run
  split at run
  · rename_i folded
    cases (except_pure_ok _ _).mp run
    obtain ⟨x, y, c, known, known', _, rfl⟩ := fold_some folded
    refine constants_expand rfl (by simp) (operands_pair ?_ ?_) placed
      ((placed a (by simp)).nothing scalar) whole
    · exact ⟨by simp [known], constant_free known left⟩
    · exact ⟨by simp [known'], constant_free known' right⟩
  rw [makes_two rfl (by simp)]
  split at run
  · rename_i one
    cases (except_pure_ok _ _).mp run
    have unit : Expands a scope a := (expands_one one (placed a (by simp))).mpr rfl
    constructor
    · rintro ⟨u, v, expands, expands', made⟩
      obtain rfl := (expands_one one (placed a (by simp))).mp expands
      have times := one_times_resolved (resolved (by simp) unit) (resolved (by simp) expands') one
        ((folds _ v unit expands').left rfl one)
      cases times.symm.trans made
      exact expands'
    · intro expands
      exact ⟨a, r, unit, expands, one_times_resolved (resolved (by simp) unit)
        (resolved (by simp) expands) one ((folds a r unit expands).left rfl one)⟩
  split at run
  · rename_i one
    cases (except_pure_ok _ _).mp run
    have unit : Expands b scope b := (expands_one one (placed b (by simp))).mpr rfl
    constructor
    · rintro ⟨u, v, expands, expands', made⟩
      obtain rfl := (expands_one one (placed b (by simp))).mp expands'
      have times := times_one_resolved (resolved (by simp) expands) (resolved (by simp) unit) one
        ((folds u _ expands unit).right rfl one)
      cases times.symm.trans made
      exact expands
    · intro expands
      exact ⟨r, b, expands, unit, times_one_resolved (resolved (by simp) expands)
        (resolved (by simp) unit) one ((folds r b expands unit).right rfl one)⟩
  · cases (except_pure_ok _ _).mp run
    have made := orderly_assembled (by simp) (spreads_other (by simp)) orderly plain whole
    rw [expands_node made (by simp), makes_sorted (.inr rfl) orderly fun u v left right =>
      (folds u v left right).sorted (.inr rfl), makes_two rfl (by simp)]

theorem quotient_zero (isZero : a.isZero = true) (orderly : ∀ o ∈ [a, b], Orderly o)
    (placed : Placed t scope) (run : a.scalarQuotient b = .ok t)
    (makes : Operator.Makes .division [a, b] scope r) : Expands t scope r := by
  obtain ⟨u, v, left, right, made⟩ := (makes_two rfl (by simp)).mp makes
  obtain rfl := zeros_vanish isZero left
  obtain ⟨_, union, rfl⟩ := zero_quotient rfl made
  obtain ⟨_, _, rfl⟩ := zero_quotient isZero run
  have resolved := expands_resolved (orderly b (by simp)) right
  exact (expands_zeros placed).mpr (congrArg (zeros []) (union_of_empty union rfl resolved.free))

theorem quotient_expands (nonzero : a.isZero = false)
    (orderly : ∀ o ∈ [a, b], Orderly o) (plain : ∀ o ∈ [a, b], Unlabelled o)
    (placed : ∀ o ∈ [a, b], Placed o scope)
    (folds : ∀ u v, Expands a scope u → Expands b scope v → Operator.Confluent .division a b u v)
    (run : a.scalarQuotient b = .ok t) :
    Operator.Makes .division [a, b] scope r ↔ Expands t scope r := by
  have whole : Operator.assemble .division [a, b] = .ok t := run
  have resolved {o v : Expr} (member : o ∈ [a, b]) (expands : Expands o scope v) : Resolved v :=
    expands_resolved (orderly o member) expands
  simp only [scalarQuotient, except_bind_ok, expect_scalar_ok] at run
  obtain ⟨_, scalar, _, _, run⟩ := run
  obtain ⟨divisor, run⟩ := except_if_ok (by simp) run
  simp only [except_bind_ok] at run
  obtain ⟨_, _, run⟩ := run
  rw [if_neg (by simp [nonzero])] at run
  split at run
  · rename_i folded
    cases (except_pure_ok _ _).mp run
    obtain ⟨x, y, c, known, known', _, rfl⟩ := fold_some folded
    refine constants_expand rfl (by simp) (operands_pair ?_ ?_) placed
      ((placed a (by simp)).nothing scalar) whole
    · exact ⟨by simp [known], constant_free known nonzero⟩
    · exact ⟨by simp [known'], constant_free known' (eq_false_of_ne_true divisor)⟩
  split at run
  · rename_i one
    cases (except_pure_ok _ _).mp run
    have itself : Expands b scope b := (expands_one one (placed b (by simp))).mpr rfl
    rw [makes_two rfl (by simp)]
    constructor
    · rintro ⟨u, v, expands, expands', made⟩
      obtain rfl := (expands_one one (placed b (by simp))).mp expands'
      have quotient := over_one_resolved (resolved (by simp) expands) (resolved (by simp) itself) one
        ((folds u _ expands itself).divisor rfl one)
      cases quotient.symm.trans made
      exact expands
    · intro expands
      exact ⟨r, b, expands, itself, over_one_resolved (resolved (by simp) expands)
        (resolved (by simp) itself) one ((folds r b expands itself).divisor rfl one)⟩
  · cases (except_pure_ok _ _).mp run
    have made := orderly_assembled (by simp) (spreads_other (by simp)) orderly plain whole
    rw [expands_node made (by simp)]

theorem power_expands (kept : ¬ Operator.DropsIndices .power [a, b])
    (orderly : ∀ o ∈ [a, b], Orderly o) (plain : ∀ o ∈ [a, b], Unlabelled o)
    (placed : ∀ o ∈ [a, b], Placed o scope) (run : a.pow b = .ok t) :
    Operator.Makes .power [a, b] scope r ↔ Expands t scope r := by
  have whole : Operator.assemble .power [a, b] = .ok t := run
  simp only [pow, except_bind_ok, expect_scalar_ok] at run
  obtain ⟨_, scalar, _, _, run⟩ := run
  obtain ⟨unindexed, run⟩ := except_if_ok (by simp) run
  have unindexed : b.free = ∅ := FreeIndices.is_empty_iff.mp (by simpa using unindexed)
  split at run
  · rename_i one
    cases (except_pure_ok _ _).mp run
    have itself : Expands b scope b := (expands_one one (placed b (by simp))).mpr rfl
    have power {u : Expr} (expands : Expands a scope u) : u.pow b = .ok u := by
      have left := expands_resolved (orderly a (by simp)) expands
      have right := expands_resolved (orderly b (by simp)) itself
      simp only [pow, expect_scalar_runs left.scalar, expect_scalar_runs right.scalar,
        except_ok_bind, FreeIndices.is_empty_iff.mpr unindexed, one, Bool.not_true,
        Bool.false_eq_true, if_false, if_true]
      rfl
    rw [makes_two rfl (by simp)]
    constructor
    · rintro ⟨u, v, expands, expands', made⟩
      obtain rfl := (expands_one one (placed b (by simp))).mp expands'
      cases (power expands).symm.trans made
      exact expands
    · exact fun expands => ⟨r, b, expands, itself, power expands⟩
  rename_i notOne
  split at run
  · rename_i folded
    cases (except_pure_ok _ _).mp run
    obtain ⟨x, y, c, known, known', _, rfl⟩ := fold_some folded
    refine constants_expand rfl (by simp) (operands_pair ⟨by simp [known], ?_⟩
      ⟨by simp [known'], unindexed⟩) placed ((placed a (by simp)).nothing scalar) whole
    -- The base may be a zero; then it is one without indices.
    cases isZero : a.isZero with
    | false => exact constant_free known isZero
    | true =>
        by_contra indexed
        exact kept ⟨isZero, indexed, by simp [known'], eq_false_of_ne_true notOne⟩
  · cases (except_pure_ok _ _).mp run
    have made := orderly_assembled (by simp) (spreads_other (by simp)) orderly plain whole
    rw [expands_node made (by simp)]

theorem sqrt_expands (orderly : Orderly a) (plain : Unlabelled a) (placed : Placed a scope)
    (run : a.sqrt = .ok t) : Operator.Makes .sqrt [a] scope r ↔ Expands t scope r := by
  have whole : Operator.assemble .sqrt [a] = .ok t := run
  simp only [sqrt, except_bind_ok, expect_scalar_ok] at run
  obtain ⟨_, scalar, run⟩ := run
  split at run
  · rename_i isZero
    obtain ⟨_, _, rfl⟩ := is_zero_iff.mp isZero
    cases (except_pure_ok _ _).mp run
    have root : Operator.assemble .sqrt [zero] = .ok zero := rfl
    rw [makes_pointwise rfl (by simp), expands_zeros placed]
    constructor
    · rintro ⟨results, runs, made⟩
      obtain ⟨u, rfl, expands⟩ := pairs_one runs
      obtain rfl := (expands_zeros placed).mp expands
      exact (Except.ok.inj (root.symm.trans made)).symm
    · rintro rfl
      exact ⟨[zero], .cons ((expands_zeros placed).mpr rfl) .nil, root⟩
  split at run
  · rename_i nonzero _ _ folded
    cases (except_pure_ok _ _).mp run
    obtain ⟨x, c, known, _, rfl⟩ := fold_root_some folded
    exact constants_expand rfl (by simp) (List.forall_mem_singleton.mpr
      ⟨by simp [known], constant_free known (eq_false_of_ne_true nonzero)⟩)
      (List.forall_mem_singleton.mpr placed) (placed.nothing scalar) whole
  · cases (except_pure_ok _ _).mp run
    have made := orderly_assembled (by simp) (spreads_other (by simp))
      (List.forall_mem_singleton.mpr orderly) (List.forall_mem_singleton.mpr plain) whole
    rw [expands_node made (by simp)]

end Arithmetic

section Indexing

theorem expands_int {value : Int64} (nothing : scope.component = []) :
    Expands (int value) scope r ↔ r = int value := by
  unfold int
  split
  · exact expands_folded .zero nothing
  · exact expands_folded (.int value) nothing

theorem identity_selected {dim row column : Nat} (inside : row < dim) (inside' : column < dim) :
    (identity dim).selectAt [row, column] = .ok (int (if row = column then 1 else 0)) := by
  have subscribed : (∅ : FreeIndices).subscribe (identity dim) [.fixed row, .fixed column] [dim, dim] =
      .ok ∅ := by
    rw [FreeIndices.subscribe, if_neg (by omega), FreeIndices.subscribe, if_neg (by omega)]
    rfl
  have run : (identity dim).subscript [.fixed row, .fixed column] =
      .ok (int (if row = column then 1 else 0)) := by
    rw [identity, subscript]
    · have subscribed : (Expr.terminal (.identity dim)).free.subscribe (.terminal (.identity dim))
          [.fixed row, .fixed column] (Expr.terminal (.identity dim)).shape = .ok ∅ := subscribed
      simp only [subscribed]
      rfl
    · simp
  show Except.mapError _ ((identity dim).subscript [.fixed row, .fixed column]) = _
  rw [run]
  rfl

theorem subscript_expands {items : List IndexItem} (made : Subscripted a items t)
    (placed : Placed t scope) (scalar : t.shape = []) :
    (scope.unassigned (items.filterMap IndexItem.free?) = [] ∧
      Expands a (scope.select ((items.map scope.resolve).filterMap IndexItem.fixed?)) r) ↔
        Expands t scope r := by
  have nothing := placed.nothing scalar
  induction made with
  | whole =>
      have same : scope.select [] = scope := by
        rw [← nothing]
        rfl
      simp [Scope.unassigned, same]
  | @zero axes set items free subscribed =>
      rw [expands_zeros placed]
      refine ⟨fun both => zeros_vanish rfl both.2, ?_⟩
      rintro rfl
      have assigned : scope.unassigned (items.filterMap IndexItem.free?) = [] :=
        placed.assigned fun i member => by
          obtain ⟨item, inside, known⟩ := List.mem_filterMap.mp member
          cases item with
          | fixed position => cases known
          | free j =>
              cases known
              exact subscripts_listed subscribed i inside
      obtain ⟨component, resolved, lies⟩ := subscripts_stand subscribed placed.fits.positions assigned
      refine ⟨assigned, .zero ?_ ?_⟩
      · rw [resolved, fixed_items]
        exact lies.length_eq
      · refine placed.assigned fun i member => ?_
        exact FreeIndices.subset_contains (subscripts_inside subscribed)
          (FreeIndices.mem_indices_iff.mp member)
  | @identity dim row column inside inside' =>
      rw [expands_int nothing]
      refine ⟨fun both => ?_, ?_⟩
      · cases both.2 with
        | terminal _ _ _ selected =>
            exact (Except.ok.inj ((identity_selected inside inside').symm.trans selected)).symm
      · rintro rfl
        exact ⟨rfl, .terminal (by simp [Terminal.kind]) (by simp [Terminal.kind]) rfl (identity_selected inside inside')⟩
  | @entry entries shape free position items entry t found made ih =>
      refine Iff.trans ?_ (ih placed scalar)
      refine and_congr Iff.rfl ⟨fun expands => ?_, fun expands => ?_⟩
      · cases expands with
        | listTensor selected found' expands =>
            cases selected
            cases found.symm.trans found'
            exact expands
        | pointwise pointwise => cases pointwise
      · exact .listTensor rfl found expands
  | node =>
      refine ⟨fun both => .indexed both.1 both.2, fun expands => ?_⟩
      cases expands with
      | indexed assigned expands => exact ⟨assigned, expands⟩
      | pointwise pointwise => cases pointwise

theorem indexed_expands {items : List IndexItem} (made : Subscripted a items t)
    (placed : Placed t scope) (scalar : t.shape = []) :
    Operator.Makes .indexed [a, multiIndex items] scope r ↔ Expands t scope r := by
  rw [← subscript_expands made placed scalar]
  constructor
  · rintro ⟨visits, results, visited, runs, combined⟩
    cases visited with
    | indexed assigned =>
        obtain ⟨v, rfl, expands⟩ := pairs_one runs
        cases combined
        exact ⟨assigned, expands⟩
    | pointwise pointwise => cases pointwise
  · rintro ⟨assigned, expands⟩
    exact ⟨_, _, .indexed assigned, .cons expands .nil, rfl⟩

theorem zeros_total {terms : List Expr} (vanish : ∀ t ∈ terms, t = zero) :
    terms.foldlM add zero = .ok zero := by
  induction terms with
  | nil => rfl
  | cons head rest ih =>
      obtain ⟨rfl, others⟩ := List.forall_mem_cons.mp vanish
      rw [List.foldlM_cons, zero_add_resolved resolved_zero]
      exact ih others

/-- The operand of an index sum is visited at every position of the index. -/
theorem visits_sum {index : Index} {dim : Nat} {visits : List (Expr × Scope)}
    (known : a.free.dim? index = some dim)
    (visited : Operator.Visits scope .indexSum [a, multiIndex [.free index]] visits) :
    visits = (List.range dim).map fun position => (a, scope.bind index position) := by
  cases visited with
  | indexSum found =>
      cases known.symm.trans found
      rfl
  | pointwise pointwise => cases pointwise

theorem index_sum_expands {index : Index} (orderly : Orderly a) (plain : Unlabelled a)
    (placed : Placed t scope) (run : a.indexSum index = .ok t) :
    Operator.Makes .indexSum [a, multiIndex [.free index]] scope r ↔ Expands t scope r := by
  obtain ⟨scalar, known, ⟨isZero, rfl⟩ | rfl⟩ := index_sum_cases run
  · obtain ⟨dim, found⟩ := FreeIndices.contains_iff.mp known
    have visited : Operator.Visits scope .indexSum [a, multiIndex [.free index]] _ := .indexSum found
    rw [expands_zeros placed]
    constructor
    · rintro ⟨visits, terms, visited, runs, total⟩
      obtain rfl := visits_sum found visited
      have vanish : ∀ t ∈ terms, t = zero := fun t member => by
        obtain ⟨position, _, expands⟩ := pairs_member (List.forall₂_map_left_iff.mp runs) member
        exact zeros_vanish isZero expands
      exact (Except.ok.inj ((zeros_total vanish).symm.trans total)).symm
    · rintro rfl
      refine ⟨_, List.replicate dim zero, visited, ?_, zeros_total fun t member =>
        List.eq_of_mem_replicate member⟩
      obtain ⟨axes, set, rfl⟩ := is_zero_iff.mp isZero
      refine List.forall₂_map_left_iff.mpr
        (List.forall₂_iff_zip.mpr ⟨by simp, fun {position term} pair => ?_⟩)
      obtain ⟨inside, member⟩ := List.of_mem_zip pair
      rw [List.eq_of_mem_replicate member]
      -- The summand is placed where the sum is and the index has a position of its own.
      have opens : Placed (zeros axes set) (scope.bind index position) := by
        have sum : Placed (.node .indexSum [] [] (set.erase index)) scope := placed.same rfl rfl
        refine sum.opens (opens_sum found (List.mem_range.mp inside)) ?_
        obtain rfl : axes = [] := scalar
        exact placed.component
      exact (expands_zeros opens).mpr rfl
  · have whole : Operator.assemble .indexSum [a, multiIndex [.free index]] = .ok _ := run
    have items : Orderly (multiIndex [.free index]) := orderly_terminal _
    have made := orderly_assembled (by simp) (spreads_other (by simp))
      (operands_pair orderly items) (operands_pair plain (unlabelled_terminal _)) whole
    rw [expands_node made (by simp)]

/-- The indices that are bound to a component stand for it. -/
theorem bound_resolved {indices : List Index} {component : Component} (distinct : indices.Nodup)
    (length : indices.length = component.length) :
    (indices.map IndexItem.free).map (scope.bindAll (indices.zip component)).resolve =
      component.map .fixed := by
  induction indices generalizing scope component with
  | nil =>
      obtain rfl := List.eq_nil_of_length_eq_zero length.symm
      rfl
  | cons i indices ih =>
      obtain ⟨absent, distinct⟩ := List.nodup_cons.mp distinct
      cases component with
      | nil => cases length
      | cons p component =>
          have kept : ((scope.bind i p).bindAll (indices.zip component)).position? i = some p := by
            refine (bind_all_position fun binding inside same => absent ?_).trans ?_
            · exact same ▸ (List.of_mem_zip inside).1
            · simp [Scope.bind, Scope.position?]
          have here : (scope.bindAll ((i :: indices).zip (p :: component))).resolve (.free i) = .fixed p := by
            have kept : (scope.bindAll ((i :: indices).zip (p :: component))).position? i = some p := kept
            rw [Scope.resolve, kept]
            rfl
          rw [List.map_cons, List.map_cons, List.map_cons, here]
          exact congrArg _ (ih distinct (Nat.succ.inj length))

/-- A component tensor of the components along indices that are not looked up in the tensor expands as
the tensor. -/
theorem captured_expands {indices : List Index} {axes : Shape} (distinct : indices.Nodup)
    (length : indices.length = axes.length) (lies : scope.component.Lies axes)
    (apart : ∀ i ∈ indices, ¬ Seeks i t) :
    Expands (.node .indexed [t, multiIndex (indices.map .free)] shape free)
      ((scope.bindAll (indices.zip scope.component)).select []) r ↔ Expands t scope r := by
  have kept (i : Index) (seeks : Seeks i t) :
      ((scope.bindAll (indices.zip scope.component)).select scope.component).position? i =
        scope.position? i :=
    bind_all_position fun binding inside same =>
      apart i (same ▸ (List.of_mem_zip inside).1) seeks
  have assigned : ((scope.bindAll (indices.zip scope.component)).select []).unassigned
      ((indices.map IndexItem.free).filterMap IndexItem.free?) = [] := by
    refine List.filter_eq_nil_iff.mpr fun i member => ?_
    rw [free_items] at member
    obtain ⟨d, pair⟩ := partner_right length member
    obtain ⟨p, stands, _⟩ : ∃ p, ((scope.bindAll (indices.zip scope.component)).select []).position? i =
        some p ∧ p < d := Scope.bind_all_stands distinct length lies pair
    simp [stands]
  have selected : ((indices.map IndexItem.free).map
      ((scope.bindAll (indices.zip scope.component)).select []).resolve).filterMap IndexItem.fixed? =
        scope.component := by
    refine Eq.trans (congrArg _ (bound_resolved distinct ?_)) (fixed_items _)
    exact length.trans lies.length_eq.symm
  constructor
  · intro expands
    cases expands with
    | indexed _ expands =>
        rw [selected] at expands
        exact expands_congr expands rfl fun i seeks => (kept i seeks).symm
    | pointwise pointwise => cases pointwise
  · intro expands
    refine .indexed assigned ?_
    rw [selected]
    exact expands_congr expands rfl kept

theorem component_tensor_expands {indices : List Index} (some : indices ≠ []) (orderly : Orderly a)
    (plain : Unlabelled a) (placed : Placed t scope)
    (apart : ¬ Operator.Captures .componentTensor [a, multiIndex (indices.map .free)])
    (typed : t.shape = shape ∧ t.free = free) (binds : Binds a.free indices shape free)
    (run : a.asTensor indices = .ok t) :
    Operator.Makes .componentTensor [a, multiIndex (indices.map .free)] scope r ↔ Expands t scope r := by
  have whole : Operator.assemble .componentTensor [a, multiIndex (indices.map .free)] = .ok t :=
    (except_bind_ok _ _ _).mpr ⟨indices, expect_indices_free _ indices, run⟩
  have lies : scope.component.Lies shape := typed.1 ▸ placed.component
  obtain ⟨none, _⟩ | ⟨_, scalar, axes, set, binds', result⟩ := as_tensor_cases run
  · exact absurd none some
  have makes : Operator.Makes .componentTensor [a, multiIndex (indices.map .free)] scope r ↔
      Expands a ((scope.bindAll (indices.zip scope.component)).select []) r := by
    constructor
    · rintro ⟨visits, results, visited, runs, combined⟩
      cases visited with
      | componentTensor =>
          obtain ⟨v, rfl, expands⟩ := pairs_one runs
          cases combined
          rwa [free_items] at expands
      | pointwise pointwise => cases pointwise
    · intro expands
      refine ⟨_, _, .componentTensor ?_, .cons ?_ .nil, rfl⟩
      · rw [free_items]
        exact binds.length.trans lies.length_eq.symm
      · rwa [free_items]
  rw [makes]
  rcases result with ⟨isZero, rfl⟩ | ⟨middle, dims, rfl⟩ | rfl
  · rw [expands_zeros placed]
    constructor
    · exact fun expands => zeros_vanish isZero expands
    · rintro rfl
      have tensor : Placed (.node .componentTensor [] shape free) scope :=
        placed.same typed.1.symm typed.2.symm
      have inner := tensor.opens (opens_bound binds lies) (by rw [scalar]; exact .nil)
      obtain ⟨_, _, rfl⟩ := is_zero_iff.mp isZero
      exact (expands_zeros inner).mpr rfl
  · refine captured_expands binds.distinct binds.length lies fun i member seeks => apart ?_
    exact ⟨_, _, _, _, rfl, rfl, i, List.mem_map_of_mem member, seeks⟩
  · have made := orderly_assembled (by simp) (spreads_other (by simp))
      (operands_pair orderly (orderly_terminal _)) (operands_pair plain (unlabelled_terminal _)) whole
    rw [expands_node made (by simp), makes]

theorem list_tensor_expands (orderly : ∀ o ∈ ts, Orderly o) (plain : ∀ o ∈ ts, Unlabelled o)
    (placed : Placed t scope) (run : listTensor ts = .ok t) :
    Operator.Makes .listTensor ts scope r ↔ Expands t scope r := by
  have whole : Operator.assemble .listTensor ts = .ok t := run
  obtain ⟨axes, set, some, same, ⟨isZero, rfl⟩ | rfl⟩ := list_tensor_cases run
  · rw [expands_zeros placed]
    constructor
    · rintro ⟨visits, results, visited, runs, combined⟩
      cases visited with
      | listTensor selected found =>
          obtain ⟨v, rfl, expands⟩ := pairs_one runs
          cases combined
          exact zeros_vanish (isZero _ (List.mem_of_getElem? found)) expands
      | pointwise pointwise => cases pointwise
    · rintro rfl
      obtain ⟨component, positions⟩ := scope
      have lies : component.Lies (ts.length :: axes) := placed.component
      cases lies with
      | @cons position _ rest _ below lies =>
          have found := List.getElem?_eq_getElem below
          obtain ⟨shape, free⟩ := same _ (List.getElem_mem below)
          obtain ⟨_, _, zeros⟩ := is_zero_iff.mp (isZero _ (List.getElem_mem below))
          have entry : Placed ts[position] ⟨rest, positions⟩ :=
            ⟨shape.symm ▸ lies, fun i d known => placed.positions i d (by rwa [free] at known)⟩
          rw [zeros] at entry found
          exact ⟨_, _, .listTensor rfl found, .cons ((expands_zeros entry).mpr rfl) .nil, rfl⟩
  · have made := orderly_assembled (by simp) (spreads_other (by simp)) orderly plain whole
    rw [expands_node made (by simp)]

end Indexing

section Assembled

variable {xs : List Expr}

/-- What is made of operands of the types of its own is a node or a zero, if expansion does not know
the operator. -/
theorem unknown_assembled (types : op.Types xs shape free) (fills : List.Forall₂ Fills xs ts)
    (unknown : op.kind.isCompound = true ∨ op = .variableDerivative) (run : op.assemble ts = .ok t) :
    t.isZero = true ∨ ∃ shape free, t = .node op ts shape free := by
  have binary {how : Operator} {made : Construction} {a b : Expr} {axes : Shape}
      (run : binary how made a b axes = .ok t) :
      t.isZero = true ∨ ∃ shape free, t = .node how [a, b] shape free := by
    obtain ⟨free, _, _, rfl | rfl⟩ := binary_cases run
    · exact .inl rfl
    · exact .inr ⟨_, _, rfl⟩
  cases types with
  | div =>
      obtain ⟨v, rfl, _⟩ := pairs_one fills
      obtain ⟨_, rfl | rfl⟩ := div_cases run
      · exact .inl rfl
      · exact .inr ⟨_, _, rfl⟩
  | inner =>
      obtain ⟨v, w, rfl, _⟩ := pairs_two fills
      obtain ⟨_, _, run⟩ := (except_bind_ok _ _ _).mp run
      exact binary run
  | outer =>
      obtain ⟨v, w, rfl, _⟩ := pairs_two fills
      exact binary run
  | dot | cross =>
      obtain ⟨v, w, rfl, _⟩ := pairs_two fills
      obtain ⟨_, run⟩ := except_if_ok (by simp) run
      exact binary run
  | curl | rot | trace | skew | cofactor | deviatoric =>
      obtain ⟨v, rfl, _⟩ := pairs_one fills
      obtain ⟨_, _, rfl⟩ := (except_bind_pure_ok _ _ _).mp run
      exact .inr ⟨_, _, rfl⟩
  | determinant shape | inverse shape | transposed shape =>
      obtain ⟨v, rfl, operand⟩ := pairs_one fills
      simp only [Operator.assemble, Expr.determinant, Expr.inverse, Expr.transposed, operand.shape, shape] at run
      cases run
      exact .inr ⟨_, _, rfl⟩
  | variableDerivative =>
      obtain ⟨v, w, rfl, _⟩ := pairs_two fills
      obtain ⟨_, _, rfl⟩ := variable_derivative_cases run
      exact .inr ⟨_, _, rfl⟩
  | _ => rcases unknown with unknown | unknown <;> cases unknown

theorem makes_known (makes : op.Makes ts scope r) :
    op.kind.isCompound = false ∧ op ≠ .variableDerivative := by
  obtain ⟨visits, _, visited, _⟩ := makes
  cases visited with
  | pointwise pointwise => cases op <;> first | (cases pointwise; done) | exact ⟨rfl, by simp⟩
  | _ => exact ⟨rfl, by simp⟩

/-- An operator makes of expansions what it made of the expanded operands expands to; only what it
made a zero of them may go unnoticed. -/
theorem assembled_expands (types : op.Types xs shape free) (fills : List.Forall₂ Fills xs ts)
    (other : op ≠ .grad) (spreads : op.Spreads ts) (orderly : ∀ o ∈ ts, Orderly o)
    (plain : ∀ o ∈ ts, Unlabelled o)
    (operands : op.isPointwise = true → op ≠ .spatialDerivative → ∀ o ∈ ts, Placed o scope)
    (kept : ¬ op.DropsIndices ts ∧ ¬ op.Captures ts)
    (folds : ∀ a b, ts = [a, b] → ∀ u v, Expands a scope u → Expands b scope v → op.Confluent a b u v)
    (placed : Placed t scope) (type : t.shape = shape ∧ t.free = free) (run : op.assemble ts = .ok t) :
    (op.Makes ts scope r → Expands t scope r) ∧
      (t.isZero = false → Expands t scope r → op.Makes ts scope r) := by
  have both (same : op.Makes ts scope r ↔ Expands t scope r) :
      (op.Makes ts scope r → Expands t scope r) ∧
        (t.isZero = false → Expands t scope r → op.Makes ts scope r) :=
    ⟨same.mp, fun _ => same.mpr⟩
  have stays {shape : Shape} {free : FreeIndices} (node : t = .node op ts shape free) :
      (op.Makes ts scope r → Expands t scope r) ∧
        (t.isZero = false → Expands t scope r → op.Makes ts scope r) := by
    have made := orderly_assembled other spreads orderly plain run
    subst node
    exact both (expands_node made other).symm
  by_cases unknown : op.kind.isCompound = true ∨ op = .variableDerivative
  · rcases unknown_assembled types fills unknown run with isZero | ⟨_, _, node⟩
    · refine ⟨fun makes => ?_, fun nonzero => by simp [isZero] at nonzero⟩
      obtain ⟨simple, derivative⟩ := makes_known makes
      exact absurd unknown (by simp [simple, derivative])
    · exact stays node
  cases types with
  | sum =>
      obtain ⟨v, w, rfl, _⟩ := pairs_two fills
      exact both (sum_expands orderly plain (operands rfl (by simp)) (folds v w rfl) run)
  | product =>
      obtain ⟨v, w, rfl, _⟩ := pairs_two fills
      have built : v.scalarProduct w = .ok t := run
      by_cases isZero : v.isZero = true ∨ w.isZero = true
      · refine ⟨product_zero isZero orderly placed built, fun nonzero => ?_⟩
        obtain ⟨_, rfl⟩ := zero_product isZero built
        cases nonzero
      · simp only [not_or, Bool.not_eq_true] at isZero
        exact both (product_expands isZero.1 isZero.2 orderly plain (operands rfl (by simp))
          (folds v w rfl) run)
  | division =>
      obtain ⟨v, w, rfl, _⟩ := pairs_two fills
      have built : v.scalarQuotient w = .ok t := run
      cases isZero : v.isZero with
      | true =>
          refine ⟨quotient_zero isZero orderly placed built, fun nonzero => ?_⟩
          obtain ⟨_, _, rfl⟩ := zero_quotient isZero built
          cases nonzero
      | false =>
          exact both (quotient_expands isZero orderly plain (operands rfl (by simp)) (folds v w rfl) run)
  | power =>
      obtain ⟨v, w, rfl, _⟩ := pairs_two fills
      exact both (power_expands kept.1 orderly plain (operands rfl (by simp)) run)
  | sqrt =>
      obtain ⟨v, rfl, _⟩ := pairs_one fills
      have inside : v ∈ [v] := List.mem_singleton.mpr rfl
      exact both (sqrt_expands (orderly v inside) (plain v inside) (operands rfl (by simp) v inside) run)
  | indexed =>
      obtain ⟨v, ii, rfl, _, items⟩ := pairs_two fills
      obtain rfl := items.multi_index
      exact both (indexed_expands (subscript_cases run) placed type.1)
  | indexSum =>
      obtain ⟨v, ii, rfl, _, items⟩ := pairs_two fills
      obtain rfl := items.multi_index
      exact both (index_sum_expands (orderly v (by simp)) (plain v (by simp)) placed run)
  | componentTensor _ some binds =>
      obtain ⟨v, ii, rfl, scalar, items⟩ := pairs_two fills
      obtain rfl := items.multi_index
      obtain ⟨indices, known, run⟩ := (except_bind_ok _ _ _).mp run
      cases (expect_indices_free _ _).symm.trans known
      rw [← scalar.free] at binds
      exact both (component_tensor_expands some (orderly v (by simp)) (plain v (by simp)) placed kept.2
        type binds run)
  | listTensor => exact both (list_tensor_expands orderly plain placed run)
  | conditional =>
      obtain ⟨test, v, w, rfl, _⟩ := pairs_three fills
      obtain ⟨_, _, node⟩ := conditional_cases run
      exact stays node
  | condition =>
      obtain ⟨_, _, node⟩ := condition_cases run
      exact stays node
  | spatialDerivative some =>
      obtain ⟨v, ii, rfl, _, items⟩ := pairs_two fills
      obtain rfl := items.multi_index
      obtain ⟨none, _⟩ | ⟨_, _, _, _, _, node⟩ := spatial_derivative_cases run
      · exact absurd none some
      · exact stays node
  | restricted =>
      obtain ⟨v, rfl, _⟩ := pairs_one fills
      exact stays (Except.ok.inj run).symm
  | grad => exact absurd rfl other
  | variableDerivative => exact absurd (.inr rfl) unknown
  | _ => exact absurd (.inl rfl) unknown

end Assembled

end Expr

end FormCalculus
