import Std.Data.HashSet.Lemmas
import FormCalculus.Proofs.Ordering

/-!
The order of expressions is total and equal exactly on equal expressions: what the nodes store is
compared first, then operand by operand. Equal expressions cannot be told apart by a memo, a set or
a sorted pair, and they are those that differ at most in the bodies of labelled expressions.
-/
set_option autoImplicit false

namespace FormCalculus

/-- Two comparisons, neither of them downwards, in a row. -/
def Chains (ab bc ac : Ordering) : Prop := ab.isLE = true → bc.isLE = true → ac = ab.then bc

theorem chains_of_total {α : Type} (cmp : α → α → Ordering) [Std.TransCmp cmp] (a b c : α) :
    Chains (cmp a b) (cmp b c) (cmp a c) := by
  intro ab bc
  cases first : cmp a b with
  | gt => simp [first] at ab
  | eq => exact Std.TransCmp.congr_left first
  | lt => exact Std.TransCmp.lt_of_lt_of_isLE first bc

/-- Where the first comparisons leave it open, the second ones decide. -/
theorem Chains.followed {p q r p' q' r' : Ordering} (first : Chains p q r)
    (second : p = .eq → q = .eq → Chains p' q' r') :
    Chains (p.then p') (q.then q') (r.then r') := by
  intro left right
  have down {o o' : Ordering} (up : (o.then o').isLE = true) : o.isLE = true := by
    cases o <;> simp_all
  rw [first (down left) (down right)]
  cases p with
  | gt => cases left
  | lt => rfl
  | eq =>
      cases q with
      | gt => cases right
      | lt => cases p' <;> first | rfl | cases left
      | eq => exact second rfl rfl left right

namespace Expr

/-- What the two store apart from their operands is the same. -/
def SameHead : Expr → Expr → Prop
  | .terminal s, .terminal t => s = t
  | .node op _ shape free, .node op' _ shape' free' => op = op' ∧ shape = shape' ∧ free = free'
  | .labelled l _, .labelled m _ => l = m
  | _, _ => False

/-- A total order of what expressions store apart from their operands. -/
structure ComparesHeads (cmp : Expr → Expr → Ordering) : Prop where
  total : Std.TransCmp cmp
  equal : ∀ a b : Expr, (a == b) = true → cmp a b = .eq
  heads : ∀ a b, cmp a b = .eq → SameHead a b

mutual
/-- Compares by `cmp` first, then operand by operand. -/
def orderBy (cmp : Expr → Expr → Ordering) : Expr → Expr → Ordering
  | .node op xs shape free, .node op' ys shape' free' =>
      (cmp (.node op xs shape free) (.node op' ys shape' free')).then (orderAllBy cmp xs ys)
  | a, b => cmp a b
  termination_by structural a => a
def orderAllBy (cmp : Expr → Expr → Ordering) : List Expr → List Expr → Ordering
  | [], [] => .eq
  | [], _ :: _ => .lt
  | _ :: _, [] => .gt
  | x :: xs, y :: ys => (orderBy cmp x y).then (orderAllBy cmp xs ys)
  termination_by structural xs => xs
end

section

variable {cmp : Expr → Expr → Ordering}

/-- The comparison of the operands of two nodes. -/
def operandsBy (cmp : Expr → Expr → Ordering) : Expr → Expr → Ordering
  | .node _ xs _ _, .node _ ys _ _ => orderAllBy cmp xs ys
  | _, _ => .eq

theorem order_by_then (a b : Expr) : orderBy cmp a b = (cmp a b).then (operandsBy cmp a b) := by
  cases a <;> cases b <;> simp [orderBy, operandsBy]

theorem order_all_by_swap {xs ys : List Expr}
    (oriented : ∀ x ∈ xs, ∀ y, orderBy cmp x y = (orderBy cmp y x).swap) :
    orderAllBy cmp xs ys = (orderAllBy cmp ys xs).swap := by
  induction xs generalizing ys with
  | nil => cases ys <;> rfl
  | cons x xs ih =>
      cases ys with
      | nil => rfl
      | cons y ys =>
          obtain ⟨here, others⟩ := List.forall_mem_cons.mp oriented
          rw [orderAllBy, orderAllBy, Ordering.swap_then, here y, ih others]

theorem order_all_by_chains {xs ys zs : List Expr}
    (chains : ∀ x ∈ xs, ∀ y z, Chains (orderBy cmp x y) (orderBy cmp y z) (orderBy cmp x z)) :
    Chains (orderAllBy cmp xs ys) (orderAllBy cmp ys zs) (orderAllBy cmp xs zs) := by
  induction xs generalizing ys zs with
  | nil => cases ys <;> cases zs <;> simp [Chains, orderAllBy]
  | cons x xs ih =>
      obtain ⟨here, others⟩ := List.forall_mem_cons.mp chains
      cases ys with
      | nil => simp [Chains, orderAllBy]
      | cons y ys =>
          cases zs with
          | nil => simp [Chains, orderAllBy]
          | cons z zs => exact (here y z).followed fun _ _ => ih others

theorem order_all_by_same {xs ys : List Expr}
    (agrees : ∀ x ∈ xs, ∀ y, orderBy cmp x y = .eq ↔ (x == y) = true) :
    orderAllBy cmp xs ys = .eq ↔ (xs == ys) = true := by
  induction xs generalizing ys with
  | nil => cases ys <;> simp [orderAllBy]
  | cons x xs ih =>
      obtain ⟨here, others⟩ := List.forall_mem_cons.mp agrees
      cases ys with
      | nil => simp [orderAllBy]
      | cons y ys =>
          rw [orderAllBy, Ordering.then_eq_eq, here, ih others, List.cons_beq_cons, Bool.and_eq_true]

variable (compares : ComparesHeads cmp)

include compares

theorem order_by_swap (a b : Expr) : orderBy cmp a b = (orderBy cmp b a).swap := by
  have total := compares.total
  have head (a b : Expr) : cmp a b = (cmp b a).swap := Std.OrientedCmp.eq_swap
  induction a generalizing b with
  | terminal | labelled => cases b <;> simp only [orderBy] <;> exact head _ _
  | node op xs shape free ih =>
      cases b with
      | terminal | labelled => exact head _ _
      | node op' ys shape' free' =>
          rw [orderBy, orderBy, Ordering.swap_then, ← head, order_all_by_swap ih]

/-- Only equal expressions are of equal rank. -/
theorem order_by_same (a b : Expr) : orderBy cmp a b = .eq ↔ (a == b) = true := by
  induction a generalizing b with
  | terminal s =>
      have whole : orderBy cmp (.terminal s) b = cmp (.terminal s) b := by cases b <;> rfl
      rw [whole]
      refine ⟨fun same => ?_, compares.equal _ _⟩
      have heads := compares.heads _ _ same
      cases b with
      | terminal t => exact (terminal_same s t).trans (beq_iff_eq.mpr heads)
      | node | labelled => exact heads.elim
  | labelled l body =>
      have whole : orderBy cmp (.labelled l body) b = cmp (.labelled l body) b := by cases b <;> rfl
      rw [whole]
      refine ⟨fun same => ?_, compares.equal _ _⟩
      have heads := compares.heads _ _ same
      cases b with
      | labelled m => exact (labelled_same l m _ _).trans (beq_iff_eq.mpr heads)
      | node | terminal => exact heads.elim
  | node op xs shape free ih =>
      rw [order_by_then, Ordering.then_eq_eq]
      constructor
      · rintro ⟨same, operands⟩
        have heads := compares.heads _ _ same
        cases b with
        | terminal | labelled => exact heads.elim
        | node op' ys shape' free' =>
            obtain ⟨rfl, rfl, rfl⟩ := heads
            simpa using (order_all_by_same ih).mp operands
      · intro same
        refine ⟨compares.equal _ _ same, ?_⟩
        cases b with
        | terminal | labelled => rfl
        | node op' ys shape' free' =>
            rw [node_same, Bool.and_eq_true] at same
            exact (order_all_by_same ih).mpr same.2

theorem order_by_chains (a b c : Expr) :
    Chains (orderBy cmp a b) (orderBy cmp b c) (orderBy cmp a c) := by
  have total := compares.total
  induction a generalizing b c with
  | terminal | labelled =>
      rw [order_by_then, order_by_then, order_by_then]
      refine (chains_of_total cmp _ b c).followed fun same _ => ?_
      have heads := compares.heads _ _ same
      cases b with
      | terminal | labelled => first | exact heads.elim | exact fun _ _ => rfl
      | node => exact heads.elim
  | node op xs shape free ih =>
      rw [order_by_then, order_by_then, order_by_then]
      refine (chains_of_total cmp _ b c).followed fun same same' => ?_
      have heads := compares.heads _ _ same
      have heads' := compares.heads _ _ same'
      cases b with
      | terminal | labelled => exact heads.elim
      | node op' ys shape' free' =>
          cases c with
          | terminal | labelled => exact heads'.elim
          | node op'' zs shape'' free'' => exact order_all_by_chains ih

/-- Comparing heads by a total order compares expressions by one. -/
theorem order_by_total : Std.TransCmp (orderBy cmp) where
  eq_swap := order_by_swap compares _ _
  isLE_trans {a b c} ab bc := by
    rw [order_by_chains compares a b c ab bc]
    cases first : orderBy cmp a b with
    | gt => simp [first] at ab
    | lt => rfl
    | eq => exact bc

end

/-! The order in use compares kinds and codes. -/

/-- The kind of an expression and the code of what it stores apart from its operands. -/
def headCode : Expr → List Nat
  | .terminal data => data.kind.rank :: data.code
  | .node op _ shape free => op.kind.rank :: op.header shape free
  | .labelled label _ => [Kind.labelled.rank, label.number]

theorem terminal_rank (data : Terminal) : data.kind.rank < Kind.sum.rank := by
  cases data <;> exact Nat.le_of_ble_eq_true rfl

theorem operator_rank (op : Operator) :
    Kind.sum.rank ≤ op.kind.rank ∧ op.kind.rank < Kind.labelled.rank := by
  cases op <;> exact ⟨Nat.le_of_ble_eq_true rfl, Nat.le_of_ble_eq_true rfl⟩

theorem terminal_below_operator (data : Terminal) (op : Operator) : data.kind.rank < op.kind.rank :=
  Nat.lt_of_lt_of_le (terminal_rank data) (operator_rank op).1

theorem terminal_below_labelled (data : Terminal) : data.kind.rank < Kind.labelled.rank :=
  Nat.lt_trans (terminal_rank data) (Nat.le_of_ble_eq_true rfl)

theorem compare_below {m n : Nat} (below : m < n) (xs ys : List Nat) :
    compare (m :: xs) (n :: ys) = .lt := by
  rw [List.compare_cons_cons, Nat.compare_eq_lt.mpr below]
  rfl

theorem compare_above {m n : Nat} (above : n < m) (xs ys : List Nat) :
    compare (m :: xs) (n :: ys) = .gt := by
  rw [List.compare_cons_cons, Nat.compare_eq_gt.mpr above]
  rfl

theorem same_head_code {a b : Expr} (same : (a == b) = true) : a.headCode = b.headCode := by
  cases a <;> cases b <;> simp_all [headCode]

theorem head_code_same {a b : Expr} (same : a.headCode = b.headCode) : SameHead a b := by
  obtain ⟨kind, code⟩ : a.kind.rank = b.kind.rank ∧ a.headCode.tail = b.headCode.tail := by
    have head (e : Expr) : e.headCode = e.kind.rank :: e.headCode.tail := by cases e <;> rfl
    rw [head a, head b] at same
    exact List.cons.inj same
  cases a with
  | terminal s =>
      cases b with
      | terminal t => exact Terminal.code_injective (Kind.rank_injective kind) code
      | node op => exact absurd kind (Nat.ne_of_lt (terminal_below_operator s op))
      | labelled => exact absurd kind (Nat.ne_of_lt (terminal_below_labelled s))
  | node op xs shape free =>
      cases b with
      | terminal t => exact absurd kind (Nat.ne_of_gt (terminal_below_operator t op))
      | node op' => exact Operator.header_injective (Kind.rank_injective kind) code
      | labelled => exact absurd kind (Nat.ne_of_lt (operator_rank op).2)
  | labelled l =>
      cases b with
      | terminal t => exact absurd kind (Nat.ne_of_gt (terminal_below_labelled t))
      | node op => exact absurd kind (Nat.ne_of_gt (operator_rank op).2)
      | labelled m =>
          cases l
          cases m
          exact congrArg Label.mk (List.cons.inj code).1

theorem head_code_compares : ComparesHeads (compareOn headCode) where
  total := inferInstance
  equal a b same := by
    show compare a.headCode b.headCode = .eq
    rw [same_head_code same]
    exact Std.ReflOrd.compare_self
  heads a b same := head_code_same (Std.LawfulEqOrd.eq_of_compare same)

/-- To pass over equal operands changes nothing. -/
theorem order_all_eq_order_all_by {xs ys : List Expr}
    (below : ∀ x ∈ xs, ∀ y, order x y = orderBy (compareOn headCode) x y) :
    orderAll xs ys = orderAllBy (compareOn headCode) xs ys := by
  induction xs generalizing ys with
  | nil => cases ys <;> rfl
  | cons x xs ih =>
      obtain ⟨here, others⟩ := List.forall_mem_cons.mp below
      cases ys with
      | nil => rfl
      | cons y ys =>
          rw [orderAll, orderAllBy, here, ih others]
          by_cases same : (x == y) = true
          · rw [if_pos same, (order_by_same head_code_compares x y).mpr same]
            rfl
          · rw [if_neg same]

theorem order_eq_order_by (a b : Expr) : order a b = orderBy (compareOn headCode) a b := by
  induction a generalizing b with
  | terminal s =>
      cases b with
      | terminal t => exact List.compare_cons_cons.symm
      | node op => exact (compare_below (terminal_below_operator s op) _ _).symm
      | labelled => exact (compare_below (terminal_below_labelled s) _ _).symm
  | labelled l body =>
      cases b with
      | terminal t => exact (compare_above (terminal_below_labelled t) _ _).symm
      | node op => exact (compare_above (operator_rank op).2 _ _).symm
      | labelled m =>
          show compare l.number m.number = compare [Kind.labelled.rank, l.number] [_, m.number]
          simp [List.compare_cons_cons]
  | node op xs shape free ih =>
      cases b with
      | terminal t => exact (compare_above (terminal_below_operator t op) _ _).symm
      | labelled => exact (compare_below (operator_rank op).2 _ _).symm
      | node op' ys shape' free' =>
          rw [order, orderBy, ← Ordering.then_assoc]
          exact congr (congrArg Ordering.then List.compare_cons_cons.symm) (order_all_eq_order_all_by ih)

/-- Whatever does not tell equal expressions apart can be compared before. -/
theorem ComparesHeads.after {cmp : Expr → Expr → Ordering} (first : Expr → Expr → Ordering)
    [Std.TransCmp first] (blind : ∀ a b : Expr, (a == b) = true → first a b = .eq)
    (compares : ComparesHeads cmp) :
    ComparesHeads (compareLex first cmp) := by
  have total := compares.total
  refine ⟨inferInstance, fun a b same => ?_, fun a b same => ?_⟩
  · rw [compareLex, blind a b same, compares.equal a b same]
    rfl
  · rw [compareLex, Ordering.then_eq_eq] at same
    exact compares.heads a b same.2

/-- The order that compares kinds, then digests, then all that a node stores, and then operands. -/
def digestOrder : Expr → Expr → Ordering :=
  orderBy (compareLex (compareOn fun e => e.kind.rank) (compareLex (compareOn digest) (compareOn headCode)))

theorem digest_order_total :
    Std.TransCmp digestOrder ∧ ∀ a b, digestOrder a b = .eq ↔ (a == b) = true := by
  have digests : ComparesHeads (compareLex (compareOn digest) (compareOn headCode)) :=
    head_code_compares.after (compareOn digest) fun a b same => by
      show compare a.digest b.digest = .eq
      rw [same_digest same]
      exact Std.ReflOrd.compare_self
  have kinds := digests.after (compareOn fun e => e.kind.rank) fun a b same => by
    show compare a.kind.rank b.kind.rank = .eq
    rw [same_kind same]
    exact Std.ReflOrd.compare_self
  exact ⟨order_by_total kinds, order_by_same kinds⟩

theorem compare_eq_order_by : (compare : Expr → Expr → Ordering) = orderBy (compareOn headCode) :=
  funext fun a => funext fun b => order_eq_order_by a b

instance : Std.TransOrd Expr := by
  rw [Std.TransOrd, compare_eq_order_by]
  exact order_by_total head_code_compares

theorem compare_same (a b : Expr) : compare a b = .eq ↔ (a == b) = true := by
  rw [compare_eq_order_by]
  exact order_by_same head_code_compares a b

/-! Labels alone. -/

mutual
/-- The expression with nothing left of its labelled parts but their labels. -/
def withoutBodies : Expr → Expr
  | .terminal data => .terminal data
  | .node op operands shape free => .node op (withoutAllBodies operands) shape free
  | .labelled label _ => .labelled label zero
def withoutAllBodies : List Expr → List Expr
  | [] => []
  | e :: rest => withoutBodies e :: withoutAllBodies rest
end

theorem without_bodies_map (operands : List Expr) :
    withoutAllBodies operands = operands.map withoutBodies := by
  induction operands with
  | nil => rfl
  | cons e rest ih => rw [withoutAllBodies, ih, List.map_cons]

theorem without_bodies_same (e : Expr) : (e.withoutBodies == e) = true := by
  induction e with
  | terminal data => exact same_refl _
  | labelled label body => simp [withoutBodies]
  | node op operands shape free ih =>
      have pairs : List.Forall₂ (fun x y : Expr => (x == y) = true) (operands.map withoutBodies) operands :=
        List.forall₂_map_left_iff.mpr (List.forall₂_same.mpr ih)
      simpa [withoutBodies, without_bodies_map] using (operands_same_iff _ _).mpr pairs

/-- Equal expressions differ at most in the bodies of their labelled parts. -/
theorem same_iff_without_bodies (a b : Expr) :
    (a == b) = true ↔ a.withoutBodies = b.withoutBodies := by
  constructor
  · intro same
    induction a generalizing b with
    | terminal s => cases b <;> simp_all [withoutBodies]
    | labelled l => cases b <;> simp_all [withoutBodies]
    | node op xs shape free ih =>
        cases b with
        | terminal | labelled => simp at same
        | node op' ys shape' free' =>
            simp only [node_same, Bool.and_eq_true, beq_iff_eq, operands_same_iff] at same
            obtain ⟨⟨⟨rfl, rfl⟩, rfl⟩, pairs⟩ := same
            rw [withoutBodies, withoutBodies, without_bodies_map, without_bodies_map,
              map_eq_of_pairs pairs.length_eq fun x y pair =>
                ih x (List.of_mem_zip pair).1 y (List.forall₂_zip pairs pair)]
  · intro same
    have left := without_bodies_same a
    have right := without_bodies_same b
    exact same_trans (same_symm left) (same ▸ right)

/-- No memo, set, comparison or sorted pair can tell the two apart. -/
structure Interchangeable (a b : Expr) : Prop where
  equal : (a == b) = true
  memo : ∀ {α : Type} (memo : Memo α), memo[a]? = memo[b]?
  member : ∀ set : Std.HashSet Expr, set.contains a = set.contains b
  before : ∀ c : Expr, compare a c = compare b c
  after : ∀ c : Expr, compare c a = compare c b
  sorted : ∀ c : Expr, List.Forall₂ (fun x y => (x == y) = true) (sortedPair a c) (sortedPair b c)

theorem same_interchangeable {a b : Expr} (same : (a == b) = true) : Interchangeable a b := by
  have equal : compare a b = .eq := (compare_same a b).mpr same
  have after (c : Expr) : compare c a = compare c b := Std.TransCmp.congr_right equal
  refine ⟨same, fun memo => Std.HashMap.getElem?_congr same, fun set => Std.HashSet.contains_congr same,
    fun c => Std.TransCmp.congr_left equal, after, fun c => ?_⟩
  unfold sortedPair
  rw [after c]
  split
  · exact .cons (same_refl c) (.cons same .nil)
  · exact .cons same (.cons (same_refl c) .nil)

end Expr

end FormCalculus
