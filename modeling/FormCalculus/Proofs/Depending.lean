import FormCalculus.Proofs.Constructible
import FormCalculus.Proofs.DependencySets
import FormCalculus.Proofs.Remembering

/-!
What the analysis finds, operator by operator, as a relation between an expression and its
dependencies. An expression without dependencies in this sense is refused as not multilinear.
-/
set_option autoImplicit false

namespace FormCalculus

/-- Operators that no argument may pass. -/
def Dependency.nonlinearKinds : List Kind :=
  [.power, .sqrt, .condition, .determinant, .inverse, .cofactor, .deviatoric]

open Dependency OrderedSet

/-- The dependencies of an expression, from those of its operands. -/
inductive Depends : Expr → DependencySet → Prop
  | argument (a : Argument) : Depends (.terminal (.argument a)) (.ofArgument a)
  | terminal {data : Terminal} : (Expr.terminal data).argument? = none → Depends (.terminal data) ∅
  | labelled {label : Label} {body : Expr} {D : DependencySet} :
      Depends body D → Depends (.labelled label body) D
  | linear {op : Operator} {a : Expr} {rest : List Expr} {shape : Shape} {free : FreeIndices}
      {D : DependencySet} : op.kind ∈ linearKinds ++ linearInFirstKinds → Depends a D →
      (∀ o ∈ rest, Depends o ∅) → Depends (.node op (a :: rest) shape free) D
  | nonlinear {op : Operator} {operands : List Expr} {shape : Shape} {free : FreeIndices} :
      op.kind ∈ nonlinearKinds → (∀ o ∈ operands, Depends o ∅) →
      Depends (.node op operands shape free) ∅
  | sum {a b : Expr} {shape : Shape} {free : FreeIndices} {A B : DependencySet} :
      Depends a A → Depends b B → Depends (.node .sum [a, b] shape free) (A.union B)
  | product {op : Operator} {a b : Expr} {shape : Shape} {free : FreeIndices} {A B D : DependencySet} :
      op.kind ∈ productKinds → Depends a A → Depends b B → DependencySet.combine? A B = some D →
      Depends (.node op [a, b] shape free) D
  | listTensor {entries : List Expr} {shape : Shape} {free : FreeIndices} {D : DependencySet} :
      entries ≠ [] → (∀ entry ∈ entries, Depends entry D) →
      Depends (.node .listTensor entries shape free) D
  | conditional {test a b : Expr} {shape : Shape} {free : FreeIndices} {D : DependencySet} :
      Depends test ∅ → Depends a D → Depends b D → Depends (.node .conditional [test, a, b] shape free) D

section

variable {e : Expr} {D : DependencySet} {sets : List DependencySet}

theorem ruled_of_kind {rule : DependencyRule} (found : rules.rule? e.kind = some rule) :
    e.ruled rules sets = rule e sets := by
  unfold Expr.ruled
  rw [found]

theorem ruled_node {op : Operator} {operands : List Expr} {shape : Shape} {free : FreeIndices}
    {rule : DependencyRule} (found : rules.rule? op.kind = some rule) :
    (Expr.node op operands shape free).ruled rules sets = rule (.node op operands shape free) sets :=
  ruled_of_kind found

theorem rule_linear {kind : Kind} (member : kind ∈ linearKinds) : rules.rule? kind = some linear := by
  cases kind <;> first | rfl | exact absurd member (by decide)

theorem rule_linear_in_first {kind : Kind} (member : kind ∈ linearInFirstKinds) :
    rules.rule? kind = some linearInFirst := by
  cases kind <;> first | rfl | exact absurd member (by decide)

theorem rule_nonlinear {kind : Kind} (member : kind ∈ nonlinearKinds) :
    rules.rule? kind = some nonlinear := by
  cases kind <;> first | rfl | exact absurd member (by decide)

theorem rule_product {kind : Kind} (member : kind ∈ productKinds) :
    rules.rule? kind = some product := by
  cases kind <;> first | rfl | exact absurd member (by decide)

theorem ruled_terminal (data : Terminal) :
    (Expr.terminal data).ruled rules sets = terminal (.terminal data) sets :=
  ruled_of_kind (by cases data <;> rfl)

theorem ruled_labelled (label : Label) (body : Expr) :
    (Expr.labelled label body).ruled rules [D] = .ok D := by
  rw [ruled_of_kind (e := .labelled label body) rfl]
  rfl

theorem sum_two (A B : DependencySet) : sum e [A, B] = .ok (A.union B) := by
  refine congrArg Except.ok (ext_mem fun t => ?_)
  show t ∈ (union (union ∅ A) B) ↔ _
  rw [mem_union, mem_union, mem_union, or_iff_right (not_mem_empty t)]

theorem product_two (A B : DependencySet) :
    product e [A, B] = match DependencySet.combine? A B with
      | some combined => .ok combined
      | none => .error (.notMultilinear e) := by
  have folded : [A, B].foldlM DependencySet.combine? ∅ = DependencySet.combine? A B := by
    show (DependencySet.combine? A B >>= pure) = _
    rw [bind_pure]
  show (match [A, B].foldlM DependencySet.combine? ∅ with
    | some combined => Except.ok combined
    | none => Except.error (TransformError.notMultilinear e)) = _
  rw [folded]

/-- A rule fails only at a node where an argument enters nonlinearly. -/
def RefusesOnly (rule : DependencyRule) : Prop :=
  ∀ e sets err, rule e sets = .error err → err = .notMultilinear e

theorem rule_refuses (kind : Kind) : ∃ rule, rules.rule? kind = some rule ∧ RefusesOnly rule := by
  have passes : RefusesOnly linear := fun _ _ _ run => by cases run
  have first : RefusesOnly linearInFirst := fun e sets err run => by
    unfold linearInFirst at run
    split at run <;> cases run
    rfl
  have none : RefusesOnly nonlinear := fun e sets err run => by
    unfold nonlinear at run
    split at run <;> cases run
    rfl
  have adds : RefusesOnly sum := fun _ _ _ run => by cases run
  have multiplies : RefusesOnly product := fun e sets err run => by
    unfold product at run
    split at run <;> cases run
    rfl
  have lists : RefusesOnly listTensor := fun e sets err run => by
    unfold listTensor at run
    dsimp only at run
    split at run <;> cases run
    rfl
  have chooses : RefusesOnly conditional := fun e sets err run => by
    unfold conditional at run
    split at run
    · split at run <;> cases run
      rfl
    · cases run
      rfl
  have ends : RefusesOnly terminal := fun e sets err run => by
    unfold terminal at run
    split at run <;> cases run
  cases kind <;> first
    | exact ⟨_, rfl, passes⟩ | exact ⟨_, rfl, first⟩ | exact ⟨_, rfl, none⟩ | exact ⟨_, rfl, adds⟩
    | exact ⟨_, rfl, multiplies⟩ | exact ⟨_, rfl, lists⟩ | exact ⟨_, rfl, chooses⟩
    | exact ⟨_, rfl, ends⟩

theorem revisit_error {err : TransformError} (run : e.revisit rules = .error err) :
    ∃ x, err = .notMultilinear x := by
  have step {x : Expr} {values : List DependencySet} (run : x.ruled rules values = .error err) :
      ∃ x, err = .notMultilinear x := by
    obtain ⟨rule, found, refuses⟩ := rule_refuses x.kind
    rw [ruled_of_kind found] at run
    exact ⟨x, refuses x values err run⟩
  induction e with
  | terminal data => exact step run
  | node op operands shape free ih =>
      rw [Expr.revisit_eq] at run
      obtain failed | ⟨values, _, run⟩ := (except_bind_error _ _ _).mp run
      · obtain ⟨o, member, failed⟩ := mapM_error failed
        exact ih o member failed
      · exact step run
  | labelled label body ih =>
      obtain failed | ⟨value, _, run⟩ := (except_bind_error _ _ _).mp run
      · exact ih failed
      · exact step run

end

/-! The relation is what the rules say. -/

section

variable {D : DependencySet}

theorem all_empty (count : Nat) : (List.replicate count (∅ : DependencySet)).all isEmpty = true :=
  List.all_eq_true.mpr fun _ member => List.eq_of_mem_replicate member ▸ rfl

theorem Depends.revisits {e : Expr} (depends : Depends e D) : e.revisit rules = .ok D := by
  have all {operands : List Expr} {E : DependencySet}
      (each : ∀ o ∈ operands, o.revisit rules = .ok E) :
      List.Forall₂ (fun o v => o.revisit rules = .ok v) operands
        (List.replicate operands.length E) := by
    induction operands with
    | nil => exact .nil
    | cons o rest ih =>
        obtain ⟨first, others⟩ := List.forall_mem_cons.mp each
        exact .cons first (ih others)
  induction depends with
  | argument a =>
      exact Expr.revisit_ok.mpr ⟨[], .nil, ruled_terminal _⟩
  | @terminal data other =>
      refine Expr.revisit_ok.mpr ⟨[], .nil, (ruled_terminal data).trans ?_⟩
      unfold Dependency.terminal
      rw [other]
  | labelled _ ih =>
      exact Expr.revisit_ok.mpr ⟨[_], .cons ih .nil, ruled_labelled _ _⟩
  | linear kind _ _ ih ihs =>
      refine Expr.revisit_ok.mpr ⟨_ :: _, .cons ih (all ihs), ?_⟩
      rcases List.mem_append.mp kind with kind | kind
      · exact ruled_node (rule_linear kind)
      · exact (ruled_node (rule_linear_in_first kind)).trans (if_pos (all_empty _))
  | nonlinear kind _ ih =>
      exact Expr.revisit_ok.mpr
        ⟨_, all ih, (ruled_node (rule_nonlinear kind)).trans (if_pos (all_empty _))⟩
  | sum _ _ left right =>
      exact Expr.revisit_ok.mpr ⟨[_, _], .cons left (.cons right .nil),
        (ruled_node rfl).trans (sum_two _ _)⟩
  | product kind _ _ combined left right =>
      refine Expr.revisit_ok.mpr ⟨[_, _], .cons left (.cons right .nil),
        (ruled_node (rule_product kind)).trans ?_⟩
      rw [product_two, combined]
  | @listTensor entries shape free D nonempty _ ih =>
      refine Expr.revisit_ok.mpr ⟨_, all ih, (ruled_node rfl).trans ?_⟩
      obtain ⟨entry, rest, rfl⟩ := List.exists_cons_of_ne_nil nonempty
      refine if_pos (List.all_eq_true.mpr fun E member => ?_)
      rw [List.eq_of_mem_replicate (List.mem_of_mem_drop member)]
      exact beq_self_eq_true D
  | conditional _ _ _ test left right =>
      refine Expr.revisit_ok.mpr ⟨[_, _, _], .cons test (.cons left (.cons right .nil)),
        (ruled_node rfl).trans (if_pos ?_)⟩
      exact Bool.and_eq_true_iff.mpr ⟨rfl, beq_self_eq_true _⟩

variable {op : Operator} {a b : Expr} {operands rest : List Expr} {shape : Shape} {free : FreeIndices}
  {sets : List DependencySet} {A : DependencySet}

theorem depends_linear (kind : op.kind ∈ linearKinds) (first : Depends a A)
    (others : ∀ o ∈ rest, Depends o ∅)
    (run : (Expr.node op (a :: rest) shape free).ruled rules (A :: sets) = .ok D) :
    Depends (.node op (a :: rest) shape free) D := by
  rw [ruled_node (rule_linear kind)] at run
  cases run
  exact .linear (List.mem_append_left _ kind) first others

theorem depends_linear_in_first (kind : op.kind ∈ linearInFirstKinds)
    (pairs : List.Forall₂ Depends (a :: rest) sets)
    (run : (Expr.node op (a :: rest) shape free).ruled rules sets = .ok D) :
    Depends (.node op (a :: rest) shape free) D := by
  rw [ruled_node (rule_linear_in_first kind)] at run
  cases pairs with
  | @cons _ A _ sets first others =>
      unfold linearInFirst at run
      split at run
      · rename_i empty
        cases run
        refine .linear (List.mem_append_right _ kind) first fun o member => ?_
        obtain ⟨E, pair⟩ := partner_right others.length_eq member
        have none := List.all_eq_true.mp empty E (List.of_mem_zip pair).2
        exact eq_empty none ▸ List.forall₂_zip others pair
      · cases run

theorem depends_nonlinear (kind : op.kind ∈ nonlinearKinds)
    (pairs : List.Forall₂ Depends operands sets)
    (run : (Expr.node op operands shape free).ruled rules sets = .ok D) :
    Depends (.node op operands shape free) D := by
  rw [ruled_node (rule_nonlinear kind)] at run
  unfold nonlinear at run
  split at run
  · rename_i empty
    cases run
    refine .nonlinear kind fun o member => ?_
    obtain ⟨E, pair⟩ := partner_right pairs.length_eq member
    have none := List.all_eq_true.mp empty E (List.of_mem_zip pair).2
    exact eq_empty none ▸ List.forall₂_zip pairs pair
  · cases run

theorem depends_product (kind : op.kind ∈ productKinds) (pairs : List.Forall₂ Depends [a, b] sets)
    (run : (Expr.node op [a, b] shape free).ruled rules sets = .ok D) :
    Depends (.node op [a, b] shape free) D := by
  obtain ⟨A, B, rfl, left, right⟩ := pairs_two pairs
  rw [ruled_node (rule_product kind), product_two] at run
  split at run
  · rename_i combined
    cases run
    exact .product kind left right combined
  · cases run

theorem depends_list_tensor (nonempty : operands ≠ []) (pairs : List.Forall₂ Depends operands sets)
    (run : (Expr.node .listTensor operands shape free).ruled rules sets = .ok D) :
    Depends (.node .listTensor operands shape free) D := by
  rw [ruled_node rfl] at run
  unfold listTensor at run
  dsimp only at run
  split at run
  · rename_i same
    cases run
    refine .listTensor nonempty fun entry member => ?_
    cases pairs with
    | nil => cases member
    | @cons _ A _ sets first others =>
        rcases List.mem_cons.mp member with rfl | member
        · exact first
        · obtain ⟨E, pair⟩ := partner_right others.length_eq member
          have equal : E = A := eq_of_beq (List.all_eq_true.mp same E (List.of_mem_zip pair).2)
          exact equal ▸ List.forall₂_zip others pair
  · cases run

theorem depends_conditional {test : Expr} (pairs : List.Forall₂ Depends [test, a, b] sets)
    (run : (Expr.node .conditional [test, a, b] shape free).ruled rules sets = .ok D) :
    Depends (.node .conditional [test, a, b] shape free) D := by
  obtain ⟨T, A, B, rfl, condition, left, right⟩ := pairs_three pairs
  rw [ruled_node rfl] at run
  unfold Dependency.conditional at run
  dsimp only at run
  split at run
  · rename_i same
    cases run
    obtain ⟨empty, same⟩ := Bool.and_eq_true_iff.mp same
    exact .conditional (eq_empty empty ▸ condition) left (eq_of_beq same ▸ right)
  · cases run

/-- The dependencies of a node, from those of its operands. -/
theorem depends_node (types : op.Types operands shape free) (pairs : List.Forall₂ Depends operands sets)
    (run : (Expr.node op operands shape free).ruled rules sets = .ok D) :
    Depends (.node op operands shape free) D := by
  have subscripts (items : List IndexItem) : ∀ o ∈ [Expr.multiIndex items], Depends o ∅ :=
    List.forall_mem_singleton.mpr (.terminal rfl)
  cases types with
  | sum =>
      obtain ⟨A, B, rfl, left, right⟩ := pairs_two pairs
      rw [ruled_node rfl, sum_two] at run
      cases run
      exact .sum left right
  | product | inner | outer | dot | cross => exact depends_product (by decide) pairs run
  | division | indexed | spatialDerivative | variableDerivative =>
      exact depends_linear_in_first (by decide) pairs run
  | indexSum | componentTensor =>
      obtain ⟨A, B, rfl, first, _⟩ := pairs_two pairs
      exact depends_linear (by decide) first (subscripts _) run
  | grad | div | curl | rot | restricted | transposed | trace | skew =>
      obtain ⟨A, rfl, first⟩ := pairs_one pairs
      exact depends_linear (by simp [linearKinds, Operator.kind]) first nofun run
  | power | sqrt | condition | determinant | inverse | cofactor | deviatoric =>
      exact depends_nonlinear (by simp [nonlinearKinds, Operator.kind]) pairs run
  | listTensor some => exact depends_list_tensor some pairs run
  | conditional => exact depends_conditional pairs run

theorem Depends.of_revisit {e : Expr} (typed : e.WellTyped) (run : e.revisit rules = .ok D) :
    Depends e D := by
  induction e generalizing D with
  | terminal data =>
      rw [Expr.revisit, ruled_terminal, Dependency.terminal] at run
      cases data with
      | argument a =>
          cases run
          exact .argument a
      | _ =>
          cases run
          exact .terminal rfl
  | node op operands shape free ih =>
      obtain ⟨sets, pairs, run⟩ := Expr.revisit_ok.mp run
      cases typed with
      | node types below =>
          exact depends_node types (pairs_imp pairs fun o member E => ih o member (below o member)) run
  | labelled label body ih =>
      obtain ⟨sets, pairs, run⟩ := Expr.revisit_ok.mp run
      obtain ⟨E, rfl, first⟩ := pairs_one pairs
      rw [ruled_labelled] at run
      cases run
      exact .labelled (ih (typed.operand List.mem_cons_self) first)

/-- What the analysis answers for a well typed expression. -/
theorem dependencies_ok {e : Expr} (typed : e.WellTyped) (consistent : e.Consistent) :
    e.dependencies = .ok D ↔ Depends e D := by
  show e.transform rules = .ok D ↔ _
  rw [Expr.transform_revisits consistent]
  exact ⟨.of_revisit typed, Depends.revisits⟩

/-- An expression that has no dependencies is refused, and the analysis fails in no other way. -/
theorem dependencies_refused {e : Expr} (typed : e.WellTyped) (consistent : e.Consistent)
    (none : ∀ D, ¬ Depends e D) : ∃ x, e.dependencies = .error (.notMultilinear x) := by
  have revisits : e.dependencies = e.revisit rules := Expr.transform_revisits consistent
  cases run : e.revisit rules with
  | ok D => exact absurd (.of_revisit typed run) (none D)
  | error err =>
      obtain ⟨x, rfl⟩ := revisit_error run
      exact ⟨x, revisits.trans run⟩

/-- No term is without an argument. -/
theorem Depends.own {e : Expr} (depends : Depends e D) : ∀ t ∈ D, ∃ a, a ∈ t := by
  induction depends with
  | argument a =>
      intro t member
      obtain rfl := mem_single.mp member
      exact ⟨a, mem_single.mpr rfl⟩
  | terminal | nonlinear => exact fun t member => absurd member (not_mem_empty t)
  | labelled _ ih | linear _ _ _ ih | conditional _ _ _ _ ih => exact ih
  | sum _ _ left right => exact fun t member => (mem_union.mp member).elim (left t) (right t)
  | product _ _ _ run left right =>
      intro t member
      obtain ⟨_, here⟩ | ⟨_, here⟩ | ⟨s, here, _, _, rfl⟩ := (DependencySet.mem_combine run).mp member
      · exact right t here
      · exact left t here
      · obtain ⟨a, inside⟩ := left s here
        exact ⟨a, mem_union.mpr (.inl inside)⟩
  | listTensor nonempty _ ih =>
      obtain ⟨entry, member⟩ := List.exists_mem_of_ne_nil _ nonempty
      exact ih entry member

theorem Depends.unique {e : Expr} {D' : DependencySet} (depends : Depends e D)
    (depends' : Depends e D') : D = D' :=
  Except.ok.inj (depends.revisits.symm.trans depends'.revisits)

end

/-! Two arguments, the integrand of a mass matrix, and a square. -/

def testArgument : Argument := ⟨0, none, .scalar 2⟩

def trialArgument : Argument := ⟨1, none, .scalar 2⟩

def mass : Expr :=
  .node .product [.terminal (.argument testArgument), .terminal (.argument trialArgument)] [] ∅

def testSquare : Expr :=
  .node .product [.terminal (.argument testArgument), .terminal (.argument testArgument)] [] ∅

theorem test_square_constructible : testSquare.Constructible := by
  have factors := Expr.operands_pair (.terminal (.argument testArgument))
    (Expr.Constructible.terminal (.argument testArgument))
  exact .assemble .product (by decide) factors rfl

theorem mass_constructible : mass.Constructible := by
  have factors := Expr.operands_pair (.terminal (.argument testArgument))
    (Expr.Constructible.terminal (.argument trialArgument))
  exact .assemble .product (by decide) factors rfl

theorem mass_consistent : mass.Consistent :=
  Expr.consistent_of_unlabelled (Expr.unlabelled_of_operands (by decide)
    (Expr.operands_pair (Expr.unlabelled_terminal _) (Expr.unlabelled_terminal _)))

theorem mass_dependencies :
    mass.dependencies = .ok (.single (.ofList [testArgument, trialArgument])) :=
  (dependencies_ok mass_constructible.well_typed mass_consistent).mpr
    (.product (by decide) (.argument _) (.argument _) rfl)

end FormCalculus
