import FormCalculus.Expansion
import FormCalculus.Proofs.Agreeing
import FormCalculus.Proofs.Commuting
import FormCalculus.Proofs.Making

/-!
Folding in which sums and products of constants do not depend on their order. It folds what eager
folding does, so that the same nodes are made, and differs in the constants alone.
-/
set_option autoImplicit false

namespace FormCalculus

open FormCalculus.Expr

instance (op : Constant.Operation) : Decidable op.Commutes :=
  match op with
  | .addition | .multiplication => .isTrue trivial
  | .division | .exponentiation => .isFalse id

namespace Folding

/-- Every two constants are folded, and roots are those of eager folding. -/
structure Complete (F : Folding) : Prop where
  fold : ∀ op a b, ∃ c, F.fold? op a b = some c
  root : F.root? = Constant.root?

/-- Sums and products of constants do not depend on their order. -/
def Symmetric (F : Folding) : Prop :=
  ∀ op, op.Commutes → ∀ a b, F.fold? op a b = F.fold? op b a

/-- Eager folding, but for sums and products that depend on the order of the constants: they are the
NaN of an invalid operation. -/
@[reducible] def symmetric : Folding where
  fold? op a b := some <|
    if op.Commutes ∧ op.apply a b ≠ op.apply b a then .real .invalid else op.apply a b
  root? := Constant.root?

/-- Every sum and product of constants that `run` folds is the same in either order: to fold those
that are not to something else changes nothing. -/
def FoldsInAnyOrder {α : Type} (run : Folding → α) : Prop := run symmetric = run eager

theorem Complete.eager : Folding.eager.Complete := ⟨fun _ _ _ => ⟨_, rfl⟩, rfl⟩

theorem Complete.symmetric : Folding.symmetric.Complete := ⟨fun _ _ _ => ⟨_, rfl⟩, rfl⟩

theorem symmetric_symmetric : symmetric.Symmetric := by
  intro op commutes a b
  show some (if _ then _ else _) = some (if _ then _ else _)
  by_cases same : op.apply a b = op.apply b a
  · simp [same]
  · simp [commutes, same, Ne.symm same]

/-- Two runs agree if they do where the order of constants does not matter. -/
theorem agree_in_any_order {ε α : Type} {run run' : Folding → Except ε α} (folds : FoldsInAnyOrder run)
    (folds' : FoldsInAnyOrder run') (agree : Agree Eq (run symmetric) (run' symmetric)) :
    Agree Eq (run eager) (run' eager) := by
  unfold FoldsInAnyOrder at folds folds'
  rwa [folds, folds'] at agree

end Folding

/-- The same expression, or two constants. -/
def Refolded (r r' : Expr) : Prop := r' = r ∨ ∃ c c' : Constant, r = c.toExpr ∧ r' = c'.toExpr

theorem assemble_without_folds {F G : Folding} {op : Operator} {operands : List Expr}
    (other : op ∉ [.sum, .product, .division, .power, .sqrt, .inverse]) :
    @Operator.assemble F op operands = @Operator.assemble G op operands := by
  rcases operands with _ | ⟨a, _ | ⟨b, _ | ⟨c, _ | _⟩⟩⟩ <;> cases op <;>
    first | rfl | simp at other

section

variable {F G : Folding} (left : F.Complete) (right : G.Complete) (a b : Expr)

include left right

theorem fold_refolded (op : Constant.Operation) :
    (@fold? F op a b = none ∧ @fold? G op a b = none) ∨
      ∃ c c' : Constant, @fold? F op a b = some c.toExpr ∧ @fold? G op a b = some c'.toExpr := by
  unfold fold?
  cases a.constant? with
  | none => exact .inl ⟨rfl, rfl⟩
  | some x =>
      cases b.constant? with
      | none => exact .inl ⟨rfl, rfl⟩
      | some y =>
          obtain ⟨c, folded⟩ := left.fold op x y
          obtain ⟨c', folded'⟩ := right.fold op x y
          refine .inr ⟨c, c', ?_, ?_⟩
          · simp [folded]
          · simp [folded']

theorem fold_or_refolded (op : Constant.Operation) {act act' : Except BuildError Expr}
    (other : Agree Refolded act act') :
    Agree Refolded
      (match @fold? F op a b with
        | some folded => pure folded
        | none => act)
      (match @fold? G op a b with
        | some folded => pure folded
        | none => act') := by
  obtain ⟨none, none'⟩ | ⟨c, c', some, some'⟩ := fold_refolded left right a b op
  · rw [none, none']
    exact other
  · rw [some, some']
    exact .pure (.inr ⟨c, c', rfl, rfl⟩)

theorem fold_root_refolded : @foldRoot? G a = @foldRoot? F a := by
  unfold foldRoot?
  rw [left.root, right.root]

theorem add_refolded : Agree Refolded (@add F a b) (@add G a b) := by
  unfold add
  refine (Agree.refl _).bind fun _ _ _ => ?_
  refine (Agree.refl _).bind fun _ _ _ => ?_
  refine .ite Iff.rfl (.pure (.inl rfl)) ?_
  refine .ite Iff.rfl (.pure (.inl rfl)) ?_
  exact fold_or_refolded left right a b .addition (.pure (.inl rfl))

theorem scalar_product_refolded : Agree Refolded (@scalarProduct F a b) (@scalarProduct G a b) := by
  unfold scalarProduct
  refine (Agree.refl _).bind fun _ _ _ => ?_
  refine (Agree.refl _).bind fun _ _ _ => ?_
  refine (Agree.refl _).bind fun free _ same => ?_
  subst same
  refine .ite Iff.rfl (.pure (.inl rfl)) ?_
  refine fold_or_refolded left right a b .multiplication ?_
  exact .ite Iff.rfl (.pure (.inl rfl)) (.ite Iff.rfl (.pure (.inl rfl)) (.pure (.inl rfl)))

theorem scalar_quotient_refolded :
    Agree Refolded (@scalarQuotient F a b) (@scalarQuotient G a b) := by
  unfold scalarQuotient
  refine (Agree.refl _).bind fun _ _ _ => ?_
  refine (Agree.refl _).bind fun _ _ _ => ?_
  refine .guard Iff.rfl ?_
  refine (Agree.refl _).bind fun free _ same => ?_
  subst same
  refine .ite Iff.rfl (.pure (.inl rfl)) ?_
  exact fold_or_refolded left right a b .division (.ite Iff.rfl (.pure (.inl rfl)) (.pure (.inl rfl)))

theorem pow_refolded : Agree Refolded (@pow F a b) (@pow G a b) := by
  unfold pow
  refine (Agree.refl _).bind fun _ _ _ => ?_
  refine (Agree.refl _).bind fun _ _ _ => ?_
  refine .guard Iff.rfl ?_
  refine .ite Iff.rfl (.pure (.inl rfl)) ?_
  exact fold_or_refolded left right a b .exponentiation (.pure (.inl rfl))

theorem sqrt_refolded : Agree Refolded (@sqrt F a) (@sqrt G a) := by
  unfold sqrt
  rw [fold_root_refolded left right]
  exact (Agree.refl _).mono fun _ _ same => .inl same.symm

/-- An operator makes the same node whichever way constants are folded. -/
theorem assemble_refolded (op : Operator) (operands : List Expr) :
    Agree Refolded (@Operator.assemble F op operands) (@Operator.assemble G op operands) := by
  cases op with
  | sum =>
      rcases operands with _ | ⟨a, _ | ⟨b, _ | _⟩⟩
      · exact .error
      · exact .error
      · exact add_refolded left right a b
      · exact .error
  | product =>
      rcases operands with _ | ⟨a, _ | ⟨b, _ | _⟩⟩
      · exact .error
      · exact .error
      · exact scalar_product_refolded left right a b
      · exact .error
  | division =>
      rcases operands with _ | ⟨a, _ | ⟨b, _ | _⟩⟩
      · exact .error
      · exact .error
      · exact scalar_quotient_refolded left right a b
      · exact .error
  | power =>
      rcases operands with _ | ⟨a, _ | ⟨b, _ | _⟩⟩
      · exact .error
      · exact .error
      · exact pow_refolded left right a b
      · exact .error
  | sqrt =>
      rcases operands with _ | ⟨a, _ | _⟩
      · exact .error
      · exact sqrt_refolded left right a
      · exact .error
  | inverse =>
      rcases operands with _ | ⟨a, _ | _⟩
      · exact .error
      · show Agree Refolded (@Expr.inverse F a) (@Expr.inverse G a)
        unfold Expr.inverse
        split
        · exact scalar_quotient_refolded left right one a
        · exact .ok (.inl rfl)
        · exact .error
      · exact .error
  | _ =>
      rw [@assemble_without_folds F G _ operands (by simp)]
      exact (Agree.refl _).mono fun _ _ same => .inl same.symm

end

/-- What is made under other folds is made under eager ones, or is a constant. -/
theorem made_of_refolded {ε : Type} {given : Expr → Prop} {act act' : Except ε Expr} {r : Expr}
    (agree : Agree Refolded act act') (made : ∀ r, act' = .ok r → Made given r)
    (run : act = .ok r) : Made given r := by
  cases agree with
  | error => cases run
  | ok refolded =>
      cases run
      obtain same | ⟨c, c', rfl, _⟩ := refolded
      · exact made _ (congrArg Except.ok same)
      · exact .folded c

section

variable [F : Folding] (complete : F.Complete) {op : Operator}

include complete

/-- An operator makes a node of its operands again. -/
theorem assemble_again {operands : List Expr} {shape : Shape} {free : FreeIndices}
    (formed : Formed (.node op operands shape free)) :
    op.assemble operands = .ok (.node op operands shape free) := by
  obtain _ | ⟨run, _⟩ := formed
  have agree := assemble_refolded .eager complete op operands
  rw [run] at agree
  generalize op.assemble operands = made at agree ⊢
  cases agree with
  | ok refolded =>
      obtain rfl | ⟨c, _, same, _⟩ := refolded
      · rfl
      · cases c <;> cases same

/-- For a node that its operator makes of its operands, to keep it where they have not changed is to
make it again. -/
theorem reassemble_complete {xs rs : List Expr} {shape : Shape} {free : FreeIndices}
    (formed : Formed (.node op xs shape free)) (plain : ∀ r ∈ rs, Unlabelled r) :
    (Expr.node op xs shape free).reassemble op rs =
      (op.assemble rs).mapError TransformError.build := by
  unfold reassemble reuseOr
  split
  · rename_i same
    rw [has_operands_eq plain same]
    show _ = (op.assemble xs).mapError _
    rw [assemble_again complete formed]
    rfl
  · rfl

theorem fold_none_of_complete {how : Constant.Operation} {a b : Expr} (none : fold? how a b = none) :
    a.constant? = .none ∨ b.constant? = .none := by
  obtain ⟨_, eager⟩ | ⟨_, _, some, _⟩ := fold_refolded complete .eager a b how
  · exact fold_none_iff.mp eager
  · cases none.symm.trans some

/-- The order of the operands of a sum or product does not matter to it. -/
theorem assemble_in_any_order (symmetric : F.Symmetric) {vs ws : List Expr}
    (reordered : Reordered op vs ws) (plain : ∀ v ∈ vs, Unlabelled v) (r : Expr) :
    op.assemble vs = .ok r ↔ op.assemble ws = .ok r := by
  have folds (how : Constant.Operation) (commutes : how.Commutes) (a b : Expr) :
      fold? how a b = fold? how b a := by
    unfold fold?
    cases a.constant? with
    | none => cases b.constant? <;> rfl
    | some x =>
        cases b.constant? with
        | none => rfl
        | some y => exact congrArg (· >>= fun c => some c.toExpr) (symmetric how commutes x y)
  -- Ones are constants, so two of them would have been folded.
  have units (a b : Expr) (none : fold? .multiplication a b = none) :
      a.isOne = false ∨ b.isOne = false :=
    (fold_none_of_complete complete none).imp (by simp +contextual [isOne])
      (by simp +contextual [isOne])
  obtain rfl | ⟨commutes, a, b, rfl, rfl⟩ := reordered
  · exact Iff.rfl
  · obtain ⟨left, right⟩ := List.forall_mem_cons.mp plain
    have right := right b List.mem_cons_self
    rcases commutes with rfl | rfl
    · exact ⟨add_swap left (folds .addition trivial a b),
        add_swap right (folds .addition trivial b a)⟩
    · exact ⟨scalar_product_swap left (folds .multiplication trivial a b) (units a b),
        scalar_product_swap right (folds .multiplication trivial b a) (units b a)⟩

end

end FormCalculus
