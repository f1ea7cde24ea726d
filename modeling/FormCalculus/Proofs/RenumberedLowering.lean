import FormCalculus.Proofs.ExpandingStripped
import FormCalculus.Proofs.LoweringRules
import FormCalculus.Proofs.RenumberedFormulas

/-!
Lowering from two supplies. The two runs visit the same nodes, and what they make of a node is
renumbered, whatever the supplies have handed out before.
-/
set_option autoImplicit false

namespace FormCalculus

open FormCalculus.Expr

/-! Two runs of a pass, with the values in their memos related. -/

section Pass

variable {α : Type} (R : α → α → Prop) (T : Supply → Supply → Prop)

/-- Both memos have values for the same expressions, and the values are related. -/
def Memos (memo memo' : Memo α) : Prop := ∀ x : Expr, Option.Rel R memo[x]? memo'[x]?

variable {R T} {rules : Rules (Fresh TransformError) α} {memo memo' : Memo α} {x : Expr}

theorem Memos.empty : Memos R (∅ : Memo α) ∅ := fun x => by simp

theorem Memos.insert (memos : Memos R memo memo') {v v' : α} (related : R v v') :
    Memos R (memo.insert x v) (memo'.insert x v') := by
  intro y
  rw [Std.HashMap.getElem?_insert, Std.HashMap.getElem?_insert]
  split
  · exact .some related
  · exact memos y

/-- Two steps of a pass agree, from any related memos and supplies on. -/
def PassAgree (T : Supply → Supply → Prop) (R : α → α → Prop) {β : Type} (S : β → β → Prop)
    (act act' : StateT (Memo α) (Fresh TransformError) β) : Prop :=
  ∀ memo memo', Memos R memo memo' →
    FreshAgree T (fun r r' => S r.1 r'.1 ∧ Memos R r.2 r'.2) (act memo) (act' memo')

theorem PassAgree.pure {β : Type} {S : β → β → Prop} {b b' : β} (related : S b b') :
    PassAgree T R S (Pure.pure b) (Pure.pure b') :=
  fun _ _ memos => .pure ⟨related, memos⟩

theorem PassAgree.bind {β γ : Type} {S : β → β → Prop} {P : γ → γ → Prop}
    {act act' : StateT (Memo α) (Fresh TransformError) β}
    {next next' : β → StateT (Memo α) (Fresh TransformError) γ} (agree : PassAgree T R S act act')
    (others : ∀ b b', S b b' → PassAgree T R P (next b) (next' b')) :
    PassAgree T R P (act >>= next) (act' >>= next') :=
  fun memo memo' memos => (agree memo memo' memos).bind fun _ _ related =>
    others _ _ related.1 _ _ related.2

theorem memoized_agrees {act act' : StateT (Memo α) (Fresh TransformError) α}
    (agree : PassAgree T R R act act') : PassAgree T R R (memoized x act) (memoized x act') := by
  intro memo memo' memos
  unfold memoized
  have found := memos x
  generalize memo[x]? = known, memo'[x]? = known' at found ⊢
  cases found with
  | some related => exact .pure ⟨related, memos⟩
  | none =>
      exact (agree memo memo' memos).bind fun _ _ related =>
        .pure ⟨related.1, related.2.insert related.1⟩

theorem apply_rule_agrees {values values' : List α}
    (each : ∀ rule, rules.rule? x.kind = some rule → FreshAgree T R (rule x values) (rule x values')) :
    PassAgree T R R (applyRule rules x values) (applyRule rules x values') := by
  intro memo memo' memos
  unfold applyRule
  cases known : rules.rule? x.kind with
  | none => exact .throw _ _
  | some rule => exact (each rule known).bind fun _ _ related => .pure ⟨related, memos⟩

theorem transform_all_agrees {operands : List Expr}
    (each : ∀ o ∈ operands, PassAgree T R R (transformIn rules o) (transformIn rules o)) :
    PassAgree T R (fun values values' => values.length = operands.length ∧ List.Forall₂ R values values')
      (transformAll rules operands) (transformAll rules operands) := by
  induction operands with
  | nil => exact .pure ⟨rfl, .nil⟩
  | cons o rest ih =>
      obtain ⟨first, others⟩ := List.forall_mem_cons.mp each
      rw [transformAll]
      exact first.bind fun _ _ head => (ih others).bind fun _ _ tail =>
        .pure ⟨congrArg Nat.succ tail.1, .cons head tail.2⟩

/-- The rules agree on related values of the operands. -/
def RulesAgree (T : Supply → Supply → Prop) (R : α → α → Prop)
    (rules : Rules (Fresh TransformError) α) (e : Expr) : Prop :=
  ∀ x rule values values', Within x e → rules.rule? x.kind = some rule →
    values.length = x.operands.length → List.Forall₂ R values values' →
      FreshAgree T R (rule x values) (rule x values')

theorem transform_in_agrees {e : Expr} (agree : RulesAgree T R rules e) (inside : Within x e) :
    PassAgree T R R (transformIn rules x) (transformIn rules x) := by
  induction x with
  | terminal data =>
      rw [transformIn]
      exact memoized_agrees (apply_rule_agrees fun rule found => agree _ rule [] [] inside found rfl .nil)
  | labelled label body ih =>
      have below : Within body (.labelled label body) := .operand List.mem_cons_self
      rw [transformIn]
      refine memoized_agrees ((ih (below.trans inside)).bind fun v v' related => ?_)
      exact apply_rule_agrees fun rule found =>
        agree _ rule [v] [v'] inside found rfl (.cons related .nil)
  | node op operands shape free ih =>
      rw [transformIn]
      refine memoized_agrees ((transform_all_agrees fun o member => ?_).bind
        fun values values' results => ?_)
      · exact ih o member ((Within.operand (e := .node op operands shape free) member).trans inside)
      · exact apply_rule_agrees fun rule found => 
          agree _ rule values values' inside found results.1 results.2

theorem transform_agrees {e : Expr} (agree : RulesAgree T R rules e) :
    FreshAgree T R (transform rules e) (transform rules e) :=
  (transform_in_agrees agree (.refl e) ∅ ∅ .empty).bind fun _ _ related => .pure related.1

end Pass

namespace Twins

variable {ρ : Renumbering} {g : Nat} {a a' b b' : Expr}

section Lowering

theorem lower_transposed (twins : Twins ρ g a a') :
    FreshAgree ρ.Follows (Twins ρ g) a.lowerTransposed a'.lowerTransposed := by
  unfold lowerTransposed
  refine ρ.with_index fun i => ρ.with_index fun j => ?_
  refine (FreshAgree.lift (twins.index_by [i, j])).bind fun _ _ component => ?_
  exact .lift (component.as_tensor [j, i])

theorem lower_trace (twins : Twins ρ g a a') :
    FreshAgree ρ.Follows (Twins ρ g) a.lowerTrace a'.lowerTrace := by
  unfold lowerTrace
  exact ρ.with_index fun i => .lift (twins.index_by [i, i])

theorem derivative_along (twins : Twins ρ g a a') (item : IndexItem) :
    Agree (Twins ρ g) (a.derivativeAlong item) (a'.derivativeAlong (ρ.item item)) := by
  unfold derivativeAlong
  refine (twins.spatial_derivative [item]).bind fun _ _ derivative => ?_
  cases item with
  | fixed => exact .pure derivative
  | free i =>
      refine .ite ?_ (derivative.index_sum i) (.pure derivative)
      rw [twins.renumbered.free_eq, Renumbering.free_contains]

theorem lower_divergence (twins : Twins ρ g a a') :
    FreshAgree ρ.Follows (Twins ρ g) a.lowerDivergence a'.lowerDivergence := by
  unfold lowerDivergence
  rw [twins.renumbered.rank_eq]
  refine ρ.with_indices _ fun indices => ρ.with_index fun i => ?_
  rw [← List.map_singleton, ← List.map_append]
  refine (FreshAgree.lift (twins.index_by _)).bind fun _ _ component => ?_
  refine (FreshAgree.lift (component.derivative_along (.free i))).bind fun _ _ derivative => ?_
  exact .lift (derivative.as_tensor _)

theorem cross_derivative (twins : Twins ρ g a a') (component direction : Nat) :
    Agree (Twins ρ g) (a.crossDerivative component direction) (a'.crossDerivative component direction) :=
  (twins.component [component]).bind fun _ _ scalar => scalar.derivative_along (.fixed direction)

variable [F : Folding] (complete : F.Complete)

include complete

theorem rotation (twins : Twins ρ g a a') (i j : Nat) :
    Agree (Twins ρ g) (a.rotation i j) (a'.rotation i j) :=
  (twins.cross_derivative j i).bind fun _ _ first => (twins.cross_derivative i j).bind
    fun _ _ second => scalar_sub complete first second

theorem lower_inner (left : Twins ρ g a a') (right : Twins ρ g b b') :
    FreshAgree ρ.Follows (Twins ρ g) (a.lowerInner b) (a'.lowerInner b') := by
  unfold lowerInner
  rw [left.renumbered.rank_eq]
  refine ρ.with_indices _ fun indices => ?_
  refine (FreshAgree.lift (left.index_by indices)).bind fun _ _ first => ?_
  refine (FreshAgree.lift (right.index_by indices)).bind fun _ _ second => ?_
  exact .lift (contracted_product complete first second)

theorem lower_outer (left : Twins ρ g a a') (right : Twins ρ g b b') :
    FreshAgree ρ.Follows (Twins ρ g) (a.lowerOuter b) (a'.lowerOuter b') := by
  unfold lowerOuter
  rw [left.renumbered.rank_eq, right.renumbered.rank_eq]
  refine ρ.with_indices _ fun rows => ρ.with_indices _ fun columns => ?_
  refine (FreshAgree.lift (left.index_by rows)).bind fun _ _ first => ?_
  refine (FreshAgree.lift (right.index_by columns)).bind fun _ _ second => ?_
  refine (FreshAgree.lift (contracted_product complete first second)).bind fun _ _ product => ?_
  rw [← List.map_append]
  exact .lift (product.as_tensor _)

theorem lower_skew (twins : Twins ρ g a a') :
    FreshAgree ρ.Follows (Twins ρ g) a.lowerSkew a'.lowerSkew := by
  unfold lowerSkew
  refine ρ.with_index fun i => ρ.with_index fun j => ?_
  refine (FreshAgree.lift (twins.index_by [i, j])).bind fun _ _ component => ?_
  refine (FreshAgree.lift (twins.index_by [j, i])).bind fun _ _ mirrored => ?_
  refine (FreshAgree.lift (scalar_sub complete component mirrored)).bind fun _ _ difference => ?_
  refine (FreshAgree.lift (scalar_quotient complete difference (.int 2))).bind fun _ _ half => ?_
  exact .lift (half.as_tensor [i, j])

theorem lower_curl (twins : Twins ρ g a a') : Agree (Twins ρ g) a.lowerCurl a'.lowerCurl := by
  unfold lowerCurl
  rw [twins.renumbered.shape_eq]
  split
  · refine (twins.derivative_along (.fixed 1)).bind fun _ _ first => ?_
    refine (twins.derivative_along (.fixed 0)).bind fun _ _ second => ?_
    refine (scalar_neg complete second).bind fun _ _ negated => ?_
    exact vector (.cons first (.cons negated .nil))
  · exact rotation complete twins 0 1
  · refine (rotation complete twins 1 2).bind fun _ _ first => ?_
    refine (rotation complete twins 2 0).bind fun _ _ second => ?_
    refine (rotation complete twins 0 1).bind fun _ _ third => ?_
    exact vector (.cons first (.cons second (.cons third .nil)))
  · exact .error

end Lowering

end Twins

/-! The rules of lowering on two versions of the operands of a node. -/

section Rules

variable {ρ : Renumbering} {g : Nat}

theorem Renumbering.free_fixed {set : FreeIndices} (ρ : Renumbering)
    (fixed : ∀ i, set.contains i = true → ρ.index i = i) : ρ.free set = set := by
  obtain ⟨entries, increasing⟩ := set
  refine (FreeIndices.mk.injEq ..).mpr ((List.map_congr_left fun e member => ?_).trans (List.map_id _))
  have known := (FreeIndices.mem_entries_iff ⟨entries, increasing⟩ e.1 e.2).mp member
  exact Prod.ext (fixed e.1 (FreeIndices.contains_iff.mpr ⟨_, known⟩)) rfl

theorem Renumbering.items_fixed {items : List IndexItem} (ρ : Renumbering)
    (fixed : ∀ i, .free i ∈ items → ρ.index i = i) : items.map ρ.item = items := by
  refine (List.map_congr_left fun item member => ?_).trans (List.map_id _)
  cases item with
  | fixed => rfl
  | free i => exact congrArg IndexItem.free (fixed i member)

/-- A terminal whose indices keep their numbers. -/
theorem Twins.terminal {data : Terminal}
    (fixed : ∀ i, Mentions i (.terminal data) → ρ.index i = i)
    (lives : ∀ d, data.gdim? = some d → d = g) : Twins ρ g (.terminal data) (.terminal data) := by
  refine ⟨?_, .terminal _, .terminal _⟩
  cases data with
  | zero shape free =>
      have same : ρ.free free = free := ρ.free_fixed fun i known => fixed i (.inl known)
      have renumbered : Renumbered ρ g (zeros shape free) (zeros shape (ρ.free free)) := .zeros shape free
      rwa [same] at renumbered
  | multiIndex items =>
      have same : items.map ρ.item = items :=
        ρ.items_fixed fun i member => fixed i (.inr ⟨items, rfl, member⟩)
      have renumbered : Renumbered ρ g (multiIndex items) (multiIndex (items.map ρ.item)) := .items items
      rwa [same] at renumbered
  | _ => exact .terminal nofun nofun lives

variable [F : Folding] (complete : F.Complete) {op : Operator} {operands values values' : List Expr}
  {shape : Shape} {free : FreeIndices}

include complete

/-- To reuse a node where its operands have not changed is to make it again. -/
theorem reuse_complete (formed : Formed (.node op operands shape free))
    (simple : op.kind.isCompound = false) (plain : ∀ v ∈ values, Unlabelled v)
    (length : values.length = operands.length) :
    (Expr.node op operands shape free).reuse values =
      Fresh.mapError TransformError.build (liftM (op.assemble values)) := by
  unfold reuse reuseOr
  split
  · rename_i same
    rw [has_operands_eq plain same]
    show _ = Fresh.mapError _ (liftM (op.assemble operands))
    rw [assemble_again complete formed]
    rfl
  · have built : op.build values = liftM (op.assemble values) := by
      unfold Operator.build
      split <;> first | rfl | cases simple
    unfold reconstruct
    show Fresh.mapError _ (if values.length ≠ operands.length then _ else op.build values) = _
    rw [if_neg (not_not.mpr length), built]

theorem Twins.assemble (types : op.Types operands shape free) (simple : op.kind.isCompound = false)
    (other : op ≠ .grad) (length : values.length = operands.length)
    (pairs : List.Forall₂ (Twins ρ g) values values') :
    Agree (Twins ρ g) (op.assemble values) (op.assemble values') := by
  have spreads : op ∉ [.inner, .outer, .dot] := by
    cases op <;> first | (cases simple; done) | simp
  refine Twins.of_refolded (Renumbered.assemble types simple other length (Twins.pairs pairs))
    (assemble_refolded complete .eager op values) (assemble_refolded complete .eager op values')
    (fun _ => Twins.made_assembled op spreads fun o member => ?_)
    fun _ => Twins.made_assembled op spreads fun o member => ?_
  · obtain ⟨_, _, both⟩ := pairs_member pairs.flip member
    exact both.formed
  · obtain ⟨_, _, both⟩ := pairs_member pairs member
    exact both.formed'

/-- What a compound operator is lowered to, over two versions of its operands. -/
theorem Twins.compound {x : Expr} {rule : LoweringRule} (types : op.Types operands shape free)
    (compound : op.kind.isCompound = true) (found : Lowering.rules.rule? op.kind = some rule)
    (length : values.length = operands.length) (pairs : List.Forall₂ (Twins ρ g) values values') :
    FreshAgree ρ.Follows (Twins ρ g) (rule x values) (rule x values') := by
  cases types with
  | transposed =>
      cases found
      obtain ⟨a, a', rfl, rfl, twins⟩ := pairs_of_one pairs length
      exact twins.lower_transposed.mapError _ _
  | inner =>
      cases found
      obtain ⟨a, b, a', b', rfl, rfl, left, right⟩ := pairs_of_two pairs length
      exact (left.lower_inner complete right).mapError _ _
  | outer =>
      cases found
      obtain ⟨a, b, a', b', rfl, rfl, left, right⟩ := pairs_of_two pairs length
      exact (left.lower_outer complete right).mapError _ _
  | dot =>
      cases found
      obtain ⟨a, b, a', b', rfl, rfl, left, right⟩ := pairs_of_two pairs length
      exact (left.contract complete right).mapError _ _
  | cross =>
      cases found
      obtain ⟨a, b, a', b', rfl, rfl, left, right⟩ := pairs_of_two pairs length
      exact .mapError _ _ (.lift (left.cross_formula complete right))
  | trace =>
      cases found
      obtain ⟨a, a', rfl, rfl, twins⟩ := pairs_of_one pairs length
      exact twins.lower_trace.mapError _ _
  | skew =>
      cases found
      obtain ⟨a, a', rfl, rfl, twins⟩ := pairs_of_one pairs length
      exact (twins.lower_skew complete).mapError _ _
  | determinant =>
      cases found
      obtain ⟨a, a', rfl, rfl, twins⟩ := pairs_of_one pairs length
      exact (twins.determinant_formula complete).mapError _ _
  | inverse =>
      cases found
      obtain ⟨a, a', rfl, rfl, twins⟩ := pairs_of_one pairs length
      exact (twins.inverse_formula complete).mapError _ _
  | cofactor =>
      cases found
      obtain ⟨a, a', rfl, rfl, twins⟩ := pairs_of_one pairs length
      exact .mapError _ _ (.lift (twins.cofactor_formula complete))
  | deviatoric =>
      cases found
      obtain ⟨a, a', rfl, rfl, twins⟩ := pairs_of_one pairs length
      exact .mapError _ _ (.lift (twins.deviatoric_formula complete))
  | div =>
      cases found
      obtain ⟨a, a', rfl, rfl, twins⟩ := pairs_of_one pairs length
      exact twins.lower_divergence.mapError _ _
  | curl =>
      cases found
      obtain ⟨a, a', rfl, rfl, twins⟩ := pairs_of_one pairs length
      exact .mapError _ _ (.lift (twins.lower_curl complete))
  | rot =>
      cases found
      obtain ⟨a, a', rfl, rfl, twins⟩ := pairs_of_one pairs length
      exact .mapError _ _ (.lift (twins.lower_curl complete))
  | _ => cases compound

/-- Lowering an expression whose indices keep their numbers, from two supplies that are renumbered into
each other. -/
theorem lower_twins {e : Expr} (formed : Formed e) (plain : Unlabelled e)
    (gradless : ∀ x, Within x e → x.kind ≠ .grad) (domain : OnDomain g e)
    (fixed : ∀ x i, Within x e → Mentions i x → ρ.index i = i) :
    FreshAgree ρ.Follows (Twins ρ g) e.lower e.lower := by
  refine transform_agrees fun x rule values values' inside found length pairs => ?_
  have formed := formed.within inside
  cases kind : x.kind.isCompound with
  | false =>
      -- The node is reused, and that is to make it again of what its operands have become.
      rw [Lowering.rule_of_simple kind] at found
      cases found
      cases x with
      | terminal data =>
          obtain rfl := List.eq_nil_of_length_eq_zero length
          obtain rfl := List.forall₂_nil_left_iff.mp pairs
          exact .pure (.terminal (fun i => fixed _ i inside) (domain data inside))
      | labelled => exact absurd rfl (plain _ inside)
      | node op operands shape free =>
          obtain _ | ⟨types, _⟩ := formed.well_typed
          have other : op ≠ .grad := fun same => gradless _ inside (same ▸ rfl)
          rw [reuse_complete complete formed kind (fun v member => ?_) length,
            reuse_complete complete formed kind (fun v member => ?_)
              (pairs.length_eq.symm.trans length)]
          · exact .mapError _ _ (.lift (Twins.assemble complete types kind other length pairs))
          · obtain ⟨_, _, both⟩ := pairs_member pairs member
            exact both.renumbered.unlabelled.2
          · obtain ⟨_, _, both⟩ := pairs_member pairs.flip member
            exact both.renumbered.unlabelled.1
  | true =>
      cases x with
      | terminal data => cases data <;> cases kind
      | labelled => cases kind
      | node op operands shape free =>
          obtain _ | ⟨types, _⟩ := formed.well_typed
          exact Twins.compound complete types kind found length pairs

end Rules

end FormCalculus
