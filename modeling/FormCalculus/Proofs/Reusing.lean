import FormCalculus.Proofs.LoweringKinds
import FormCalculus.Proofs.Retracing
import FormCalculus.Proofs.Standing

/-!
Reusing expressions against rebuilding them. An expression is kept when its operands seem to be as
before, and so they seem to be where just the body of a label further down is another one: reusing
drops that change. On everything else the two passes agree.
-/
set_option autoImplicit false

namespace FormCalculus

namespace Rules

/-- The rules that make every expression again from its operands. -/
def rebuilding : Rules (Fresh TransformError) Expr :=
  Rules.empty.onEach Kind.all fun e operands => (e.reconstruct operands).mapError .build

variable {m : Type → Type} {α : Type}

/-- The rules with the handlers in their place, for the kinds that have one. -/
def overridden (rules handlers : Rules m α) : Rules m α :=
  ⟨fun kind => (handlers.rule? kind).or (rules.rule? kind)⟩

variable {rules handlers : Rules m α} {kind : Kind}

theorem overridden_handled {rule : Rule m α} (handled : handlers.rule? kind = some rule) :
    (rules.overridden handlers).rule? kind = some rule := by
  simp [overridden, handled]

theorem overridden_other (other : handlers.rule? kind = none) :
    (rules.overridden handlers).rule? kind = rules.rule? kind := by
  simp [overridden, other]

theorem reusing_rule (kind : Kind) : reusing.rule? kind = some Expr.reuse :=
  if_pos (Expr.kind_listed kind)

theorem rebuilding_rule (kind : Kind) :
    rebuilding.rule? kind = some fun e operands => (e.reconstruct operands).mapError .build :=
  if_pos (Expr.kind_listed kind)

end Rules

namespace Expr

open Runs

/-- One of its operands has a label in it, further down than the labels around the operand. -/
def Hides (x : Expr) : Prop := ∃ o ∈ x.operands, ¬ Unlabelled o.core

section Through

theorem same_of_through {v o : Expr} (through : v.sameThrough o = true) : (v == o) = true := by
  cases o with
  | terminal data => rwa [same_through_node (by cases data <;> nofun)] at through
  | node op => rwa [same_through_node (by cases op <;> nofun)] at through
  | labelled label body =>
      cases v with
      | terminal | node => exact through
      | labelled => simpa using (Bool.and_eq_true_iff.mp through).1

theorem through_core {v o : Expr} (plain : Unlabelled o.core) (through : v.sameThrough o = true) :
    v = o := by
  induction o generalizing v with
  | terminal | node => exact (same_eq plain (same_symm (same_of_through through))).symm
  | labelled label body ih =>
      cases v with
      | terminal | node => simp [sameThrough] at through
      | labelled label' value =>
          simp only [sameThrough, Bool.and_eq_true, beq_iff_eq] at through
          rw [through.1, ih plain through.2]

theorem has_operands_core {x : Expr} {values : List Expr} (bare : ¬ Hides x)
    (same : x.hasOperands values = true) : values = x.operands := by
  have equal := pairs_imp (has_operands_pairs same).flip fun o member v through =>
    through_core (not_not.mp fun hidden => bare ⟨o, member, hidden⟩) through
  have equal := equal.flip
  rwa [List.forall₂_eq_eq_eq] at equal

theorem through_stands {v o : Expr} (typed : WellTyped o) (through : v.sameThrough o = true) :
    v.kind = o.kind ∧ Stands o v := by
  induction typed generalizing v with
  | terminal data =>
      obtain rfl := same_eq (unlabelled_terminal data) (same_symm (same_of_through through))
      exact ⟨rfl, .refl _⟩
  | @node op operands shape free types _ _ =>
      have same := same_of_through through
      cases v with
      | terminal | labelled => simp at same
      | node op' operands' shape' free' =>
          simp only [node_same, Bool.and_eq_true, beq_iff_eq, operands_same_iff] at same
          obtain ⟨⟨⟨rfl, rfl⟩, rfl⟩, pairs⟩ := same
          refine ⟨rfl, rfl, rfl, rfl, rfl, ?_, ?_, .inl rfl, fun tensor ii _ _ same => ?_⟩
          · cases op' <;> rintro ⟨⟩
          · cases op' <;> rintro ⟨⟩
          · -- The subscripts have no labels.
            cases same
            cases types with
            | @indexed tensor' items _ _ _ =>
                obtain _ | ⟨_, _ | ⟨items', _⟩⟩ := pairs
                have plain : Unlabelled (multiIndex items) := unlabelled_terminal _
                exact ⟨tensor', by rw [same_eq plain (same_symm items')]⟩
  | @labelled label body kind _ ih =>
      cases v with
      | terminal | node => simp [sameThrough] at through
      | labelled label' value =>
          simp only [sameThrough, Bool.and_eq_true, beq_iff_eq] at through
          obtain ⟨rfl, through⟩ := through
          obtain ⟨_, stands⟩ := ih through
          exact ⟨rfl, stands.shape, stands.free, rfl, rfl, by rintro ⟨⟩, id, .inl rfl,
            by rintro _ _ _ _ ⟨⟩⟩

theorem tests_pairs {op : Operator} {xs vs : List Expr}
    (kinds : List.Forall₂ (fun x v => v.kind = x.kind) xs vs) (tests : op.Tests xs) : op.Tests vs := by
  intro v member
  cases op with
  | conditional =>
      cases kinds with
      | nil => cases member
      | cons kind _ =>
          obtain rfl := List.mem_singleton.mp member
          exact kind.trans (tests _ List.mem_cons_self)
  | condition =>
      obtain ⟨logical, member⟩ := Operator.mem_tested_condition.mp member
      obtain ⟨x, inside, kind⟩ := pairs_member kinds member
      exact kind.trans (tests x (Operator.mem_tested_condition.mpr ⟨logical, inside⟩))
  | _ => cases member

end Through

section Rebuild

variable {e x : Expr} {values : List Expr} {supply after : Supply}

theorem reconstruct_operands (formed : Formed x) : x.reconstruct x.operands supply = .ok (x, supply) := by
  unfold reconstruct
  simp only [ne_eq, not_true_eq_false, if_false]
  cases formed with
  | terminal => rfl
  | node assembled spreads _ =>
      show Operator.build _ _ supply = _
      rw [operands, build_spread spreads, assembled]
      rfl
  | labelled kind _ =>
      show (liftM (withLabel _ _) : Fresh _ _) supply = _
      rw [withLabel, if_neg (by simpa using kind)]
      rfl

/-- A node that comes back from values that seem to be its operands had these operands. -/
theorem built_back {op : Operator} {xs vs : List Expr} {shape : Shape} {free : FreeIndices}
    (consistent : Consistent e) (inside : Within (node op xs shape free) e)
    (typed : WellTyped (node op xs shape free)) (formed : Formed (node op xs shape free))
    (through : List.Forall₂ (fun o v => v.sameThrough o = true) xs vs)
    (run : op.build vs supply = .ok (node op xs shape free, after)) : vs = xs := by
  have seems := pairs_imp through fun o member v same =>
    through_stands (typed.operand member) same
  have stands : List.Forall₂ Stands xs vs := seems.imp fun _ _ seem => seem.2
  cases typed with
  | node types typed =>
    cases formed with
    | node assembled spreads _ =>
      rw [build_spread (Operator.spreads_stand spreads stands)] at run
      obtain ⟨run, _⟩ := (Fresh.lift_ok _ _).mp run
      have tests : op.Tests vs :=
        tests_pairs (seems.imp fun _ _ seem => seem.1) (Operator.types_test types)
      have given : ∀ o ∈ xs, Within o e := fun o member => (Within.operand member).trans inside
      -- Derivatives look into their operands; the other operators make what they made before.
      by_cases derivative : op = .grad ∨ op = .spatialDerivative
      · obtain rfl | rfl := derivative
        · cases types with
          | grad =>
              obtain ⟨v, rfl, _⟩ := pairs_one stands
              obtain ⟨_, _, ⟨_, same⟩ | ⟨_, same⟩⟩ := grad_cases run
              · cases same
              · exact (Expr.node.inj same).2.1.symm
        · cases types with
          | spatialDerivative some =>
              obtain ⟨v, ii, rfl, _, items⟩ := pairs_two stands
              obtain rfl := items.multi_index
              obtain ⟨none, _⟩ | ⟨_, _, _, _, _, same⟩ := spatial_derivative_cases run
              · exact absurd none some
              · cases same
                rfl
      · have lives : op.Lives vs shape free := by
          cases op <;> trivial
        have made := Operator.assembles_standing assembled stands tests lives
        rw [run] at made
        have same : xs = op.arrange vs := (Expr.node.inj (Except.ok.inj made)).2.1
        -- Operands in the other order seem to be each other, so they are the same.
        have sorted {a b v w : Expr} (left : v.sameThrough a = true) (insideA : Within a e)
            (insideB : Within b e) (same : [a, b] = sortedPair v w) : [v, w] = [a, b] := by
          obtain order | order := sorted_pair_cases v w
          · rw [same, order]
          · rw [order] at same
            cases same
            rw [same_eq_within consistent insideB insideA (same_of_through left)]
        cases types with
        | sum | product =>
            obtain ⟨v, w, rfl, left, _⟩ := pairs_two through
            exact sorted left (given _ (by simp)) (given _ (by simp)) same
        | _ => exact same.symm

end Rebuild

section Pass

variable {handlers : Rules (Fresh TransformError) Expr} {e r : Expr} {trace : Memo Expr}
  {supply after : Supply}

/-- Where a part without a handler seems to have its operands as before, it has. -/
def Faithful (handlers : Rules (Fresh TransformError) Expr) (e : Expr) (trace : Memo Expr) : Prop :=
  ∀ x values, Within x e → handlers.rule? x.kind = none → Answers trace x.operands values →
    x.hasOperands values = true → values = x.operands

theorem faithful_mirrors (made : Constructible e) (faithful : Faithful handlers e trace) :
    Mirrors (Rules.rebuilding.overridden handlers) (Rules.reusing.overridden handlers) e trace := by
  intro x values rule v s s' inside answers found ran
  cases handled : handlers.rule? x.kind with
  | some handler =>
      rw [Rules.overridden_handled handled] at found ⊢
      exact ⟨rule, found, ran⟩
  | none =>
      rw [Rules.overridden_other handled, Rules.rebuilding_rule] at found
      rw [Rules.overridden_other handled, Rules.reusing_rule]
      cases found
      refine ⟨reuse, rfl, ?_⟩
      -- What is kept has its operands, and made again from them it is the same.
      have rebuilt := (Fresh.map_error_ok _ _ _).mp ran
      unfold reuse reuseOr
      by_cases same : x.hasOperands values = true
      · rw [if_pos same]
        rw [faithful x values inside handled answers same,
          reconstruct_operands (made.formed.within inside)] at rebuilt
        cases rebuilt
        rfl
      · rw [if_neg same]
        exact ran

theorem replayed_faithful (made : Constructible e) (consistent : Consistent e)
    (rebuilt : Ran (transformIn (Rules.rebuilding.overridden handlers) e) (∅, supply) r (trace, after))
    (reused : Ran (transformIn (Rules.reusing.overridden handlers) e) (∅, supply) r (trace, after)) :
    Faithful handlers e trace := by
  obtain ⟨rebuilding, found⟩ := transform_in_traced consistent rebuilt
  obtain ⟨reusing, _⟩ := transform_in_traced consistent reused
  intro x values inside other answers same
  obtain ⟨w, known⟩ := rebuilding.part inside found
  obtain ⟨rule, values', _, _, ruled, answers', ran⟩ := reusing x w inside known
  obtain ⟨rule', values'', _, _, ruled', answers'', ran'⟩ := rebuilding x w inside known
  obtain rfl := answers.unique answers'
  obtain rfl := answers.unique answers''
  rw [Rules.overridden_other other, Rules.reusing_rule] at ruled
  rw [Rules.overridden_other other, Rules.rebuilding_rule] at ruled'
  cases ruled
  cases ruled'
  -- The part was kept, and rebuilding gave it as well.
  unfold reuse reuseOr at ran
  rw [if_pos same] at ran
  obtain ⟨rfl, _⟩ := (Fresh.pure_ok _ _).mp ran
  have back := reconstruct_cases ((Fresh.map_error_ok _ _ _).mp ran')
  have through := (has_operands_pairs same).flip
  cases x with
  | terminal data =>
      cases answers
      rfl
  | node op operands shape free =>
      cases back with
      | node back =>
          exact built_back consistent inside (made.well_typed.within inside)
            (made.formed.within inside) through back
  | labelled label body =>
      cases back with
      | labelled only => exact only

theorem double_root_rebuilt {label : Label} {body v : Expr} (root : handlers.rule? .sqrt = none)
    (wrap : handlers.rule? .labelled = none)
    (run : body.transform (Rules.rebuilding.overridden handlers) supply = .ok (v, after))
    (scalar : v.shape = []) (kind : v.kind ≠ .multiIndex) :
    (doubleRoot label body).transform (Rules.rebuilding.overridden handlers) supply =
      .ok (doubleRoot label v, after) := by
  have roots := (Rules.overridden_other root).trans (Rules.rebuilding_rule .sqrt)
  have labels := (Rules.overridden_other wrap).trans (Rules.rebuilding_rule .labelled)
  have wrapped : (labelled label body).reconstruct [v] after = .ok (labelled label v, after) := by
    simp [reconstruct, operands, withLabel, kind]
  have rooted {x o : Expr} {free : FreeIndices} (bare : o.isZero = false)
      (unknown : o.constant? = none) (scalar : o.shape = []) :
      (node .sqrt [x] [] free).reconstruct [o] after = .ok (node .sqrt [o] [] o.free, after) := by
    simp [reconstruct, operands, Operator.build, Operator.assemble, sqrt, expectScalar, isScalar,
      scalar, bare, foldRoot?, unknown]
  exact transform_over rfl (transform_over rfl (transform_over rfl run labels
    ((Fresh.map_error_ok _ _ _).mpr wrapped)) roots
    ((Fresh.map_error_ok _ _ _).mpr (rooted rfl rfl scalar))) roots
    ((Fresh.map_error_ok _ _ _).mpr (rooted rfl rfl rfl))

/-- The pass that reuses goes the way of the pass that rebuilds exactly when each part without a
handler that seems to have its operands as before has them; so it does where no such part hides a
label. A double root around a label is such a part: where rebuilding puts the new body in, reusing
keeps the old one. -/
theorem reusing_rebuilds_iff (handlers : Rules (Fresh TransformError) Expr) :
    (∀ e r supply after, Constructible e → Consistent e →
      e.transform (Rules.rebuilding.overridden handlers) supply = .ok (r, after) →
      ∃ trace, transformIn (Rules.rebuilding.overridden handlers) e ∅ supply =
          .ok ((r, trace), after) ∧
        (transformIn (Rules.reusing.overridden handlers) e ∅ supply = .ok ((r, trace), after) ↔
          Faithful handlers e trace) ∧
        ((∀ x, Within x e → handlers.rule? x.kind = none → ¬ Hides x) →
          e.transform (Rules.reusing.overridden handlers) supply = .ok (r, after))) ∧
    (∀ label body v supply after,
      handlers.rule? .sqrt = none → handlers.rule? .labelled = none →
      body.transform (Rules.rebuilding.overridden handlers) supply = .ok (v, after) →
      body.transform (Rules.reusing.overridden handlers) supply = .ok (v, after) →
      v.shape = [] → v.kind ≠ .multiIndex → v.free = body.free →
      (doubleRoot label body).transform (Rules.rebuilding.overridden handlers) supply =
          .ok (doubleRoot label v, after) ∧
        (doubleRoot label body).transform (Rules.reusing.overridden handlers) supply =
          .ok (doubleRoot label body, after)) := by
  constructor
  · intro e r supply after made consistent run
    obtain ⟨trace, rebuilt⟩ := transform_ok.mp run
    have follows (faithful : Faithful handlers e trace) :=
      transform_in_replays consistent (faithful_mirrors made faithful) rebuilt
    refine ⟨trace, rebuilt, ⟨replayed_faithful made consistent rebuilt, follows⟩, fun bare => ?_⟩
    refine transform_ok.mpr ⟨trace, follows fun x values inside other _ same => ?_⟩
    exact has_operands_core (bare x inside other) same
  · intro label body v supply after root wrap rebuilt reused scalar kind free
    have roots := (Rules.overridden_other root).trans (Rules.reusing_rule .sqrt)
    have labels := (Rules.overridden_other wrap).trans (Rules.reusing_rule .labelled)
    exact ⟨double_root_rebuilt root wrap rebuilt scalar kind,
      double_root_reused roots labels reused scalar kind free⟩

section Sample

/-- A scalar field, and a handler that puts another field in place of every field. -/
def sampleScalar (number : Nat) : Expr := .terminal (.coefficient ⟨number, .scalar 2⟩)

def sampleHandlers : Rules (Fresh TransformError) Expr :=
  Rules.empty.on .coefficient fun _ _ => pure (sampleScalar 1)

/-- A square root of a labelled field. -/
def sampleRoot (number : Nat) : Expr :=
  .node .sqrt [.labelled ⟨0⟩ (sampleScalar number)] [] ∅

theorem sample_root_constructible : Constructible (sampleRoot 0) := by
  have field : Constructible (sampleScalar 0) := .terminal _
  have wrapped : Constructible (.labelled ⟨0⟩ (sampleScalar 0)) := .labelled field rfl
  exact .assemble .sqrt (by decide) (List.forall_mem_singleton.mpr wrapped) rfl

/-- Behind one square root the new field is put in, behind two it is dropped. -/
theorem reusing_rebuilds_roots :
    (sampleRoot 0).transform (Rules.reusing.overridden sampleHandlers) {} =
      .ok (sampleRoot 1, {}) ∧
    (doubleRoot ⟨0⟩ (sampleScalar 0)).transform (Rules.rebuilding.overridden sampleHandlers) {} =
      .ok (doubleRoot ⟨0⟩ (sampleScalar 1), {}) ∧
    (doubleRoot ⟨0⟩ (sampleScalar 0)).transform (Rules.reusing.overridden sampleHandlers) {} =
      .ok (doubleRoot ⟨0⟩ (sampleScalar 0), {}) ∧
    ∃ trace, transformIn (Rules.rebuilding.overridden sampleHandlers)
        (doubleRoot ⟨0⟩ (sampleScalar 0)) ∅ {} =
          .ok ((doubleRoot ⟨0⟩ (sampleScalar 1), trace), {}) ∧
      ¬ Faithful sampleHandlers (doubleRoot ⟨0⟩ (sampleScalar 0)) trace := by
  have rebuilt : (sampleScalar 0).transform (Rules.rebuilding.overridden sampleHandlers) {} =
      .ok (sampleScalar 1, {}) := transform_leaf rfl rfl
  have reused : (sampleScalar 0).transform (Rules.reusing.overridden sampleHandlers) {} =
      .ok (sampleScalar 1, {}) := transform_leaf rfl rfl
  have plain : Unlabelled (sampleScalar 0) := unlabelled_terminal _
  have once : (sampleRoot 0).transform (Rules.rebuilding.overridden sampleHandlers) {} =
      .ok (sampleRoot 1, {}) :=
    transform_over rfl (transform_over rfl rebuilt rfl rfl) rfl rfl
  have consistent : Consistent (sampleRoot 0) := (consistent_label plain).over rfl nofun
  have bare : ∀ x, Within x (sampleRoot 0) → ¬ Hides x := by
    -- The label is the only operand of the root, and the field that of the label.
    rintro x inside ⟨o, member, hidden⟩
    cases inside with
    | refl =>
        obtain rfl := List.mem_singleton.mp member
        exact hidden plain
    | step outer inside =>
        obtain rfl := List.mem_singleton.mp outer
        cases inside with
        | refl =>
            obtain rfl := List.mem_singleton.mp member
            exact hidden plain
        | step inner inside =>
            obtain rfl := List.mem_singleton.mp inner
            cases inside with
            | refl => cases member
            | step deeper => cases deeper
  have wrapped : Constructible (doubleRoot ⟨0⟩ (sampleScalar 0)) :=
    .assemble .sqrt (by decide) (List.forall_mem_singleton.mpr sample_root_constructible) rfl
  obtain ⟨_, _, _, follows⟩ := (reusing_rebuilds_iff sampleHandlers).1 _ _ _ _
    sample_root_constructible consistent once
  obtain ⟨twice, kept⟩ := (reusing_rebuilds_iff sampleHandlers).2 ⟨0⟩ (sampleScalar 0) (sampleScalar 1)
    {} {} rfl rfl rebuilt reused rfl nofun rfl
  obtain ⟨trace, traced, follows', _⟩ := (reusing_rebuilds_iff sampleHandlers).1 _ _ _ _ wrapped
    (double_root_consistent plain) twice
  refine ⟨follows fun x inside _ => bare x inside, twice, kept, trace, traced, fun faithful => ?_⟩
  have other := transform_ok.mpr ⟨trace, follows'.mpr faithful⟩
  rw [kept] at other
  simp [doubleRoot, sampleScalar] at other

end Sample

end Pass

end Expr

end FormCalculus
