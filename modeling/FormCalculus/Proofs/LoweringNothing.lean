import FormCalculus.Lowering
import FormCalculus.Proofs.Echoing
import FormCalculus.Proofs.ExpansionValue
import FormCalculus.Proofs.LoweringKinds

/-!
Lowering an expression without compound operators and derivatives always succeeds. It need not give
the expression back: of two bodies under one label it may put either in the place of the other. If
these are echoes of each other, the result is an echo of the expression.
-/
set_option autoImplicit false

namespace FormCalculus.Expr

/-- Everything labelled alike in it is the same up to labels and the order of operands. -/
def Harmonious (e : Expr) : Prop :=
  ∀ label a b, Within (.labelled label a) e → Within (.labelled label b) e → Echoes a b

theorem Consistent.harmonious {e : Expr} (consistent : Consistent e) : Harmonious e :=
  fun label a b left right => consistent label a b left right ▸ .refl a

theorem Marked.harmonious {w : Bodies} {e m : Expr} (marked : Marked w e m) : Harmonious m := by
  intro label a b left right
  obtain ⟨o, known, first⟩ := marked.registered left
  obtain ⟨o', known', second⟩ := marked.registered right
  obtain rfl := Option.some.inj (known.symm.trans known')
  exact first.echoes.symm.trans second.echoes

theorem same_echoes {e x y : Expr} (harmonious : Harmonious e) (left : Within x e)
    (right : Within y e) (same : (x == y) = true) : Echoes x y := by
  induction x generalizing y with
  | terminal data =>
      cases y <;> simp_all
      exact .terminal _
  | labelled label body =>
      cases y with
      | terminal | node => simp at same
      | labelled label' body' =>
          obtain rfl : label = label' := by simpa using same
          exact .left (.right (harmonious label body body' left right))
  | node op operands shape free ih =>
      cases y with
      | terminal | labelled => simp at same
      | node op' operands' shape' free' =>
          simp only [node_same, Bool.and_eq_true, beq_iff_eq, operands_same_iff] at same
          obtain ⟨⟨⟨rfl, rfl⟩, rfl⟩, pairs⟩ := same
          refine .node pairs.length_eq (fun x y pair => ?_) (.inl rfl)
          obtain ⟨member, member'⟩ := List.of_mem_zip pair
          exact ih x member ((Within.operand member).trans left)
            ((Within.operand member').trans right) (List.forall₂_zip pairs pair)

theorem same_stands {e x y : Expr} (harmonious : Harmonious e) (left : Within x e)
    (right : Within y e) (same : (x == y) = true) (typed : WellTyped y) : Stands x y := by
  have echoes := same_echoes harmonious left right same
  have kind := same_kind same
  cases x with
  | terminal data =>
      cases y with
      | terminal data' =>
          obtain rfl : data = data' := by simpa using same
          exact .refl _
      | node | labelled => simp at same
  | labelled label body =>
      cases y with
      | terminal | node => simp at same
      | labelled => exact ⟨echoes.shape, echoes.free, rfl, rfl, nofun, id, .inl rfl, nofun⟩
  | node op operands shape free =>
      cases y with
      | terminal | labelled => simp at same
      | node op' operands' shape' free' =>
          simp only [node_same, Bool.and_eq_true, beq_iff_eq, operands_same_iff] at same
          obtain ⟨⟨⟨rfl, rfl⟩, rfl⟩, pairs⟩ := same
          refine ⟨rfl, rfl, rfl, rfl, fun kind => ?_, id, .inl kind.symm, ?_⟩
          · cases op <;> cases kind
          · intro tensor ii shape free equal
            cases equal
            obtain _ | ⟨types, _⟩ := typed
            cases types with
            | indexed =>
                obtain ⟨tensor', ii', rfl, _, second⟩ := pairs_two pairs.flip
                cases ii' with
                | terminal data =>
                    obtain rfl : data = _ := by simpa [multiIndex] using second
                    exact ⟨tensor', rfl⟩
                | node | labelled => simp [multiIndex] at second

/-! Passes that always succeed and take nothing from the supply. -/

section

variable {α : Type}

/-- Every rule of a pass over `e` gives its expression a value that holds. -/
structure Settles (rules : Rules (Fresh TransformError) α) (e : Expr) (holds : Expr → α → Prop) :
    Prop where
  /-- Equal expressions share the value of the one met first. -/
  alike : ∀ {x y : Expr} {v : α}, Within x e → Within y e → (x == y) = true → holds x v → holds y v
  rule : ∀ {x : Expr} {values : List α} (supply : Supply), Within x e →
    List.Forall₂ holds x.operands values →
    ∃ rule v, rules.rule? x.kind = some rule ∧ rule x values supply = .ok (v, supply) ∧ holds x v

variable {rules : Rules (Fresh TransformError) α} {e : Expr} {holds : Expr → α → Prop}
  {supply : Supply}

/-- One visit, whatever values are known already. -/
def VisitSettles (rules : Rules (Fresh TransformError) α) (e : Expr) (holds : Expr → α → Prop)
    (supply : Supply) (x : Expr) : Prop :=
  ∀ memo, Recalls e holds memo → ∃ v memo', transformIn rules x memo supply = .ok ((v, memo'), supply) ∧
    holds x v ∧ Recalls e holds memo'

theorem transform_all_settles {operands : List Expr}
    (visits : ∀ o ∈ operands, VisitSettles rules e holds supply o) {memo : Memo α}
    (known : Recalls e holds memo) :
    ∃ values memo', transformAll rules operands memo supply = .ok ((values, memo'), supply) ∧
      List.Forall₂ holds operands values ∧ Recalls e holds memo' := by
  induction operands generalizing memo with
  | nil => exact ⟨[], memo, rfl, .nil, known⟩
  | cons o rest ih =>
      obtain ⟨visit, others⟩ := List.forall_mem_cons.mp visits
      obtain ⟨v, memo', first, kept, known⟩ := visit memo known
      obtain ⟨values, memo'', second, below, known⟩ := ih others known
      refine ⟨v :: values, memo'', ?_, .cons kept below, known⟩
      exact state_bind_ok.mpr ⟨v, memo', supply, first,
        state_bind_ok.mpr ⟨values, memo'', supply, second, rfl⟩⟩

theorem memoized_settles (settles : Settles rules e holds) {x : Expr} (inside : Within x e)
    {act : StateT (Memo α) (Fresh TransformError) α} {memo : Memo α} (known : Recalls e holds memo)
    (ends : ∃ v memo', act memo supply = .ok ((v, memo'), supply) ∧ holds x v ∧ Recalls e holds memo') :
    ∃ v memo', memoized x act memo supply = .ok ((v, memo'), supply) ∧ holds x v ∧
      Recalls e holds memo' := by
  unfold memoized
  cases found : memo[x]? with
  | some value => exact ⟨value, memo, rfl, known x value inside found, known⟩
  | none =>
      obtain ⟨v, memo', run, kept, known⟩ := ends
      refine ⟨v, memo'.insert x v, (Fresh.bind_ok _ _ _).mpr ⟨_, _, run, rfl⟩, kept, ?_⟩
      intro y u within found
      rw [Std.HashMap.getElem?_insert] at found
      by_cases same : (x == y) = true
      · rw [if_pos same] at found
        cases found
        exact settles.alike inside within same kept
      · rw [if_neg same] at found
        exact known y u within found

theorem visit_settles (settles : Settles rules e holds) (x : Expr) (inside : Within x e) :
    VisitSettles rules e holds supply x := by
  have applied {x : Expr} (inside : Within x e) {values : List α} {memo : Memo α}
      (known : Recalls e holds memo) (below : List.Forall₂ holds x.operands values) :
      ∃ v memo', applyRule rules x values memo supply = .ok ((v, memo'), supply) ∧ holds x v ∧
        Recalls e holds memo' := by
    obtain ⟨rule, v, found, run, kept⟩ := settles.rule supply inside below
    exact ⟨v, memo, apply_rule_runs found run, kept, known⟩
  induction x with
  | terminal data =>
      exact fun memo known => memoized_settles settles inside known (applied inside known .nil)
  | node op operands shape free ih =>
      intro memo known
      refine memoized_settles settles inside known ?_
      obtain ⟨values, memo', run, below, known⟩ := transform_all_settles
        (fun o member => ih o member ((Within.operand member).trans inside)) known
      obtain ⟨v, memo'', last, kept⟩ := applied inside known below
      exact ⟨v, memo'', state_bind_ok.mpr ⟨_, _, _, run, last⟩, kept⟩
  | labelled label body ih =>
      intro memo known
      refine memoized_settles settles inside known ?_
      obtain ⟨value, memo', run, below, known⟩ :=
        ih ((Within.operand List.mem_cons_self).trans inside) memo known
      obtain ⟨v, memo'', last, kept⟩ := applied inside known (.cons below .nil)
      exact ⟨v, memo'', state_bind_ok.mpr ⟨_, _, _, run, last⟩, kept⟩

theorem transform_settles (settles : Settles rules e holds) (supply : Supply) :
    ∃ v, transform rules e supply = .ok (v, supply) ∧ holds e v := by
  have empty : Recalls e holds (∅ : Memo α) := fun x v _ found => by simp at found
  obtain ⟨v, memo, run, kept, _⟩ := visit_settles settles e (.refl e) ∅ empty
  exact ⟨v, transform_ok.mpr ⟨memo, run⟩, kept⟩

end

/-- What lowering makes of a part where there is nothing to lower. -/
structure Remade (x v : Expr) : Prop where
  echoes : Echoes x v
  stands : Stands x v
  kind : v.kind = x.kind
  formed : Formed v

theorem Remade.self {x : Expr} (formed : Formed x) : Remade x x :=
  ⟨.refl x, .refl x, rfl, formed⟩

theorem tests_kinds {op : Operator} {xs vs : List Expr} (tests : op.Tests xs)
    (pairs : List.Forall₂ (fun x v => v.kind = x.kind) xs vs) : op.Tests vs := by
  have tested : List.Forall₂ (fun x v => v.kind = x.kind) (op.tested xs) (op.tested vs) := by
    cases op with
    | conditional => exact List.forall₂_take 1 pairs
    | condition op =>
        simp only [Operator.tested]
        split
        · exact pairs
        · exact .nil
    | _ => exact .nil
  intro v member
  obtain ⟨x, inside, kind⟩ := pairs_member tested member
  exact kind.trans (tests x inside)

theorem lives_elsewhere {op : Operator} (grad : op ≠ .grad) (along : op ≠ .spatialDerivative)
    (operands : List Expr) (shape : Shape) (free : FreeIndices) : op.Lives operands shape free := by
  unfold Operator.Lives
  split
  · exact absurd rfl grad
  · exact absurd rfl along
  · trivial

/-- A node can be made again from what its operands are remade as, unless it is a derivative. -/
theorem assembles_remade {op : Operator} {xs vs : List Expr} {shape : Shape} {free : FreeIndices}
    (formed : Formed (.node op xs shape free)) (grad : op ≠ .grad) (along : op ≠ .spatialDerivative)
    (below : List.Forall₂ Remade xs vs) :
    op.assemble vs = .ok (.node op (op.arrange vs) shape free) ∧ op.Spreads vs := by
  obtain _ | ⟨run, spreads, _⟩ := formed
  have stands : List.Forall₂ Stands xs vs := below.imp fun _ _ remade => remade.stands
  have tests : op.Tests vs := tests_kinds (Operator.types_test (Operator.assembled run).1)
    (below.imp fun _ _ remade => remade.kind)
  exact ⟨Operator.assembles_standing run stands tests (lives_elsewhere grad along _ _ _),
    Operator.spreads_stand spreads stands⟩

theorem Remade.node {op : Operator} {xs vs : List Expr} {shape : Shape} {free : FreeIndices}
    (formed : Formed (.node op xs shape free)) (typed : WellTyped (.node op xs shape free))
    (grad : op ≠ .grad) (along : op ≠ .spatialDerivative) (below : List.Forall₂ Remade xs vs) :
    Remade (.node op xs shape free) (.node op (op.arrange vs) shape free) := by
  obtain ⟨run, spreads⟩ := assembles_remade formed grad along below
  refine ⟨.of_pairs (below.imp fun _ _ remade => remade.echoes) (arrange_reordered op vs),
    ⟨rfl, rfl, rfl, rfl, ?_, id, .inl rfl, ?_⟩, rfl, assemble_formed spreads (fun v member => ?_) run⟩
  · cases op <;> nofun
  · intro tensor ii shape free same
    cases same
    obtain _ | ⟨types, _⟩ := typed
    cases types with
    | indexed =>
        obtain ⟨_, _, same, _, items⟩ := pairs_two below
        cases same
        obtain rfl := items.stands.multi_index
        exact ⟨_, rfl⟩
  · obtain ⟨x, _, remade⟩ := pairs_member below member
    exact remade.formed

/-- Reusing or rebuilding, a part that is no derivative is remade. -/
theorem reuse_remade {x : Expr} {values : List Expr} (formed : Formed x) (typed : WellTyped x)
    (free : x.kind ≠ .grad ∧ x.kind ≠ .spatialDerivative)
    (below : List.Forall₂ Remade x.operands values) (supply : Supply) :
    ∃ v, x.reuse values supply = .ok (v, supply) ∧ Remade x v := by
  have length : values.length = x.operands.length := below.length_eq.symm
  unfold reuse reuseOr
  split
  · exact ⟨x, rfl, .self formed⟩
  · unfold Fresh.mapError reconstruct
    simp only [length, ne_eq, not_true_eq_false, if_false]
    cases x with
    | terminal data => exact ⟨_, rfl, .self formed⟩
    | labelled label body =>
        obtain ⟨v, rfl, remade⟩ := pairs_one below
        obtain _ | _ | ⟨kind, _⟩ := formed
        have kind : v.kind ≠ .multiIndex := remade.kind ▸ kind
        refine ⟨.labelled label v, ?_, .left (.right remade.echoes), ⟨remade.stands.shape,
          remade.stands.free, rfl, rfl, nofun, id, .inl rfl, nofun⟩, rfl, .labelled kind remade.formed⟩
        show ((liftM (withLabel label v) : Fresh BuildError Expr) supply).mapError _ = _
        unfold withLabel
        rw [if_neg kind]
        rfl
    | node op operands shape free' =>
        have grad : op ≠ .grad := fun same => free.1 (same ▸ rfl)
        have along : op ≠ .spatialDerivative := fun same => free.2 (same ▸ rfl)
        obtain ⟨run, spreads⟩ := assembles_remade formed grad along below
        refine ⟨_, ?_, .node formed typed grad along below⟩
        show (op.build values supply).mapError _ = _
        rw [build_spread spreads, run]
        rfl

/-- Where there is nothing to lower, lowering gives an echo. -/
theorem lower_echoes {e : Expr} (formed : Formed e) (typed : WellTyped e)
    (harmonious : Harmonious e) (plain : ¬ HasCompound e) (free : Reading.DerivativeFree e)
    (supply : Supply) : ∃ l, e.lower supply = .ok (l, supply) ∧ Echoes e l ∧ Formed l := by
  have settles : Settles Lowering.rules e Remade := by
    refine ⟨fun {x y v} left right same remade => ?_, fun {x values} supply inside below => ?_⟩
    · have back := same_symm same
      exact ⟨(same_echoes harmonious right left back).trans remade.echoes,
        (same_stands harmonious right left back (typed.within left)).trans remade.stands,
        remade.kind.trans (same_kind same), remade.formed⟩
    · have simple : x.kind.isCompound = false :=
        eq_false_of_ne_true fun compound => plain ⟨x, inside, compound⟩
      obtain ⟨v, run, remade⟩ := reuse_remade (formed.within inside) (typed.within inside)
        (free x inside) below supply
      exact ⟨_, v, Lowering.rule_of_simple simple, run, remade⟩
  obtain ⟨l, run, remade⟩ := transform_settles settles supply
  exact ⟨l, run, remade.echoes, remade.formed⟩

/-- An expression with one body for each label is what lowering makes of it. -/
theorem lower_stays {e : Expr} (consistent : Consistent e) (plain : ¬ HasCompound e) (supply : Supply) :
    e.lower supply = .ok (e, supply) := by
  have settles : Settles Lowering.rules e fun x v => v = x := by
    refine ⟨fun left right same kept => ?_, fun {x values} supply inside below => ?_⟩
    · exact kept.trans (same_eq_within consistent left right same)
    · have simple : x.kind.isCompound = false :=
        eq_false_of_ne_true fun compound => plain ⟨x, inside, compound⟩
      obtain rfl : x.operands = values := List.forall₂_eq_eq_eq ▸ below.imp fun _ _ kept => kept.symm
      refine ⟨_, x, Lowering.rule_of_simple simple, ?_, rfl⟩
      rw [reuse, reuseOr, if_pos (has_own_operands x)]
      rfl
  obtain ⟨l, run, rfl⟩ := transform_settles settles supply
  exact run

end FormCalculus.Expr
