import FormCalculus.Proofs.Stepping

/-!
The memo of a pass as its trace: each of its values came from a rule on the values it has for the
operands. A pass runs alike under other rules that do the same on the values of the trace.
-/
set_option autoImplicit false

namespace FormCalculus.Expr

open Runs

section Trace

variable {m : Type → Type} {S : Type} [Monad m] [MonadExceptOf TransformError m] [Runs m S]
  {α : Type} {e x : Expr} {rules : Rules m α} {memo : Memo α}

/-- Every value in it came from the rule on the values of the operands. -/
def Traced (rules : Rules m α) (e : Expr) (memo : Memo α) : Prop :=
  ∀ (y : Expr) (w : α), Within y e → memo[y]? = some w → ∃ rule values s s',
    rules.rule? y.kind = some rule ∧ Answers memo y.operands values ∧ Ran (rule y values) s w s'

theorem Step.traced {first last : Memo α × S} (consistent : Consistent e)
    (step : Step rules (Within · e) first last) (traced : Traced rules e first.1) :
    Traced rules e last.1 := by
  cases step with
  | @give x memo values rule s s' v inside new answers found ran =>
      intro y w within held
      have held : (memo.insert x v)[y]? = some w := held
      rw [Std.HashMap.getElem?_insert] at held
      by_cases same : (x == y) = true
      · rw [if_pos same] at held
        cases held
        obtain rfl := same_eq_within consistent inside within same
        exact ⟨rule, values, s, s', found, (extends_insert new).answers answers, ran⟩
      · rw [if_neg same] at held
        obtain ⟨rule, values, s, s', found, answers, ran⟩ := traced y w within held
        exact ⟨rule, values, s, s', found, (extends_insert new).answers answers, ran⟩

/-- A memo with a value for `e` has one for every part of it. -/
theorem Traced.part {w : α} (traced : Traced rules e memo) (inside : Within x e)
    (found : memo[e]? = some w) : ∃ v, memo[x]? = some v := by
  suffices ∀ y, Within x y → Within y e → ∀ w, memo[y]? = some w → ∃ v, memo[x]? = some v from
    this e inside (.refl e) w found
  intro y part
  induction part with
  | refl => exact fun _ w found => ⟨w, found⟩
  | step member _ ih =>
      intro within w found
      obtain ⟨_, values, _, _, _, answers, _⟩ := traced _ w within found
      obtain ⟨v, pair⟩ := partner_right answers.length_eq member
      exact ih ((Within.operand member).trans within) v (List.forall₂_zip answers pair)

/-- The memo that a pass leaves is its trace. -/
theorem transform_in_traced {s s' : S} {v : α} (consistent : Consistent e)
    (run : Ran (transformIn rules e) (∅, s) v (memo, s')) :
    Traced rules e memo ∧ memo[e]? = some v := by
  obtain ⟨steps, found⟩ := visit_steps consistent e (.refl e) _ _ _ _ _ run
  refine ⟨?_, found⟩
  have kept : ∀ last, Steps rules (Within · e) ((∅ : Memo α), s) last → Traced rules e last.1 := by
    intro last steps
    induction steps with
    | refl => exact fun y w _ found => by simp at found
    | tail _ step ih => exact step.traced consistent ih
  exact kept _ steps

end Trace

section Replay

variable {α : Type} {e : Expr} {supply after : Supply}
  {rules rules' : Rules (Fresh TransformError) α} {trace : Memo α}

/-- On the values of the trace, what the rules of a pass do the other rules do too. -/
def Mirrors (rules rules' : Rules (Fresh TransformError) α) (e : Expr) (trace : Memo α) : Prop :=
  ∀ x values rule v s s', Within x e → Answers trace x.operands values →
    rules.rule? x.kind = some rule → rule x values s = .ok (v, s') →
      ∃ rule', rules'.rule? x.kind = some rule' ∧ rule' x values s = .ok (v, s')

/-- A visit that stays on the trace goes the same way under the other rules. -/
def Replays (rules rules' : Rules (Fresh TransformError) α) (e : Expr) (trace : Memo α)
    (x : Expr) : Prop :=
  ∀ memo memo' supply after v, Within x e → Extends memo' trace →
    transformIn rules x memo supply = .ok ((v, memo'), after) →
      transformIn rules' x memo supply = .ok ((v, memo'), after)

theorem transform_all_replays {operands : List Expr} {values : List α} {memo memo' : Memo α}
    (consistent : Consistent e) (replays : ∀ o ∈ operands, Replays rules rules' e trace o)
    (inside : ∀ o ∈ operands, Within o e) (final : Extends memo' trace)
    (run : transformAll rules operands memo supply = .ok ((values, memo'), after)) :
    transformAll rules' operands memo supply = .ok ((values, memo'), after) := by
  induction operands generalizing values memo supply with
  | nil => exact run
  | cons o rest ih =>
      rw [transformAll, state_bind_ok] at run
      obtain ⟨first, middle, between, ran, run⟩ := run
      rw [state_bind_ok] at run
      obtain ⟨others, last, s, rans, run⟩ := run
      cases run
      obtain ⟨here, below⟩ := List.forall_mem_cons.mp inside
      have ran' : Ran (transformAll rules rest) (middle, between) others (memo', after) := rans
      have kept := (transform_all_steps
        (fun o member => visit_steps consistent o (below o member)) ran').1.extends
      have head := replays o List.mem_cons_self _ _ _ _ _ here (kept.trans final) ran
      have tail := ih (fun o member => replays o (List.mem_cons_of_mem _ member)) below rans
      rw [transformAll]
      exact state_bind_ok.mpr ⟨first, middle, between, head,
        state_bind_ok.mpr ⟨others, memo', after, tail, rfl⟩⟩

theorem replays (consistent : Consistent e) (mirrors : Mirrors rules rules' e trace) (x : Expr) :
    Replays rules rules' e trace x := by
  -- The rule runs on values of the trace, since the memo is still to grow into it.
  have finish {y : Expr} {values : List α} {memo middle : Memo α} {s between after : Supply} {v : α}
      (inside : Within y e) (new : memo[y]? = none)
      (steps : Steps rules (fun z => ∃ o ∈ y.operands, Within z o) (memo, s) (middle, between))
      (answers : Answers middle y.operands values) (final : Extends (middle.insert y v) trace)
      (run : applyRule rules y values middle between = .ok ((v, middle), after)) :
      Extends middle trace ∧
        applyRule rules' y values middle between = .ok ((v, middle), after) := by
    obtain ⟨rule, found, ran, _⟩ := apply_rule_ok run
    have kept := (extends_insert (steps.absent consistent inside new)).trans final
    obtain ⟨rule', found', ran'⟩ := mirrors y values rule v between after inside
      (kept.answers answers) found ran
    exact ⟨kept, apply_rule_runs found' ran'⟩
  induction x with
  | terminal data =>
      intro memo memo' supply after v inside final run
      obtain ⟨found, rfl, rfl⟩ | ⟨between, new, ran, rfl⟩ := memoized_ok run
      · exact memoized_known found
      · obtain ⟨_, _, _, rfl⟩ := apply_rule_ok ran
        exact memoized_new new (finish inside new .refl .nil final ran).2
  | node op operands shape free ih =>
      intro memo memo' supply after v inside final run
      obtain ⟨found, rfl, rfl⟩ | ⟨between, new, ran, rfl⟩ := memoized_ok run
      · exact memoized_known found
      · obtain ⟨values, middle, s, rans, ran⟩ := state_bind_ok.mp ran
        obtain ⟨_, _, _, rfl⟩ := apply_rule_ok ran
        have within : ∀ o ∈ operands, Within o e := fun o member => (Within.operand member).trans inside
        have rans' : Ran (transformAll rules operands) (memo, supply) values (_, s) := rans
        obtain ⟨steps, answers⟩ := transform_all_steps
          (fun o member => visit_steps consistent o (within o member)) rans'
        obtain ⟨kept, applied⟩ := finish inside new steps answers final ran
        have below := transform_all_replays consistent ih within kept rans
        exact memoized_new new (state_bind_ok.mpr ⟨values, _, s, below, applied⟩)
  | labelled label body ih =>
      intro memo memo' supply after v inside final run
      obtain ⟨found, rfl, rfl⟩ | ⟨between, new, ran, rfl⟩ := memoized_ok run
      · exact memoized_known found
      · obtain ⟨value, middle, s, first, ran⟩ := state_bind_ok.mp ran
        obtain ⟨_, _, _, rfl⟩ := apply_rule_ok ran
        have within : Within body e := (Within.operand List.mem_cons_self).trans inside
        have first' : Ran (transformIn rules body) (memo, supply) value (_, s) := first
        obtain ⟨steps, here⟩ := visit_steps consistent body within _ _ _ _ _ first'
        obtain ⟨kept, applied⟩ := finish inside new
          (steps.imp fun z part => ⟨body, List.mem_cons_self, part⟩) (.cons here .nil) final ran
        have below := ih _ _ _ _ _ within kept first
        exact memoized_new new (state_bind_ok.mpr ⟨value, _, s, below, applied⟩)

/-- A pass runs alike under rules that do the same on its trace. -/
theorem transform_in_replays {v : α} (consistent : Consistent e)
    (mirrors : Mirrors rules rules' e trace)
    (run : transformIn rules e ∅ supply = .ok ((v, trace), after)) :
    transformIn rules' e ∅ supply = .ok ((v, trace), after) :=
  replays consistent mirrors e _ _ _ _ _ (.refl e) (fun _ _ found => found) run

end Replay

end FormCalculus.Expr
