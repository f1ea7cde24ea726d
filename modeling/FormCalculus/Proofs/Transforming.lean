import FormCalculus.Rewrite
import FormCalculus.Proofs.Construction

/-!
What a bottom-up pass keeps. Where one label stands for one body, expressions that compare as equal
are the same, and the memo holds values of the very expressions it is asked for.
-/
set_option autoImplicit false

namespace FormCalculus

/-- Which runs a computation has, from one state to another. -/
class Runs (m : Type → Type) (S : outParam Type) [Monad m] [MonadExceptOf TransformError m] where
  Ran {β : Type} : m β → S → β → S → Prop
  pure_ran {β : Type} {a b : β} {s s' : S} : Ran (pure a : m β) s b s' ↔ a = b ∧ s = s'
  bind_ran {β γ : Type} {act : m β} {next : β → m γ} {s s' : S} {c : γ} :
    Ran (act >>= next) s c s' ↔ ∃ b between, Ran act s b between ∧ Ran (next b) between c s'
  throw_not_ran {β : Type} {error : TransformError} {s s' : S} {b : β} :
    ¬ Ran (throw error : m β) s b s'

open Runs

instance : Runs (Fresh TransformError) Supply where
  Ran act s b s' := act s = .ok (b, s')
  pure_ran := Fresh.pure_ok _ _
  bind_ran := Fresh.bind_ok _ _ _
  throw_not_ran := (Fresh.throw_not_ok _ _).mp

section

variable {m : Type → Type} {S : Type} [Monad m] [MonadExceptOf TransformError m] [Runs m S]

instance {σ : Type} : Runs (StateT σ m) (σ × S) where
  Ran act s b s' := Ran (act s.1) s.2 (b, s'.1) s'.2
  pure_ran := by
    rintro β a b ⟨s, t⟩ ⟨s', t'⟩
    show Ran (pure (a, s) : m (β × σ)) t (b, s') t' ↔ _
    rw [pure_ran, Prod.mk.injEq, Prod.mk.injEq, and_assoc]
  bind_ran := by
    rintro β γ act next ⟨s, t⟩ ⟨s', t'⟩ c
    show Ran (act s >>= fun pair => next pair.1 pair.2) t (c, s') t' ↔ _
    simp only [bind_ran, Prod.exists]
  throw_not_ran := by
    rintro β error ⟨s, t⟩ ⟨s', t'⟩ b ran
    have ran : Ran ((throw error : m β) >>= fun a => pure (a, s)) t (b, s') t' := ran
    obtain ⟨_, _, thrown, _⟩ := bind_ran.mp ran
    exact throw_not_ran thrown

end

namespace Expr

/-- Everything labelled alike in it has one body. -/
def Consistent (e : Expr) : Prop :=
  ∀ label a b, Within (labelled label a) e → Within (labelled label b) e → a = b

/-- What has no labels but those of a consistent expression is consistent. -/
theorem Consistent.of_labels {e x : Expr} (consistent : Consistent e)
    (inside : ∀ label body, Within (labelled label body) x → Within (labelled label body) e) :
    Consistent x :=
  fun label a b left right => consistent label a b (inside label a left) (inside label b right)

theorem Consistent.within {e x : Expr} (consistent : Consistent e) (inside : Within x e) :
    Consistent x :=
  consistent.of_labels fun _ _ below => below.trans inside

theorem Consistent.operand {e o : Expr} (consistent : Consistent e) (member : o ∈ e.operands) :
    Consistent o :=
  consistent.within (Within.operand member)

theorem consistent_of_unlabelled {e : Expr} (plain : Unlabelled e) : Consistent e :=
  fun _ _ _ inside => absurd rfl (plain _ inside)

theorem consistent_label {label : Label} {body : Expr} (plain : Unlabelled body) :
    Consistent (labelled label body) := by
  have only {label' : Label} {a : Expr} (inside : Within (labelled label' a) (labelled label body)) :
      a = body := by
    cases inside with
    | refl => rfl
    | step member below =>
        obtain rfl := List.mem_singleton.mp member
        exact absurd rfl (plain _ below)
  intro label a b left right
  rw [only left, only right]

theorem Consistent.over {x o : Expr} (consistent : Consistent o) (only : x.operands = [o])
    (plain : x.kind ≠ .labelled) : Consistent x := by
  refine consistent.of_labels fun label body inside => ?_
  cases inside with
  | refl => exact absurd rfl plain
  | step member below =>
      rw [only, List.mem_singleton] at member
      exact member ▸ below

/-- Where labels alike have equal bodies, equal parts are one. -/
theorem agreeing_eq_within {e a b : Expr} (agreeing : ∀ label a b, Within (labelled label a) e →
    Within (labelled label b) e → (a == b) = true) (left : Within a e) (right : Within b e)
    (same : (a == b) = true) : a = b := by
  induction a generalizing b with
  | terminal data => cases b <;> simp_all
  | labelled label body ih =>
      cases b with
      | terminal data => simp at same
      | node => simp at same
      | labelled label' body' =>
          obtain rfl : label = label' := by simpa using same
          have below {x : Expr} (inside : Within (labelled label x) e) : Within x e :=
            (Within.operand List.mem_cons_self).trans inside
          rw [ih (below left) (below right) (agreeing label body body' left right)]
  | node op operands shape free ih =>
      cases b with
      | terminal data => simp at same
      | labelled label body => simp at same
      | node op' operands' shape' free' =>
          simp only [node_same, Bool.and_eq_true, beq_iff_eq, operands_same_iff] at same
          obtain ⟨⟨⟨rfl, rfl⟩, rfl⟩, pairs⟩ := same
          have equal : operands = operands' := by
            have insideLeft : ∀ o ∈ operands, Within o e := fun o member =>
              (Within.operand (e := .node op operands shape free) member).trans left
            have insideRight : ∀ o ∈ operands', Within o e := fun o member =>
              (Within.operand (e := .node op operands' shape free) member).trans right
            clear left right
            induction pairs with
            | nil => rfl
            | cons first _ step =>
                obtain ⟨here, others⟩ := List.forall_mem_cons.mp ih
                obtain ⟨l, ls⟩ := List.forall_mem_cons.mp insideLeft
                obtain ⟨r, rs⟩ := List.forall_mem_cons.mp insideRight
                rw [here l r first, step others ls rs]
          rw [equal]

theorem consistent_of_agreeing {e : Expr} (agreeing : ∀ label a b, Within (labelled label a) e →
    Within (labelled label b) e → (a == b) = true) : Consistent e := by
  intro label a b left right
  have equal : labelled label a = labelled label b :=
    agreeing_eq_within agreeing left right (by simp)
  exact (labelled.inj equal).2

theorem same_eq_within {e a b : Expr} (consistent : Consistent e) (left : Within a e)
    (right : Within b e) (same : (a == b) = true) : a = b :=
  agreeing_eq_within (fun label a b left right => consistent label a b left right ▸ same_refl a)
    left right same

theorem kind_listed (kind : Kind) : kind ∈ Kind.all := by
  cases kind <;> decide

section Runs

variable {m : Type → Type} {S : Type} [Monad m] [MonadExceptOf TransformError m] [Runs m S]
  {α : Type} {e : Expr} {rules : Rules m α} {memo memo' : Memo α} {values : List α} {s s' : S}

/-- A value is found in the memo, or worked out and put there. -/
theorem memoized_ran {act : StateT (Memo α) m α} {w : α}
    (run : Ran (memoized e act) (memo, s) w (memo', s')) :
    (memo[e]? = some w ∧ memo' = memo ∧ s' = s) ∨
      ∃ between, memo[e]? = none ∧ Ran act (memo, s) w (between, s') ∧ memo' = between.insert e w := by
  have run : Ran (memoized e act memo) s (w, memo') s' := run
  unfold memoized at run
  cases known : memo[e]? with
  | some value =>
      simp only [known, pure_ran, Prod.mk.injEq] at run
      obtain ⟨⟨rfl, rfl⟩, rfl⟩ := run
      exact .inl ⟨rfl, rfl, rfl⟩
  | none =>
      simp only [known, bind_ran, pure_ran, Prod.mk.injEq, Prod.exists] at run
      obtain ⟨value, between, _, ran, ⟨rfl, rfl⟩, rfl⟩ := run
      exact .inr ⟨between, rfl, ran, rfl⟩

/-- A rule ran, and left the memo alone. -/
theorem apply_rule_ran {w : α} (run : Ran (applyRule rules e values) (memo, s) w (memo', s')) :
    ∃ rule, rules.rule? e.kind = some rule ∧ Ran (rule e values) s w s' ∧ memo' = memo := by
  unfold applyRule at run
  cases known : rules.rule? e.kind with
  | none =>
      rw [known] at run
      exact absurd run throw_not_ran
  | some rule =>
      rw [known] at run
      have lifted : Ran (rule e values >>= fun value => pure (value, memo)) s (w, memo') s' := run
      simp only [bind_ran, pure_ran, Prod.mk.injEq] at lifted
      obtain ⟨_, _, ran, ⟨rfl, rfl⟩, rfl⟩ := lifted
      exact ⟨rule, rfl, ran, rfl⟩

theorem transform_ran [LawfulMonad m] {r : α} :
    Ran (transform rules e) s r s' ↔ ∃ memo, Ran (transformIn rules e) (∅, s) r (memo, s') := by
  show Ran ((fun pair => pair.1) <$> transformIn rules e ∅) s r s' ↔ _
  rw [← bind_pure_comp, bind_ran]
  constructor
  · rintro ⟨⟨value, memo⟩, between, ran, last⟩
    obtain ⟨rfl, rfl⟩ := pure_ran.mp last
    exact ⟨memo, ran⟩
  · rintro ⟨memo, ran⟩
    exact ⟨(r, memo), s', ran, pure_ran.mpr ⟨rfl, rfl⟩⟩

end Runs

variable {α : Type} {supply after : Supply}

theorem memoized_ok {e : Expr} {act : StateT (Memo α) (Fresh TransformError) α}
    {memo memo' : Memo α} {v : α}
    (run : memoized e act memo supply = .ok ((v, memo'), after)) :
    (memo[e]? = some v ∧ memo' = memo ∧ after = supply) ∨
      ∃ between, memo[e]? = none ∧ act memo supply = .ok ((v, between), after) ∧
        memo' = between.insert e v := by
  have run : Ran (memoized e act) (memo, supply) v (memo', after) := run
  exact memoized_ran run

theorem memoized_known {e : Expr} {act : StateT (Memo α) (Fresh TransformError) α} {memo : Memo α}
    {v : α} (known : memo[e]? = some v) : memoized e act memo supply = .ok ((v, memo), supply) := by
  unfold memoized
  simp only [known]
  rfl

theorem memoized_new {e : Expr} {act : StateT (Memo α) (Fresh TransformError) α}
    {memo memo' : Memo α} {v : α} (new : memo[e]? = none)
    (run : act memo supply = .ok ((v, memo'), after)) :
    memoized e act memo supply = .ok ((v, memo'.insert e v), after) := by
  unfold memoized
  simp only [new]
  exact (Fresh.bind_ok _ _ _).mpr ⟨(v, memo'), after, run, rfl⟩

theorem transform_ok {rules : Rules (Fresh TransformError) α} {e : Expr} {r : α} :
    transform rules e supply = .ok (r, after) ↔
      ∃ memo, transformIn rules e ∅ supply = .ok ((r, memo), after) := by
  have ran : Ran (transform rules e) supply r after ↔ _ := transform_ran
  exact ran

theorem state_bind_ok {σ β : Type} {act : StateT σ (Fresh TransformError) α}
    {next : α → StateT σ (Fresh TransformError) β} {state state' : σ} {v : β} :
    (act >>= next) state supply = .ok ((v, state'), after) ↔
      ∃ a middle between, act state supply = .ok ((a, middle), between) ∧
        next a middle between = .ok ((v, state'), after) := by
  show (act state >>= fun pair => next pair.1 pair.2) supply = _ ↔ _
  simp only [Fresh.bind_ok, Prod.exists]

theorem apply_rule_ok {rules : Rules (Fresh TransformError) α} {e : Expr} {values : List α}
    {memo memo' : Memo α} {v : α}
    (run : applyRule rules e values memo supply = .ok ((v, memo'), after)) :
    ∃ rule, rules.rule? e.kind = some rule ∧ rule e values supply = .ok (v, after) ∧ memo' = memo := by
  have run : Ran (applyRule rules e values) (memo, supply) v (memo', after) := run
  exact apply_rule_ran run

theorem apply_rule_runs {rules : Rules (Fresh TransformError) α} {e : Expr} {values : List α}
    {rule : Rule (Fresh TransformError) α} {memo : Memo α} {v : α}
    (found : rules.rule? e.kind = some rule) (run : rule e values supply = .ok (v, after)) :
    applyRule rules e values memo supply = .ok ((v, memo), after) := by
  unfold applyRule
  rw [found]
  exact (Fresh.bind_ok _ _ _).mpr ⟨v, after, run, rfl⟩

/-- Every rule keeps what holds of the values of the operands, and what it expects of the supply. -/
def Keeps (rules : Rules (Fresh TransformError) α) (e : Expr) (holds : Expr → α → Prop)
    (ready : Supply → Prop) : Prop :=
  ∀ x values rule v s s', Within x e → rules.rule? x.kind = some rule →
    List.Forall₂ holds x.operands values → ready s → rule x values s = .ok (v, s') →
      holds x v ∧ ready s'

/-- What the memo has for expressions below `e` holds. -/
def Remembers (e : Expr) (holds : Expr → α → Prop) (memo : Memo α) : Prop :=
  ∀ x v, Within x e → memo[x]? = some v → holds x v

/-- What holds of the value of an expression holds for every equal one. -/
def Shares (e : Expr) (holds : Expr → α → Prop) : Prop :=
  ∀ (x y : Expr) (v : α), Within x e → Within y e → (x == y) = true → holds x v → holds y v

section

variable {rules : Rules (Fresh TransformError) α} {e : Expr} {holds : Expr → α → Prop}
  {ready : Supply → Prop}

theorem shares_of_consistent (consistent : Consistent e) : Shares e holds :=
  fun _ _ _ inside within same kept => same_eq_within consistent inside within same ▸ kept

theorem Remembers.insert {memo : Memo α} {x : Expr} {v : α} (known : Remembers e holds memo)
    (shares : Shares e holds) (inside : Within x e) (kept : holds x v) :
    Remembers e holds (memo.insert x v) := by
  intro y w within found
  rw [Std.HashMap.getElem?_insert] at found
  by_cases same : (x == y) = true
  · rw [if_pos same] at found
    cases found
    exact shares x y _ inside within same kept
  · rw [if_neg same] at found
    exact known y w within found

/-- Working a value out, with what the memo keeps meanwhile. -/
def Visits (rules : Rules (Fresh TransformError) α) (e : Expr) (holds : Expr → α → Prop)
    (ready : Supply → Prop) (x : Expr) : Prop :=
  ∀ memo memo' supply after v, Within x e → Remembers e holds memo → ready supply →
    transformIn rules x memo supply = .ok ((v, memo'), after) →
      holds x v ∧ Remembers e holds memo' ∧ ready after

theorem transform_all_keeps {operands : List Expr} {values : List α} {memo memo' : Memo α}
    (visits : ∀ o ∈ operands, Visits rules e holds ready o) (inside : ∀ o ∈ operands, Within o e)
    (known : Remembers e holds memo) (start : ready supply)
    (run : transformAll rules operands memo supply = .ok ((values, memo'), after)) :
    List.Forall₂ holds operands values ∧ Remembers e holds memo' ∧ ready after := by
  induction operands generalizing values memo supply with
  | nil =>
      cases run
      exact ⟨.nil, known, start⟩
  | cons o rest ih =>
      rw [transformAll, state_bind_ok] at run
      obtain ⟨first, middle, between, ran, run⟩ := run
      rw [state_bind_ok] at run
      obtain ⟨others, last, final, rans, run⟩ := run
      cases run
      obtain ⟨here, known, start⟩ := visits o List.mem_cons_self _ _ _ _ _
        (inside o List.mem_cons_self) known start ran
      obtain ⟨below, known, start⟩ := ih (fun o member => visits o (List.mem_cons_of_mem _ member))
        (fun o member => inside o (List.mem_cons_of_mem _ member)) known start rans
      exact ⟨.cons here below, known, start⟩

/-- One visit: the memo answers, or the rule runs on the values of the operands. -/
theorem visits (shares : Shares e holds) (keeps : Keeps rules e holds ready) (x : Expr) :
    Visits rules e holds ready x := by
  -- Once the operands have values, the rule gives one for the node.
  have finish {y : Expr} {values : List α} {memo memo' : Memo α} {s s' : Supply} {v : α}
      (inside : Within y e) (below : List.Forall₂ holds y.operands values)
      (known : Remembers e holds memo) (start : ready s)
      (run : applyRule rules y values memo s = .ok ((v, memo'), s')) :
      holds y v ∧ Remembers e holds (memo'.insert y v) ∧ ready s' := by
    obtain ⟨rule, found, ran, rfl⟩ := apply_rule_ok run
    obtain ⟨kept, done⟩ := keeps y values rule v s s' inside found below start ran
    exact ⟨kept, known.insert shares inside kept, done⟩
  induction x with
  | terminal data =>
      intro memo memo' supply after v inside known start run
      obtain ⟨found, rfl, rfl⟩ | ⟨between, _, ran, rfl⟩ := memoized_ok run
      · exact ⟨known _ _ inside found, known, start⟩
      · exact finish inside .nil known start ran
  | node op operands shape free ih =>
      intro memo memo' supply after v inside known start run
      obtain ⟨found, rfl, rfl⟩ | ⟨between, _, ran, rfl⟩ := memoized_ok run
      · exact ⟨known _ _ inside found, known, start⟩
      · obtain ⟨values, middle, s, rans, ran⟩ := state_bind_ok.mp ran
        obtain ⟨below, known, start⟩ := transform_all_keeps ih
          (fun o member => (Within.operand member).trans inside) known start rans
        exact finish inside below known start ran
  | labelled label body ih =>
      intro memo memo' supply after v inside known start run
      obtain ⟨found, rfl, rfl⟩ | ⟨between, _, ran, rfl⟩ := memoized_ok run
      · exact ⟨known _ _ inside found, known, start⟩
      · obtain ⟨value, middle, s, first, ran⟩ := state_bind_ok.mp ran
        obtain ⟨below, known, start⟩ := ih _ _ _ _ _
          ((Within.operand List.mem_cons_self).trans inside) known start first
        exact finish inside (.cons below .nil) known start ran

/-- What each rule keeps a whole pass keeps. -/
theorem transform_keeps_shared {r : α} (shares : Shares e holds) (keeps : Keeps rules e holds ready)
    (start : ready supply) (run : transform rules e supply = .ok (r, after)) :
    holds e r ∧ ready after := by
  obtain ⟨memo, ran⟩ := transform_ok.mp run
  have empty : Remembers e holds (∅ : Memo α) := fun x v _ found => by simp at found
  obtain ⟨kept, _, done⟩ := visits shares keeps e _ _ _ _ _ (.refl e) empty start ran
  exact ⟨kept, done⟩

theorem transform_keeps {r : α} (consistent : Consistent e) (keeps : Keeps rules e holds ready)
    (start : ready supply) (run : transform rules e supply = .ok (r, after)) :
    holds e r ∧ ready after :=
  transform_keeps_shared (shares_of_consistent consistent) keeps start run

end

theorem transform_leaf {rules : Rules (Fresh TransformError) α} {rule : Rule (Fresh TransformError) α}
    {data : Terminal} {w : α} (found : rules.rule? data.kind = some rule)
    (step : rule (terminal data) [] supply = .ok (w, after)) :
    transform rules (terminal data) supply = .ok (w, after) := by
  have applied : applyRule rules (terminal data) [] ∅ supply = .ok ((w, ∅), after) :=
    apply_rule_runs found step
  exact transform_ok.mpr ⟨_, memoized_new Std.HashMap.getElem?_empty applied⟩

/-- A pass over an expression of one operand is one over the operand, then the rule. -/
theorem transform_over {rules : Rules (Fresh TransformError) α} {rule : Rule (Fresh TransformError) α}
    {x o : Expr} {v w : α} {between : Supply} (only : x.operands = [o])
    (run : transform rules o supply = .ok (v, between)) (found : rules.rule? x.kind = some rule)
    (step : rule x [v] between = .ok (w, after)) : transform rules x supply = .ok (w, after) := by
  obtain ⟨memo, below⟩ := transform_ok.mp run
  have applied : applyRule rules x [v] memo between = .ok ((w, memo), after) :=
    apply_rule_runs found step
  refine transform_ok.mpr ⟨memo.insert x w, ?_⟩
  cases x with
  | terminal data => cases only
  | node op operands shape free =>
      obtain rfl : operands = [o] := only
      refine memoized_new Std.HashMap.getElem?_empty (state_bind_ok.mpr ⟨[v], memo, between, ?_, applied⟩)
      exact state_bind_ok.mpr ⟨v, memo, between, below, rfl⟩
  | labelled label body =>
      obtain rfl : body = o := List.singleton_inj.mp only
      exact memoized_new Std.HashMap.getElem?_empty (state_bind_ok.mpr ⟨v, memo, between, below, applied⟩)

section Reuse

variable [Folding] {x v : Expr} {values : List Expr}

/-- An expression is reused, or rebuilt from its new operands. -/
theorem reuse_cases (run : x.reuse values supply = .ok (v, after)) :
    (x.hasOperands values = true ∧ v = x ∧ after = supply) ∨
      x.reconstruct values supply = .ok (v, after) := by
  unfold reuse reuseOr at run
  split at run
  · obtain ⟨rfl, rfl⟩ := (Fresh.pure_ok _ _).mp run
    exact .inl ⟨‹_›, rfl, rfl⟩
  · exact .inr ((Fresh.map_error_ok _ _ _).mp run)

/-- What the new operands of an expression make. -/
inductive Rebuilt (values : List Expr) (supply after : Supply) : Expr → Expr → Prop
  | terminal (data : Terminal) : supply = after →
      Rebuilt values supply after (.terminal data) (.terminal data)
  | node {op : Operator} {operands : List Expr} {shape : Shape} {free : FreeIndices} {v : Expr} :
      op.build values supply = .ok (v, after) →
      Rebuilt values supply after (.node op operands shape free) v
  | labelled {label : Label} {body value : Expr} : values = [value] →
      Rebuilt values supply after (.labelled label body) (.labelled label value)

theorem reconstruct_cases (run : x.reconstruct values supply = .ok (v, after)) :
    Rebuilt values supply after x v := by
  unfold reconstruct at run
  by_cases length : values.length = x.operands.length
  · simp only [length, ne_eq, not_true_eq_false, if_false] at run
    cases x with
    | terminal data =>
        obtain ⟨rfl, rfl⟩ := (Fresh.pure_ok _ _).mp run
        exact .terminal data rfl
    | node op operands shape free => exact .node run
    | labelled label body =>
        obtain ⟨value, rfl⟩ := List.length_eq_one_iff.mp length
        obtain ⟨_, rfl⟩ := with_label_cases ((Fresh.lift_ok _ _).mp run).1
        exact .labelled rfl
  · simp [length] at run

end Reuse

end Expr

end FormCalculus
