import Mathlib.Order.Defs.PartialOrder
import FormCalculus.Proofs.Equality
import FormCalculus.Rewrite

/-!
Bottom-up passes that keep a state. What the values of a pass satisfy may depend on what the pass
has decided so far, as long as later decisions leave it true.
-/
set_option autoImplicit false

namespace FormCalculus

variable {ε α β : Type}

/-- The result, if there is one, satisfies `post`; if `total`, there is one. -/
def Ends (total : Prop) (result : Except ε α) (post : α → Prop) : Prop :=
  match result with
  | .ok value => post value
  | .error _ => ¬ total

theorem Ends.mono {total : Prop} {result : Except ε α} {post post' : α → Prop}
    (ends : Ends total result post) (imp : ∀ value, post value → post' value) :
    Ends total result post' := by
  cases result with
  | ok value => exact imp value ends
  | error e => exact ends

theorem Ends.of_ok {total : Prop} {result : Except ε α} {post : α → Prop} {value : α}
    (ends : Ends total result post) (run : result = .ok value) : post value := by
  rw [run] at ends
  exact ends

theorem ends_eq {result : Except ε α} {value : α} :
    Ends True result (· = value) ↔ result = .ok value := by
  cases result with
  | ok other => exact ⟨congrArg _, Except.ok.inj⟩
  | error e => exact ⟨fun fails => absurd trivial fails, nofun⟩

theorem ends_bind {total : Prop} {act : Except ε α} {next : α → Except ε β} {post : β → Prop} :
    Ends total (act >>= next) post ↔ Ends total act fun value => Ends total (next value) post := by
  cases act with
  | ok value => exact Iff.rfl
  | error e => exact Iff.rfl

/-- A result without the last state comes with one. -/
theorem run_state_ok {σ : Type} {act : StateT σ (Fresh ε) α} {s : σ} {supply after : Supply} {r : α}
    (run : act.run' s supply = .ok (r, after)) : ∃ s', act s supply = .ok ((r, s'), after) := by
  have run : (act s >>= fun pair => pure pair.1) supply = .ok (r, after) := run
  obtain ⟨⟨value, s'⟩, _, ran, last⟩ := (Fresh.bind_ok _ _ _).mp run
  obtain ⟨rfl, rfl⟩ := (Fresh.pure_ok _ _).mp last
  exact ⟨s', ran⟩

namespace Expr

variable {σ W : Type} [Preorder W]

/-- What every rule of a pass over `e` keeps: values hold, the state is ready for the next rule. -/
structure Upkeep (rules : Rules (StateT σ (Fresh TransformError)) α) (e : Expr) (total : Prop)
    (holds : W → Expr → α → Prop) (ready : W → σ → Supply → Prop) : Prop where
  grows : ∀ {w w' : W} {x : Expr} {v : α}, w ≤ w' → holds w x v → holds w' x v
  /-- Equal expressions share the value of the one met first. -/
  alike : ∀ {w : W} {s : σ} {supply : Supply} {x y : Expr} {v : α}, ready w s supply →
    Within x e → Within y e → (x == y) = true → holds w x v → holds w y v
  rule : ∀ {w : W} {s : σ} {supply : Supply} {x : Expr} {values : List α}, Within x e →
    List.Forall₂ (holds w) x.operands values → ready w s supply →
    ∃ rule, rules.rule? x.kind = some rule ∧ Ends total (rule x values s supply) fun result =>
      ∃ w', w ≤ w' ∧ holds w' x result.1.1 ∧ ready w' result.1.2 result.2

/-- What the memo has for expressions below `e` holds. -/
def Recalls (e : Expr) (holds : Expr → α → Prop) (memo : Memo α) : Prop :=
  ∀ x v, Within x e → memo[x]? = some v → holds x v

section

variable {rules : Rules (StateT σ (Fresh TransformError)) α} {e : Expr} {total : Prop}
  {holds : W → Expr → α → Prop} {ready : W → σ → Supply → Prop}

theorem Recalls.grows (upkeep : Upkeep rules e total holds ready) {w w' : W} {memo : Memo α}
    (later : w ≤ w') (known : Recalls e (holds w) memo) : Recalls e (holds w') memo :=
  fun x v inside found => upkeep.grows later (known x v inside found)

theorem Recalls.insert (upkeep : Upkeep rules e total holds ready) {w : W} {s : σ} {supply : Supply}
    {memo : Memo α} {x : Expr} {v : α} (start : ready w s supply) (known : Recalls e (holds w) memo)
    (inside : Within x e) (kept : holds w x v) : Recalls e (holds w) (memo.insert x v) := by
  intro y w within found
  rw [Std.HashMap.getElem?_insert] at found
  by_cases same : (x == y) = true
  · rw [if_pos same] at found
    cases found
    exact upkeep.alike start inside within same kept
  · rw [if_neg same] at found
    exact known y w within found

/-- How working a value out ends. -/
def Finishes (e : Expr) (holds : W → Expr → α → Prop) (ready : W → σ → Supply → Prop) (w : W)
    {γ : Type} (kept : W → γ → Prop) (result : ((γ × Memo α) × σ) × Supply) : Prop :=
  ∃ w', w ≤ w' ∧ kept w' result.1.1.1 ∧ Recalls e (holds w') result.1.1.2 ∧
    ready w' result.1.2 result.2

/-- One visit: the memo answers, or the rule runs on the values of the operands. -/
def VisitEnds (rules : Rules (StateT σ (Fresh TransformError)) α) (e : Expr) (total : Prop)
    (holds : W → Expr → α → Prop) (ready : W → σ → Supply → Prop) (x : Expr) : Prop :=
  ∀ w memo s supply, Recalls e (holds w) memo → ready w s supply →
    Ends total (transformIn rules x memo s supply)
      (Finishes e holds ready w fun w v => holds w x v)

theorem transform_all_ends (upkeep : Upkeep rules e total holds ready) {operands : List Expr}
    (visits : ∀ o ∈ operands, VisitEnds rules e total holds ready o) (w : W) (memo : Memo α) (s : σ)
    (supply : Supply) (known : Recalls e (holds w) memo) (start : ready w s supply) :
    Ends total (transformAll rules operands memo s supply)
      (Finishes e holds ready w fun w values => List.Forall₂ (holds w) operands values) := by
  induction operands generalizing w memo s supply with
  | nil => exact ⟨w, le_refl w, .nil, known, start⟩
  | cons o rest ih =>
      obtain ⟨visit, others⟩ := List.forall_mem_cons.mp visits
      refine ends_bind.mpr ((visit w memo s supply known start).mono ?_)
      rintro ⟨⟨⟨value, memo⟩, s⟩, supply⟩ ⟨w', later, first, known, start⟩
      refine ends_bind.mpr ((ih others w' memo s supply known start).mono ?_)
      rintro ⟨⟨⟨values, memo⟩, s⟩, supply⟩ ⟨w'', later', rests, known, start⟩
      exact ⟨w'', le_trans later later', .cons (upkeep.grows later' first) rests, known, start⟩

theorem apply_rule_ends (upkeep : Upkeep rules e total holds ready) {x : Expr} (inside : Within x e)
    {w : W} {memo : Memo α} {s : σ} {supply : Supply} {values : List α}
    (known : Recalls e (holds w) memo) (start : ready w s supply)
    (below : List.Forall₂ (holds w) x.operands values) :
    Ends total (applyRule rules x values memo s supply)
      (Finishes e holds ready w fun w v => holds w x v) := by
  obtain ⟨rule, found, ends⟩ := upkeep.rule inside below start
  unfold applyRule
  rw [found]
  refine ends_bind.mpr (ends.mono ?_)
  rintro ⟨⟨value, s⟩, supply⟩ ⟨w', later, kept, start⟩
  exact ⟨w', later, kept, known.grows upkeep later, start⟩

theorem memoized_ends (upkeep : Upkeep rules e total holds ready) {x : Expr} (inside : Within x e)
    {act : StateT (Memo α) (StateT σ (Fresh TransformError)) α} {w : W} {memo : Memo α} {s : σ}
    {supply : Supply} (known : Recalls e (holds w) memo) (start : ready w s supply)
    (ends : Ends total (act memo s supply) (Finishes e holds ready w fun w v => holds w x v)) :
    Ends total (memoized x act memo s supply) (Finishes e holds ready w fun w v => holds w x v) := by
  unfold memoized
  cases found : memo[x]? with
  | some value => exact ⟨w, le_refl w, known x value inside found, known, start⟩
  | none =>
      refine ends_bind.mpr (ends.mono ?_)
      rintro ⟨⟨⟨value, memo⟩, s⟩, supply⟩ ⟨w', later, kept, known, start⟩
      exact ⟨w', later, kept, known.insert upkeep start inside kept, start⟩

theorem visit_ends (upkeep : Upkeep rules e total holds ready) (x : Expr) (inside : Within x e) :
    VisitEnds rules e total holds ready x := by
  induction x with
  | terminal data =>
      intro w memo s supply known start
      exact memoized_ends upkeep inside known start (apply_rule_ends upkeep inside known start .nil)
  | node op operands shape free ih =>
      intro w memo s supply known start
      refine memoized_ends upkeep inside known start (ends_bind.mpr ?_)
      have visits : ∀ o ∈ operands, VisitEnds rules e total holds ready o := fun o member =>
        ih o member ((Within.operand member).trans inside)
      refine (transform_all_ends upkeep visits w memo s supply known start).mono ?_
      rintro ⟨⟨⟨values, memo⟩, s⟩, supply⟩ ⟨w', later, below, known, start⟩
      refine (apply_rule_ends upkeep inside known start below).mono ?_
      rintro result ⟨w'', later', rest⟩
      exact ⟨w'', le_trans later later', rest⟩
  | labelled label body ih =>
      intro w memo s supply known start
      refine memoized_ends upkeep inside known start (ends_bind.mpr ?_)
      have visit := ih ((Within.operand List.mem_cons_self).trans inside)
      refine (visit w memo s supply known start).mono ?_
      rintro ⟨⟨⟨value, memo⟩, s⟩, supply⟩ ⟨w', later, first, known, start⟩
      refine (apply_rule_ends upkeep inside known start (.cons first .nil)).mono ?_
      rintro result ⟨w'', later', rest⟩
      exact ⟨w'', le_trans later later', rest⟩

/-- What each rule keeps a whole pass keeps. -/
theorem transform_ends (upkeep : Upkeep rules e total holds ready) {w : W} {s : σ} {supply : Supply}
    (start : ready w s supply) :
    Ends total (transform rules e s supply) fun result =>
      ∃ w', w ≤ w' ∧ holds w' e result.1.1 ∧ ready w' result.1.2 result.2 := by
  have empty : Recalls e (holds w) (∅ : Memo α) := fun x v _ found => by simp at found
  have ends := visit_ends upkeep e (.refl e) w ∅ s supply empty start
  show Ends total ((transformIn rules e ∅ >>= fun pair => pure pair.1) s supply) _
  refine ends_bind.mpr (ends.mono ?_)
  rintro ⟨⟨⟨value, memo⟩, s⟩, supply⟩ ⟨w', later, kept, _, start⟩
  exact ⟨w', later, kept, start⟩

end

/-! The steps of a pass, one visit at a time. -/

section

variable {rules : Rules (StateT σ (Fresh TransformError)) α} {x o : Expr} {rest : List Expr} {v : α}
  {values : List α} {memo memo' memo'' : Memo α} {s s' s'' : σ} {supply supply' supply'' : Supply}
  {rule : Rule (StateT σ (Fresh TransformError)) α}

theorem visit_known (known : memo[x]? = some v) :
    transformIn rules x memo s supply = .ok (((v, memo), s), supply) := by
  cases x <;> simp only [transformIn, memoized, known] <;> rfl

/-- What is not in the memo is visited after its operands. -/
theorem visit_new (new : memo[x]? = none)
    (below : transformAll rules x.operands memo s supply = .ok (((values, memo'), s'), supply'))
    (found : rules.rule? x.kind = some rule)
    (step : rule x values s' supply' = .ok ((v, s''), supply'')) :
    transformIn rules x memo s supply = .ok (((v, memo'.insert x v), s''), supply'') := by
  have applied : applyRule rules x values memo' s' supply' = .ok (((v, memo'), s''), supply'') := by
    unfold applyRule
    rw [found]
    show (rule x values s' supply' >>= fun result => _) = _
    rw [step]
    rfl
  have visited {act : StateT (Memo α) (StateT σ (Fresh TransformError)) α}
      (run : act memo s supply = .ok (((v, memo'), s''), supply'')) :
      memoized x act memo s supply = .ok (((v, memo'.insert x v), s''), supply'') := by
    unfold memoized
    simp only [new]
    show (act memo s supply >>= fun result => _) = _
    rw [run]
    rfl
  cases x with
  | terminal data =>
      cases below
      exact visited applied
  | node op operands shape free =>
      refine visited ?_
      show (transformAll rules operands memo s supply >>= fun result => _) = _
      rw [show transformAll rules operands memo s supply = _ from below]
      exact applied
  | labelled label body =>
      refine visited ?_
      have below : transformAll rules [body] memo s supply = _ := below
      show (transformIn rules body memo s supply >>= fun result => _) = _
      change (transformIn rules body memo s supply >>= fun result => _) = _ at below
      cases first : transformIn rules body memo s supply with
      | error err =>
          rw [first] at below
          cases below
      | ok result =>
          rw [first] at below
          cases below
          exact applied

theorem visit_all_cons (first : transformIn rules o memo s supply = .ok (((v, memo'), s'), supply'))
    (others : transformAll rules rest memo' s' supply' = .ok (((values, memo''), s''), supply'')) :
    transformAll rules (o :: rest) memo s supply =
      .ok (((v :: values, memo''), s''), supply'') := by
  show (transformIn rules o memo s supply >>= fun result => _) = _
  rw [first]
  show (transformAll rules rest memo' s' supply' >>= fun result => _) = _
  rw [others]
  rfl

theorem transform_runs (run : transformIn rules x ∅ s supply = .ok (((v, memo), s'), supply')) :
    transform rules x s supply = .ok ((v, s'), supply') := by
  show (transformIn rules x ∅ s supply >>= fun result => _) = _
  rw [run]
  rfl

end

end Expr

end FormCalculus
