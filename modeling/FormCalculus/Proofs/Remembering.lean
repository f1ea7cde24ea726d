import FormCalculus.Proofs.Transforming

/-!
A pass remembers the values of the nodes it has met. Where one label stands for one body this
changes neither the value nor the first error: the pass does what its rules do when every
occurrence is visited anew.
-/
set_option autoImplicit false

namespace FormCalculus

/-! A computation with a state that does not show in its result. -/

section

variable {σ ε α β γ : Type} {known : σ → Prop}

/-- From every known state `act` ends as `result` says, and in a known state. -/
def Tracks (known : σ → Prop) (act : StateT σ (Except ε) α) (result : Except ε α) : Prop :=
  ∀ s, known s →
    match result with
    | .ok v => ∃ s', act s = .ok (v, s') ∧ known s'
    | .error e => act s = .error e

theorem tracks_pure (v : α) : Tracks known (pure v : StateT σ (Except ε) α) (.ok v) :=
  fun s start => ⟨s, rfl, start⟩

theorem tracks_throw (e : ε) : Tracks known (throw e : StateT σ (Except ε) α) (.error e) :=
  fun _ _ => rfl

theorem tracks_lift (result : Except ε α) :
    Tracks known (StateT.lift result : StateT σ (Except ε) α) result := by
  intro s start
  cases result with
  | ok v => exact ⟨s, rfl, start⟩
  | error e => rfl

theorem tracks_bind {act : StateT σ (Except ε) α} {result : Except ε α}
    {next : α → StateT σ (Except ε) β} {after : α → Except ε β} (first : Tracks known act result)
    (rest : ∀ v, Tracks known (next v) (after v)) :
    Tracks known (act >>= next) (result >>= after) := by
  intro s start
  have ran := first s start
  cases result with
  | ok v =>
      obtain ⟨s', run, start⟩ := ran
      have step : (act >>= next) s = next v s' := by
        show (act s >>= fun result => _) = _
        rw [run]
        rfl
      rw [step]
      exact rest v s' start
  | error e =>
      show (act s >>= fun result => _) = _
      rw [show act s = .error e from ran]
      rfl

theorem tracks_two {first : StateT σ (Except ε) α} {second : StateT σ (Except ε) β}
    {result : Except ε α} {result' : Except ε β} (f : α → β → γ)
    (left : Tracks known first result) (right : Tracks known second result') :
    Tracks known (do return f (← first) (← second)) (do return f (← result) (← result')) :=
  tracks_bind left fun v => tracks_bind right fun w => tracks_pure (f v w)

theorem tracks_run {act : StateT σ (Except ε) α} {result : Except ε α} {s : σ}
    (tracks : Tracks known act result) (start : known s) : act.run' s = result := by
  show (act s >>= fun pair => pure pair.1) = result
  have ran := tracks s start
  cases result with
  | ok v =>
      obtain ⟨s', run, _⟩ := ran
      rw [run]
      rfl
  | error e =>
      rw [show act s = .error e from ran]
      rfl

/-- A remembered value is the one that would be worked out. -/
theorem tracks_memoized {known : Memo α → Prop} {e : Expr} {act : StateT (Memo α) (Except ε) α}
    {result : Except ε α} (right : ∀ memo v, known memo → memo[e]? = some v → result = .ok v)
    (insert : ∀ memo v, known memo → result = .ok v → known (memo.insert e v))
    (tracks : Tracks known act result) : Tracks known (Expr.memoized e act) result := by
  intro memo start
  unfold Expr.memoized
  cases found : memo[e]? with
  | some value =>
      rw [right memo value start found]
      exact ⟨memo, rfl, start⟩
  | none =>
      have ran := tracks memo start
      cases ends : result with
      | error err =>
          rw [ends] at ran
          show (act memo >>= fun result => _) = _
          rw [show act memo = .error err from ran]
          rfl
      | ok value =>
          rw [ends] at ran
          obtain ⟨memo', run, start⟩ := ran
          refine ⟨memo'.insert e value, ?_, insert memo' value start ends⟩
          show (act memo >>= fun result => _) = _
          rw [run]
          rfl

end

namespace Expr

variable {α : Type} {rules : Rules (Except TransformError) α} {e x : Expr}

/-- What the rule for the kind of `e` makes of values of its operands. -/
def ruled (rules : Rules (Except TransformError) α) (e : Expr) (values : List α) :
    Except TransformError α :=
  match rules.rule? e.kind with
  | some rule => rule e values
  | none => .error (.missingHandler e)

mutual
/-- A pass that visits every occurrence of a node anew. -/
def revisit (rules : Rules (Except TransformError) α) : Expr → Except TransformError α
  | e@(.terminal _) => ruled rules e []
  | e@(.node _ operands _ _) => do ruled rules e (← revisitAll rules operands)
  | e@(.labelled _ body) => do ruled rules e [← revisit rules body]
def revisitAll (rules : Rules (Except TransformError) α) : List Expr → Except TransformError (List α)
  | [] => pure []
  | e :: rest => do
      let value ← revisit rules e
      return value :: (← revisitAll rules rest)
end

theorem revisit_all (operands : List Expr) :
    revisitAll rules operands = operands.mapM (revisit rules) := by
  induction operands with
  | nil => rfl
  | cons o rest ih => rw [revisitAll, List.mapM_cons, ih]

/-- The values of the operands, from left to right, then the rule. -/
theorem revisit_eq (e : Expr) :
    revisit rules e = e.operands.mapM (revisit rules) >>= ruled rules e := by
  cases e with
  | terminal data => rfl
  | node op operands shape free =>
      rw [revisit, revisit_all]
      rfl
  | labelled label body =>
      rw [revisit, Expr.operands, List.mapM_cons, List.mapM_nil]
      cases revisit rules body <;> rfl

theorem revisit_ok {r : α} :
    revisit rules e = .ok r ↔
      ∃ values, List.Forall₂ (fun o v => revisit rules o = .ok v) e.operands values ∧
        ruled rules e values = .ok r := by
  rw [revisit_eq, except_bind_ok]
  exact exists_congr fun values => and_congr_left' ⟨mapM_ok, mapM_of_pairs⟩

theorem tracks_rule {known : Memo α → Prop} (values : List α) :
    Tracks known (applyRule rules x values) (ruled rules x values) := by
  unfold applyRule ruled
  cases rules.rule? x.kind with
  | some rule => exact tracks_lift _
  | none => exact tracks_throw _

/-- What the memo has for expressions below `e` is what visiting them anew would give. -/
abbrev Revisited (rules : Rules (Except TransformError) α) (e : Expr) : Memo α → Prop :=
  Remembers e fun x v => revisit rules x = .ok v

theorem tracks_visit {act : StateT (Memo α) (Except TransformError) α}
    (consistent : Consistent e) (inside : Within x e)
    (tracks : Tracks (Revisited rules e) act (revisit rules x)) :
    Tracks (Revisited rules e) (memoized x act) (revisit rules x) :=
  tracks_memoized (fun _ _ known found => known x _ inside found)
    (fun _ _ known ends => known.insert (shares_of_consistent consistent) inside ends) tracks

theorem transform_all_tracks {operands : List Expr}
    (each : ∀ o ∈ operands, Tracks (Revisited rules e) (transformIn rules o) (revisit rules o)) :
    Tracks (Revisited rules e) (transformAll rules operands) (revisitAll rules operands) := by
  induction operands with
  | nil => exact tracks_pure []
  | cons o rest ih =>
      obtain ⟨first, others⟩ := List.forall_mem_cons.mp each
      rw [transformAll, revisitAll]
      exact tracks_two _ first (ih others)

theorem transform_in_tracks (consistent : Consistent e) (inside : Within x e) :
    Tracks (Revisited rules e) (transformIn rules x) (revisit rules x) := by
  induction x with
  | terminal data =>
      rw [transformIn]
      refine tracks_visit consistent inside ?_
      exact tracks_rule []
  | node op operands shape free ih =>
      rw [transformIn]
      refine tracks_visit consistent inside ?_
      rw [revisit]
      refine tracks_bind (transform_all_tracks fun o member => ?_) tracks_rule
      exact ih o member ((Within.operand member).trans inside)
  | labelled label body ih =>
      rw [transformIn]
      refine tracks_visit consistent inside ?_
      rw [revisit]
      exact tracks_bind (ih ((Within.operand List.mem_cons_self).trans inside)) fun v => tracks_rule [v]

/-- Remembering the values of nodes changes neither the value of an expression nor the error. -/
theorem transform_revisits (consistent : Consistent e) : transform rules e = revisit rules e :=
  tracks_run (transform_in_tracks consistent (.refl e)) fun x v _ found => by simp at found

end Expr

end FormCalculus
