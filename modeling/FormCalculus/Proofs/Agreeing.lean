import FormCalculus.Proofs.Outcome

/-!
Two runs of a computation that agree: both have results, which are related, or both fail, with
whatever error. Fresh names are taken from supplies that are related before and after.
-/
set_option autoImplicit false

namespace FormCalculus

variable {ε δ ε' δ' α β γ σ : Type} {R S : α → β → Prop}

/-- Both results are related, or both runs failed. -/
inductive Agree (R : α → β → Prop) : Except ε α → Except δ β → Prop
  | ok {a : α} {b : β} : R a b → Agree R (.ok a) (.ok b)
  | error {e : ε} {d : δ} : Agree R (.error e) (.error d)

namespace Agree

variable {act : Except ε α} {act' : Except δ β}

theorem pure {a : α} {b : β} (related : R a b) :
    Agree R (Pure.pure a : Except ε α) (Pure.pure b : Except δ β) := .ok related

theorem refl (act : Except ε α) : Agree Eq act act := by
  cases act with
  | ok => exact .ok rfl
  | error => exact .error

theorem mono (agree : Agree R act act') (imp : ∀ a b, R a b → S a b) : Agree S act act' := by
  cases agree with
  | ok related => exact .ok (imp _ _ related)
  | error => exact .error

theorem of_iff {act : Except ε α} {act' : Except δ α} (same : ∀ r, act = .ok r ↔ act' = .ok r) :
    Agree Eq act act' := by
  cases act with
  | ok r =>
      rw [(same r).mp rfl]
      exact .ok rfl
  | error =>
      cases act' with
      | ok r => cases (same r).mpr rfl
      | error => exact .error

theorem symm {act' : Except δ α} {act : Except ε α} (agree : Agree Eq act act') : Agree Eq act' act := by
  cases agree with
  | ok same => exact .ok same.symm
  | error => exact .error

theorem trans {T : β → γ → Prop} {act'' : Except ε' γ} (first : Agree R act act')
    (second : Agree T act' act'') : Agree (fun a c => ∃ b, R a b ∧ T b c) act act'' := by
  cases first with
  | ok related =>
      cases second with
      | ok related' => exact .ok ⟨_, related, related'⟩
  | error =>
      cases second with
      | error => exact .error

/-- What each run ensures of its result holds of the related ones. -/
theorem ensure {P : α → Prop} {Q : β → Prop} (agree : Agree R act act')
    (left : ∀ a, act = .ok a → P a) (right : ∀ b, act' = .ok b → Q b) :
    Agree (fun a b => R a b ∧ P a ∧ Q b) act act' := by
  cases agree with
  | ok related => exact .ok ⟨related, left _ rfl, right _ rfl⟩
  | error => exact .error

theorem bind {T : γ → σ → Prop} {next : α → Except ε γ} {next' : β → Except δ σ}
    (agree : Agree R act act') (others : ∀ a b, R a b → Agree T (next a) (next' b)) :
    Agree T (act >>= next) (act' >>= next') := by
  cases agree with
  | ok related => exact others _ _ related
  | error => exact .error

theorem mapError (f : ε → ε') (f' : δ → δ') (agree : Agree R act act') :
    Agree R (act.mapError f) (act'.mapError f') := by
  cases agree with
  | ok related => exact .ok related
  | error => exact .error

theorem ite {p p' : Prop} [Decidable p] [Decidable p'] {stop : Except ε α} {stop' : Except δ β}
    (same : p ↔ p') (yes : Agree R stop stop') (no : Agree R act act') :
    Agree R (if p then stop else act) (if p' then stop' else act') := by
  by_cases holds : p
  · rw [if_pos holds, if_pos (same.mp holds)]
    exact yes
  · rw [if_neg holds, if_neg fun holds' => holds (same.mpr holds')]
    exact no

/-- Both runs stop on the same condition. -/
theorem guard {p p' : Prop} [Decidable p] [Decidable p'] {e : ε} {d : δ}
    {next : PUnit → Except ε α} {next' : PUnit → Except δ β} (same : p ↔ p')
    (agree : Agree R (next ⟨⟩) (next' ⟨⟩)) :
    Agree R (if p then throw e >>= next else next ⟨⟩) (if p' then throw d >>= next' else next' ⟨⟩) :=
  .ite same .error agree

theorem mapM {T : γ → σ → Prop} {f : γ → Except ε α} {f' : σ → Except δ β} {xs : List γ}
    {ys : List σ} (pairs : List.Forall₂ T xs ys) (each : ∀ x y, T x y → Agree R (f x) (f' y)) :
    Agree (List.Forall₂ R) (xs.mapM f) (ys.mapM f') := by
  induction pairs with
  | nil => exact .pure .nil
  | cons first _ ih =>
      rw [List.mapM_cons, List.mapM_cons]
      exact (each _ _ first).bind fun _ _ head => ih.bind fun _ _ rest => .pure (.cons head rest)

/-- Two steps for each element of one list. -/
theorem mapM_same {f : γ → Except ε α} {f' : γ → Except δ β} (xs : List γ)
    (each : ∀ x, Agree R (f x) (f' x)) : Agree (List.Forall₂ R) (xs.mapM f) (xs.mapM f') :=
  .mapM (List.forall₂_same.mpr fun _ _ => rfl) fun x _ same => same ▸ each x

/-- The results of two lists go along if the lists do. -/
theorem mapM_mapped {f : γ → Except ε α} {f' : σ → Except δ β} {h : γ → σ} {k : α → β}
    (each : ∀ x, Agree (fun a b => b = k a) (f x) (f' (h x))) (xs : List γ) :
    Agree (fun as bs => bs = as.map k) (xs.mapM f) ((xs.map h).mapM f') := by
  induction xs with
  | nil => exact .pure rfl
  | cons x xs ih =>
      rw [List.map_cons, List.mapM_cons, List.mapM_cons]
      exact (each x).bind fun a _ head => ih.bind fun as _ rest => .pure (by rw [head, rest]; rfl)

theorem foldlM {T : γ → σ → Prop} {f : α → γ → Except ε α} {f' : β → σ → Except δ β} {xs : List γ}
    {ys : List σ} {a : α} {b : β} (pairs : List.Forall₂ T xs ys) (start : R a b)
    (step : ∀ a b x y, R a b → T x y → Agree R (f a x) (f' b y)) :
    Agree R (xs.foldlM f a) (ys.foldlM f' b) := by
  induction pairs generalizing a b with
  | nil => exact .pure start
  | cons first _ ih =>
      rw [List.foldlM_cons, List.foldlM_cons]
      exact (step _ _ _ _ start first).bind fun _ _ next => ih next

theorem foldlM_same {f : α → γ → Except ε α} {f' : β → γ → Except δ β} (xs : List γ) {a : α} {b : β}
    (start : R a b) (step : ∀ a b x, R a b → Agree R (f a x) (f' b x)) :
    Agree R (xs.foldlM f a) (xs.foldlM f' b) :=
  .foldlM (List.forall₂_same.mpr fun _ _ => rfl) start fun a b x _ related same => same ▸ step a b x related

/-- Two loops of checks that go along with each other. -/
theorem checks {T : γ → σ → Prop} {f : γ → PUnit → Except ε (ForInStep PUnit)}
    {f' : σ → PUnit → Except δ (ForInStep PUnit)} {xs : List γ} {ys : List σ}
    (pairs : List.Forall₂ T xs ys)
    (each : ∀ x y, T x y → Agree (fun r r' => r = .yield ⟨⟩ ∧ r' = .yield ⟨⟩) (f x ⟨⟩) (f' y ⟨⟩)) :
    Agree (fun _ _ => True) (forIn xs ⟨⟩ f) (forIn ys ⟨⟩ f') := by
  induction pairs with
  | nil => exact .pure trivial
  | cons first _ ih =>
      rw [List.forIn_cons, List.forIn_cons]
      refine (each _ _ first).bind fun r r' same => ?_
      obtain ⟨rfl, rfl⟩ := same
      exact ih

theorem eq_ok_iff {act : Except ε α} {act' : Except δ α} (agree : Agree Eq act act') (r : α) :
    act = .ok r ↔ act' = .ok r := by
  cases agree with
  | ok same => rw [same, Except.ok.injEq, Except.ok.injEq]
  | error => exact ⟨nofun, nofun⟩

end Agree

/-- Two runs agree, from any two related supplies on. -/
def FreshAgree (T : Supply → Supply → Prop) (R : α → β → Prop) (act : Fresh ε α)
    (act' : Fresh δ β) : Prop :=
  ∀ s s', T s s' → Agree (fun r r' => R r.1 r'.1 ∧ T r.2 r'.2) (act s) (act' s')

namespace FreshAgree

variable {T : Supply → Supply → Prop} {act : Fresh ε α} {act' : Fresh δ β}

theorem pure {a : α} {b : β} (related : R a b) :
    FreshAgree T R (Pure.pure a : Fresh ε α) (Pure.pure b : Fresh δ β) :=
  fun _ _ start => .ok ⟨related, start⟩

theorem throw (e : ε) (d : δ) : FreshAgree T R (throw e : Fresh ε α) (throw d : Fresh δ β) :=
  fun _ _ _ => .error

theorem lift {act : Except ε α} {act' : Except δ β} (agree : Agree R act act') :
    FreshAgree T R (liftM act : Fresh ε α) (liftM act' : Fresh δ β) := by
  intro s s' start
  cases agree with
  | ok related => exact .ok ⟨related, start⟩
  | error => exact .error

theorem bind {P : γ → σ → Prop} {next : α → Fresh ε γ} {next' : β → Fresh δ σ}
    (agree : FreshAgree T R act act') (others : ∀ a b, R a b → FreshAgree T P (next a) (next' b)) :
    FreshAgree T P (act >>= next) (act' >>= next') :=
  fun s s' start => (agree s s' start).bind fun _ _ related => others _ _ related.1 _ _ related.2

theorem mapError (f : ε → ε') (f' : δ → δ') (agree : FreshAgree T R act act') :
    FreshAgree T R (Fresh.mapError f act) (Fresh.mapError f' act') :=
  fun s s' start => (agree s s' start).mapError f f'

theorem ite {p p' : Prop} [Decidable p] [Decidable p'] {stop : Fresh ε α} {stop' : Fresh δ β}
    (same : p ↔ p') (yes : FreshAgree T R stop stop') (no : FreshAgree T R act act') :
    FreshAgree T R (if p then stop else act) (if p' then stop' else act') := by
  by_cases holds : p
  · rw [if_pos holds, if_pos (same.mp holds)]
    exact yes
  · rw [if_neg holds, if_neg fun holds' => holds (same.mpr holds')]
    exact no

end FreshAgree

end FormCalculus
