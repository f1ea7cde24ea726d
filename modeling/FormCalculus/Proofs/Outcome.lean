import FormCalculus.Symbol
import Mathlib.Data.List.Forall2

/-!
What a successful run says about its parts: each step of it succeeded, and hands its result and
its supply to the next one.
-/
set_option autoImplicit false

namespace FormCalculus

variable {ε δ α β : Type}

/-- In lists of one length every element has a partner. -/
theorem partner_left {xs : List α} {ys : List β} (length : xs.length = ys.length) {y : β}
    (member : y ∈ ys) : ∃ x, (x, y) ∈ xs.zip ys := by
  obtain ⟨place, small, rfl⟩ := List.mem_iff_getElem.mp member
  have small' : place < xs.length := length ▸ small
  refine ⟨xs[place], List.mem_iff_getElem.mpr ⟨place, ?_, List.getElem_zip⟩⟩
  rw [List.length_zip]
  omega

theorem partner_right {xs : List α} {ys : List β} (length : xs.length = ys.length) {x : α}
    (member : x ∈ xs) : ∃ y, (x, y) ∈ xs.zip ys := by
  obtain ⟨place, small, rfl⟩ := List.mem_iff_getElem.mp member
  have small' : place < ys.length := length ▸ small
  refine ⟨ys[place], List.mem_iff_getElem.mpr ⟨place, ?_, List.getElem_zip⟩⟩
  rw [List.length_zip]
  omega

theorem pairs_imp {R S : α → β → Prop} {xs : List α} {ys : List β} (pairs : List.Forall₂ R xs ys)
    (imp : ∀ x ∈ xs, ∀ y, R x y → S x y) : List.Forall₂ S xs ys := by
  refine List.forall₂_iff_zip.mpr ⟨pairs.length_eq, fun {x y} pair => ?_⟩
  exact imp x (List.of_mem_zip pair).1 y (List.forall₂_zip pairs pair)

theorem map_eq_of_pairs {γ : Type} {f : α → γ} {g : β → γ} {xs : List α} {ys : List β}
    (length : xs.length = ys.length) (same : ∀ x y, (x, y) ∈ xs.zip ys → f x = g y) :
    xs.map f = ys.map g := by
  induction xs generalizing ys with
  | nil =>
      cases ys with
      | nil => rfl
      | cons y ys => cases length
  | cons x xs ih =>
      cases ys with
      | nil => cases length
      | cons y ys =>
          rw [List.map_cons, List.map_cons, same x y List.mem_cons_self,
            ih (Nat.succ.inj length) fun a b member => same a b (List.mem_cons_of_mem _ member)]

section Pairs

variable {R : α → β → Prop} {a b c : α} {ys : List β}

theorem pairs_one (pairs : List.Forall₂ R [a] ys) : ∃ y, ys = [y] ∧ R a y := by
  obtain _ | ⟨first, _ | _⟩ := pairs
  exact ⟨_, rfl, first⟩

theorem pairs_two (pairs : List.Forall₂ R [a, b] ys) : ∃ y z, ys = [y, z] ∧ R a y ∧ R b z := by
  obtain _ | ⟨first, rest⟩ := pairs
  obtain ⟨z, rfl, second⟩ := pairs_one rest
  exact ⟨_, z, rfl, first, second⟩

theorem pairs_three (pairs : List.Forall₂ R [a, b, c] ys) :
    ∃ x y z, ys = [x, y, z] ∧ R a x ∧ R b y ∧ R c z := by
  obtain _ | ⟨first, rest⟩ := pairs
  obtain ⟨y, z, rfl, second, third⟩ := pairs_two rest
  exact ⟨_, y, z, rfl, first, second, third⟩

theorem pairs_of_one {xs : List α} (pairs : List.Forall₂ R xs ys) (length : xs.length = 1) :
    ∃ x y, xs = [x] ∧ ys = [y] ∧ R x y := by
  obtain ⟨x, rfl⟩ := List.length_eq_one_iff.mp length
  obtain ⟨y, rfl, related⟩ := pairs_one pairs
  exact ⟨x, y, rfl, rfl, related⟩

theorem pairs_of_two {xs : List α} (pairs : List.Forall₂ R xs ys) (length : xs.length = 2) :
    ∃ x x' y y', xs = [x, x'] ∧ ys = [y, y'] ∧ R x y ∧ R x' y' := by
  obtain ⟨x, x', rfl⟩ := List.length_eq_two.mp length
  obtain ⟨y, y', rfl, related, related'⟩ := pairs_two pairs
  exact ⟨x, x', y, y', rfl, rfl, related, related'⟩

theorem pairs_member {xs : List α} (pairs : List.Forall₂ R xs ys) {y : β} (member : y ∈ ys) :
    ∃ x ∈ xs, R x y := by
  obtain ⟨x, pair⟩ := partner_left pairs.length_eq member
  exact ⟨x, (List.of_mem_zip pair).1, List.forall₂_zip pairs pair⟩

theorem pairs_exist {xs : List α} (found : ∀ x ∈ xs, ∃ y, R x y) :
    ∃ ys, List.Forall₂ R xs ys := by
  induction xs with
  | nil => exact ⟨[], .nil⟩
  | cons x xs ih =>
      obtain ⟨⟨y, first⟩, others⟩ := List.forall_mem_cons.mp found
      obtain ⟨ys, rest⟩ := ih others
      exact ⟨y :: ys, .cons first rest⟩

end Pairs

section Except

@[simp] theorem except_pure_ok (a r : α) : (pure a : Except ε α) = .ok r ↔ a = r := by
  show Except.ok a = Except.ok r ↔ _
  simp

@[simp] theorem except_throw_not_ok (e : ε) (r : α) : (throw e : Except ε α) = .ok r ↔ False := by
  show Except.error e = Except.ok r ↔ _
  simp

@[simp] theorem except_bind_ok (act : Except ε α) (next : α → Except ε β) (r : β) :
    (act >>= next) = .ok r ↔ ∃ a, act = .ok a ∧ next a = .ok r := by
  cases act with
  | error e => exact ⟨nofun, nofun⟩
  | ok a => exact ⟨fun run => ⟨a, rfl, run⟩, fun ⟨_, same, run⟩ => Except.ok.inj same ▸ run⟩

theorem except_bind_pure_ok (act : Except ε α) (f : α → β) (r : β) :
    (act >>= fun a => pure (f a)) = .ok r ↔ ∃ a, act = .ok a ∧ f a = r := by
  simp only [except_bind_ok, except_pure_ok]

theorem except_bind_error (act : Except ε α) (next : α → Except ε β) (e : ε) :
    (act >>= next) = .error e ↔ act = .error e ∨ ∃ a, act = .ok a ∧ next a = .error e := by
  cases act with
  | error e => exact ⟨fun run => .inl (congrArg Except.error (Except.error.inj run)),
      fun either => either.elim (fun run => congrArg Except.error (Except.error.inj run)) nofun⟩
  | ok a => exact ⟨fun run => .inr ⟨a, rfl, run⟩, fun either => either.elim nofun
      fun ⟨_, same, run⟩ => Except.ok.inj same ▸ run⟩

theorem except_ok_bind (a : α) (next : α → Except ε β) : (Except.ok a >>= next) = next a := rfl

@[simp] theorem except_map_ok (f : α → β) (act : Except ε α) (r : β) :
    (f <$> act) = .ok r ↔ ∃ a, act = .ok a ∧ f a = r := by
  cases act with
  | error e => exact ⟨nofun, nofun⟩
  | ok a => exact ⟨fun run => ⟨a, rfl, Except.ok.inj run⟩,
      fun ⟨_, same, run⟩ => Except.ok.inj same ▸ congrArg Except.ok run⟩

@[simp] theorem except_map_error_ok (f : ε → δ) (act : Except ε α) (r : α) :
    act.mapError f = .ok r ↔ act = .ok r := by
  cases act with
  | error e => exact ⟨nofun, nofun⟩
  | ok a => simp [Except.mapError]

theorem except_map_error_error (f : ε → δ) (act : Except ε α) (e : δ) :
    act.mapError f = .error e ↔ ∃ cause, act = .error cause ∧ f cause = e := by
  cases act <;> simp [Except.mapError]

theorem except_if_ok {p : Prop} [Decidable p] {stop go : Except ε α} {r : α}
    (stops : ∀ r, stop ≠ .ok r) (run : (if p then stop else go) = .ok r) : ¬ p ∧ go = .ok r := by
  by_cases holds : p
  · rw [if_pos holds] at run
    exact absurd run (stops r)
  · rw [if_neg holds] at run
    exact ⟨holds, run⟩

/-- What holds at the start of a fold and is kept by each step holds at its end. -/
theorem foldlM_keeps {kept : β → Prop} {step : β → α → Except ε β} {list : List α} {start r : β}
    (holds : kept start) (keeps : ∀ b a next, a ∈ list → kept b → step b a = .ok next → kept next)
    (run : list.foldlM step start = .ok r) : kept r := by
  induction list generalizing start with
  | nil => exact (except_pure_ok _ _).mp run ▸ holds
  | cons head rest ih =>
      rw [List.foldlM_cons, except_bind_ok] at run
      obtain ⟨middle, first, others⟩ := run
      exact ih (keeps start head middle List.mem_cons_self holds first)
        (fun b a next member => keeps b a next (List.mem_cons_of_mem _ member)) others

theorem mapM_ok {f : α → Except ε β} {xs : List α} {ys : List β} (run : xs.mapM f = .ok ys) :
    List.Forall₂ (fun x y => f x = .ok y) xs ys := by
  induction xs generalizing ys with
  | nil => exact (except_pure_ok _ _).mp run ▸ .nil
  | cons x xs ih =>
      simp only [List.mapM_cons, except_bind_ok, except_pure_ok] at run
      obtain ⟨y, first, rest, others, rfl⟩ := run
      exact .cons first (ih others)

theorem mapM_of_pairs {f : α → Except ε β} {xs : List α} {ys : List β}
    (pairs : List.Forall₂ (fun x y => f x = .ok y) xs ys) : xs.mapM f = .ok ys := by
  induction pairs with
  | nil => rfl
  | cons first _ ih => rw [List.mapM_cons, first, except_ok_bind, ih, except_ok_bind, except_pure_ok]

theorem mapM_error {f : α → Except ε β} {xs : List α} {e : ε} (run : xs.mapM f = .error e) :
    ∃ x ∈ xs, f x = .error e := by
  induction xs with
  | nil => cases run
  | cons x xs ih =>
      rw [List.mapM_cons] at run
      obtain failed | ⟨y, _, run⟩ := (except_bind_error _ _ _).mp run
      · exact ⟨x, List.mem_cons_self, failed⟩
      obtain failed | ⟨ys, _, run⟩ := (except_bind_error _ _ _).mp run
      · obtain ⟨z, member, failed⟩ := ih failed
        exact ⟨z, List.mem_cons_of_mem _ member, failed⟩
      · cases run

theorem mapM_total {f : α → Except ε β} {xs : List α} (runs : ∀ x ∈ xs, ∃ y, f x = .ok y) :
    ∃ ys, xs.mapM f = .ok ys := by
  cases run : xs.mapM f with
  | ok ys => exact ⟨ys, rfl⟩
  | error e =>
      obtain ⟨x, member, failed⟩ := mapM_error run
      obtain ⟨y, found⟩ := runs x member
      cases failed.symm.trans found

/-- Every result comes from the element at its place. -/
theorem mapM_get {f : α → Except ε β} {xs : List α} {ys : List β} {place : Nat} {y : β}
    (run : xs.mapM f = .ok ys) (found : ys[place]? = some y) :
    ∃ x, xs[place]? = some x ∧ f x = .ok y := by
  have pairs := mapM_ok run
  obtain ⟨small, rfl⟩ := List.getElem?_eq_some_iff.mp found
  have small' : place < xs.length := pairs.length_eq ▸ small
  exact ⟨xs[place], List.getElem?_eq_getElem small', pairs.get small' small⟩

end Except

namespace Fresh

variable {supply after : Supply}

@[simp] theorem pure_ok (a r : α) :
    (pure a : Fresh ε α) supply = .ok (r, after) ↔ a = r ∧ supply = after := by
  show Except.ok (a, supply) = Except.ok (r, after) ↔ _
  simp

@[simp] theorem throw_not_ok (e : ε) (r : α) :
    (throw e : Fresh ε α) supply = .ok (r, after) ↔ False := by
  show Except.error e = Except.ok (r, after) ↔ _
  simp

@[simp] theorem bind_ok (act : Fresh ε α) (next : α → Fresh ε β) (r : β) :
    (act >>= next) supply = .ok (r, after) ↔
      ∃ a between, act supply = .ok (a, between) ∧ next a between = .ok (r, after) := by
  show (act supply >>= fun pair => next pair.1 pair.2) = .ok (r, after) ↔ _
  simp only [except_bind_ok, Prod.exists]

@[simp] theorem lift_ok (act : Except ε α) (r : α) :
    (liftM act : Fresh ε α) supply = .ok (r, after) ↔ act = .ok r ∧ supply = after := by
  show (act >>= fun a => pure (a, supply)) = .ok (r, after) ↔ _
  simp only [except_bind_ok, except_pure_ok, Prod.mk.injEq]
  exact ⟨fun ⟨_, run, same, unchanged⟩ => ⟨same ▸ run, unchanged⟩,
    fun ⟨run, unchanged⟩ => ⟨r, run, rfl, unchanged⟩⟩

@[simp] theorem map_error_ok (f : ε → δ) (act : Fresh ε α) (r : α) :
    Fresh.mapError f act supply = .ok (r, after) ↔ act supply = .ok (r, after) :=
  except_map_error_ok f (act supply) (r, after)

@[simp] theorem new_index_ok (index : Index) :
    (newIndex : Fresh ε Index) supply = .ok (index, after) ↔
      index = ⟨supply.index⟩ ∧ after = { supply with index := supply.index + 1 } := by
  simp [newIndex, eq_comm]

/-- The next `count` numbers of a supply, as indices. -/
def nextIndices (supply : Supply) (count : Nat) : List Index :=
  (List.range' supply.index count).map fun number => ⟨number⟩

@[simp] theorem new_indices_ok (count : Nat) (indices : List Index) :
    (newIndices count : Fresh ε (List Index)) supply = .ok (indices, after) ↔
      indices = nextIndices supply count ∧ after = { supply with index := supply.index + count } := by
  induction count generalizing supply indices with
  | zero => simp only [newIndices, pure_ok, nextIndices, List.range'_zero, List.map_nil,
      Nat.add_zero, @eq_comm _ _ indices, @eq_comm _ _ after]
  | succ count ih =>
      have further : supply.index + 1 + count = supply.index + (count + 1) := by omega
      simp only [newIndices, bind_ok, pure_ok, new_index_ok]
      constructor
      · rintro ⟨_, _, ⟨rfl, rfl⟩, rest, _, run, rfl, rfl⟩
        obtain ⟨rfl, rfl⟩ := ih rest |>.mp run
        exact ⟨by simp [nextIndices, List.range'_succ], by simp only [further]⟩
      · rintro ⟨rfl, rfl⟩
        exact ⟨_, _, ⟨rfl, rfl⟩, _, _, ih _ |>.mpr ⟨rfl, by simp only [further]⟩,
          by simp [nextIndices, List.range'_succ], rfl⟩

@[simp] theorem next_indices_length (supply : Supply) (count : Nat) :
    (nextIndices supply count).length = count := by
  simp [nextIndices]

/-- Taking some indices and then others is taking all of them at once. -/
theorem next_indices_add (supply : Supply) (m n : Nat) :
    nextIndices supply (m + n) =
      nextIndices supply m ++ nextIndices { supply with index := supply.index + m } n := by
  rw [nextIndices, nextIndices, nextIndices, ← List.map_append, List.range'_append_1]

theorem next_indices_distinct (supply : Supply) (count : Nat) :
    (nextIndices supply count).Nodup := by
  refine List.Pairwise.map _ ?_ (List.nodup_range' (s := supply.index) (n := count))
  intro a b different same
  exact different (congrArg Index.number same)

theorem next_indices_increasing (supply : Supply) {shape : List Nat} {count : Nat}
    (length : count = shape.length) :
    ((nextIndices supply count).zip shape).Pairwise fun a b => a.1.number < b.1.number := by
  have indices : (nextIndices supply count).Pairwise fun a b => a.number < b.number :=
    List.pairwise_map.mpr List.pairwise_lt_range'
  have firsts : ((nextIndices supply count).zip shape).map Prod.fst = nextIndices supply count :=
    List.map_fst_zip (by simp [length])
  rw [← firsts] at indices
  exact (List.pairwise_map (R := fun a b : Index => a.number < b.number)).mp indices

theorem next_indices_bounds {count : Nat} {index : Index} (member : index ∈ nextIndices supply count) :
    supply.index ≤ index.number ∧ index.number < supply.index + count := by
  obtain ⟨number, inside, rfl⟩ := List.mem_map.mp member
  simpa [List.mem_range'_1] using inside

/-- Indices are handed out and none is taken back; labels are left alone. -/
def Grows (act : Fresh ε α) : Prop :=
  ∀ s r s', act s = .ok (r, s') → s.index ≤ s'.index ∧ s'.label = s.label

theorem grows_pure (a : α) : Grows (pure a : Fresh ε α) := fun s r s' run => by
  obtain ⟨_, rfl⟩ := (pure_ok _ _).mp run
  exact ⟨Nat.le_refl _, rfl⟩

theorem grows_throw (e : ε) : Grows (throw e : Fresh ε α) := fun s r s' run => by
  simp at run

theorem grows_lift (act : Except ε α) : Grows (liftM act : Fresh ε α) := fun s r s' run => by
  obtain ⟨_, rfl⟩ := (lift_ok _ _).mp run
  exact ⟨Nat.le_refl _, rfl⟩

theorem grows_bind {act : Fresh ε α} {next : α → Fresh ε β} (first : Grows act)
    (others : ∀ a, Grows (next a)) : Grows (act >>= next) := fun s r s' run => by
  obtain ⟨a, between, ran, run⟩ := (bind_ok _ _ _).mp run
  obtain ⟨index, label⟩ := first s a between ran
  obtain ⟨index', label'⟩ := others a between r s' run
  exact ⟨Nat.le_trans index index', label'.trans label⟩

theorem grows_map_error {act : Fresh ε α} (grows : Grows act) (f : ε → δ) :
    Grows (Fresh.mapError f act) := fun s r s' run =>
  grows s r s' ((map_error_ok _ _ _).mp run)

theorem grows_index : Grows (newIndex : Fresh ε Index) := fun s r s' run => by
  obtain ⟨_, rfl⟩ := (new_index_ok _).mp run
  exact ⟨Nat.le_succ _, rfl⟩

theorem grows_indices (count : Nat) : Grows (newIndices count : Fresh ε (List Index)) :=
  fun s r s' run => by
    obtain ⟨_, rfl⟩ := (new_indices_ok _ _).mp run
    exact ⟨Nat.le_add_right _ _, rfl⟩

end Fresh

end FormCalculus
