import Mathlib.Algebra.GroupWithZero.Nat
import FormCalculus.Proofs.Occurring
import FormCalculus.Proofs.Remembering
import FormCalculus.Proofs.Stepping
import FormCalculus.Rewrite.Substitution

/-!
A pass and the walks over an expression. The error of a pass is the first one in post-order; a pass
that succeeds applies its rules once to each of the distinct nodes, and what it counts then are the
nodes of the expression written out as a tree.
-/
set_option autoImplicit false

namespace FormCalculus

open Runs

instance : Runs (Except TransformError) Unit where
  Ran act _ b _ := act = .ok b
  pure_ran := by simp
  bind_ran := by simp
  throw_not_ran := nofun

namespace Expr

/-- Induction over an expression where every kind of it goes the same way. -/
theorem induction_on_operands {motive : Expr → Prop}
    (step : ∀ e, (∀ o ∈ e.operands, motive o) → motive e) (e : Expr) : motive e := by
  induction e with
  | terminal data => exact step _ fun _ member => nomatch member
  | node op operands shape free ih => exact step _ ih
  | labelled label body ih => exact step _ fun o member => List.mem_singleton.mp member ▸ ih

/-! The post-order of a node is that of its operands, from left to right, and then the node. -/

namespace PostOrder

theorem to_list_end {walk : PostOrder} (step : walk.next? = none) : walk.toList = [] := by
  rw [toList]
  split
  · rfl
  · rename_i found
    cases step.symm.trans found

theorem to_list_step {walk rest : PostOrder} {x : Expr} (step : walk.next? = some (x, rest)) :
    walk.toList = x :: rest.toList := by
  rw [toList]
  split
  · rename_i found
    cases step.symm.trans found
  · rename_i found
    cases step.symm.trans found
    rfl

theorem to_list_nil : toList ⟨[]⟩ = [] :=
  to_list_end (by simp only [next?, descend])

theorem to_list_leave (x : Expr) (rest : List (Expr × List Expr)) :
    toList ⟨(x, []) :: rest⟩ = x :: toList ⟨rest⟩ :=
  to_list_step (by simp only [next?, descend])

theorem to_list_enter (x o : Expr) (others : List Expr) (rest : List (Expr × List Expr)) :
    toList ⟨(x, o :: others) :: rest⟩ = toList ⟨(o, o.operands) :: (x, others) :: rest⟩ := by
  have down : next? ⟨(x, o :: others) :: rest⟩ = next? ⟨(o, o.operands) :: (x, others) :: rest⟩ := by
    rw [next?, descend, next?]
  cases step : next? ⟨(o, o.operands) :: (x, others) :: rest⟩ with
  | none => rw [to_list_end (down.trans step), to_list_end step]
  | some found => rw [to_list_step (down.trans step), to_list_step step]

theorem to_list_operands {operands : List Expr} (x : Expr) (rest : List (Expr × List Expr))
    (each : ∀ o ∈ operands, ∀ rest, toList ⟨(o, o.operands) :: rest⟩ = postOrder o ++ toList ⟨rest⟩) :
    toList ⟨(x, operands) :: rest⟩ = operands.flatMap postOrder ++ x :: toList ⟨rest⟩ := by
  induction operands with
  | nil => exact to_list_leave x rest
  | cons o others ih =>
      obtain ⟨first, each⟩ := List.forall_mem_cons.mp each
      rw [to_list_enter, first, ih each, List.flatMap_cons, List.append_assoc]

/-- An open node comes before what is below it on the stack. -/
theorem to_list_open (e : Expr) (rest : List (Expr × List Expr)) :
    toList ⟨(e, e.operands) :: rest⟩ = postOrder e ++ toList ⟨rest⟩ := by
  induction e using induction_on_operands generalizing rest with
  | step e ih =>
      have each : ∀ o ∈ e.operands, ∀ rest,
          toList ⟨(o, o.operands) :: rest⟩ = postOrder o ++ toList ⟨rest⟩ := fun o member => ih o member
      rw [postOrder, start, to_list_operands e rest each, to_list_operands e [] each, to_list_nil,
        List.append_assoc]
      rfl

end PostOrder

variable {e x y : Expr}

theorem post_order_eq (e : Expr) : e.postOrder = e.operands.flatMap postOrder ++ [e] := by
  rw [postOrder, PostOrder.start, PostOrder.to_list_operands e [] fun o _ => PostOrder.to_list_open o,
    PostOrder.to_list_nil]

theorem mem_post_order : x ∈ e.postOrder ↔ Within x e := by
  induction e using induction_on_operands with
  | step e ih =>
      rw [post_order_eq, List.mem_append, List.mem_flatMap, List.mem_singleton]
      constructor
      · rintro (⟨o, member, inside⟩ | rfl)
        · exact .step member ((ih o member).mp inside)
        · exact .refl x
      · intro inside
        cases inside with
        | refl => exact .inr rfl
        | step member inside => exact .inl ⟨_, member, (ih _ member).mpr inside⟩

/-! The walk over distinct nodes meets none of them twice. -/

namespace Distinct

/-- No two expressions of the list are equal. -/
abbrev Apart (list : List Expr) : Prop := list.Pairwise fun x y => (x == y) = false

/-- What is on the stack has been seen, and is there once. -/
structure Sound (walk : Distinct) : Prop where
  apart : Apart walk.pending
  seen : ∀ x ∈ walk.pending, walk.seen.contains x = true

/-- What putting operands on the stack adds has not been seen before. -/
structure Added (walk after : Distinct) : Prop where
  sound : Sound after
  seen : ∀ x, walk.seen.contains x = true → after.seen.contains x = true
  new : ∀ x ∈ after.pending, x ∈ walk.pending ∨ walk.seen.contains x = false

theorem push_added (operands : List Expr) {pending : List Expr} {seen : Std.HashSet Expr}
    (sound : Sound ⟨pending, seen⟩) : Added ⟨pending, seen⟩ (push operands pending seen) := by
  induction operands with
  | nil => exact ⟨sound, fun _ => id, fun _ => .inl⟩
  | cons o rest ih =>
      simp only [push]
      split
      · exact ih
      · rename_i unseen
        rw [Bool.not_eq_true] at unseen
        refine ⟨⟨List.pairwise_cons.mpr ⟨fun y member => ?_, ih.sound.apart⟩, ?_⟩, ?_, ?_⟩
        · by_contra same
          rw [Bool.not_eq_false] at same
          rw [Std.HashSet.contains_congr same, ih.sound.seen y member] at unseen
          cases unseen
        · refine List.forall_mem_cons.mpr ⟨by simp, fun y member => ?_⟩
          simp [Std.HashSet.contains_insert, ih.sound.seen y member]
        · intro y found
          simp [Std.HashSet.contains_insert, ih.seen y found]
        · refine List.forall_mem_cons.mpr ⟨.inr ?_, ih.new⟩
          by_contra known
          rw [Bool.not_eq_false] at known
          rw [ih.seen o known] at unseen
          cases unseen

theorem to_list_apart (walk : Distinct) (sound : Sound walk) :
    Apart walk.toList ∧ ∀ x ∈ walk.toList, x ∈ walk.pending ∨ walk.seen.contains x = false := by
  induction walk using walk_induction with
  | ended seen =>
      rw [to_list_nil]
      exact ⟨.nil, nofun⟩
  | step x rest seen ih =>
      obtain ⟨others, apart⟩ := List.pairwise_cons.mp sound.apart
      obtain ⟨here, known⟩ := List.forall_mem_cons.mp sound.seen
      have added : Added ⟨rest, seen⟩ (push x.operands rest seen) := push_added _ ⟨apart, known⟩
      obtain ⟨below, fresh⟩ := ih added.sound
      -- What comes later was on the stack already, or is not seen before `x` has been.
      have later : ∀ y ∈ (push x.operands rest seen).toList, y ∈ rest ∨ seen.contains y = false := by
        intro y member
        rcases fresh y member with member | unseen
        · exact added.new y member
        · refine .inr (Bool.not_eq_true _ ▸ fun old => ?_)
          rw [added.seen y old] at unseen
          cases unseen
      rw [to_list_cons]
      refine ⟨List.pairwise_cons.mpr ⟨fun y member => ?_, below⟩, ?_⟩
      · rcases later y member with member | unseen
        · exact others y member
        · refine Bool.not_eq_true _ ▸ fun same => ?_
          rw [← Std.HashSet.contains_congr same, here] at unseen
          cases unseen
      · exact List.forall_mem_cons.mpr ⟨.inl List.mem_cons_self, fun y member =>
          (later y member).imp_left (List.mem_cons_of_mem _)⟩

end Distinct

theorem distinct_apart (e : Expr) : Distinct.Apart e.distinctNodes := by
  have start : Distinct.Sound (Distinct.start e) := ⟨List.pairwise_singleton _ _, by simp [Distinct.start]⟩
  exact (Distinct.to_list_apart _ start).1

theorem distinct_nodup (e : Expr) : e.distinctNodes.Nodup := by
  refine (distinct_apart e).imp fun apart equal => ?_
  rw [equal, same_refl] at apart
  cases apart

/-! The error of a pass is that of the first node, in post-order, that has one. -/

section Errors

variable {α : Type} {rules : Rules (Except TransformError) α} {err : TransformError}

/-- The operands of `x` have values, and its rule fails on them. -/
def FailsAt (rules : Rules (Except TransformError) α) (x : Expr) (err : TransformError) : Prop :=
  ∃ values, List.Forall₂ (fun o v => revisit rules o = .ok v) x.operands values ∧
    ruled rules x values = .error err

/-- No other error comes before `err` in the list. -/
def FirstError (rules : Rules (Except TransformError) α) (list : List Expr) (err : TransformError) :
    Prop :=
  ∃ before x after, list = before ++ x :: after ∧ (∀ y ∈ before, ∃ v, revisit rules y = .ok v) ∧
    FailsAt rules x err

theorem FailsAt.error (fails : FailsAt rules x err) : revisit rules x = .error err := by
  obtain ⟨values, below, failed⟩ := fails
  rw [revisit_eq, mapM_of_pairs below]
  exact failed

/-- Where an expression has a value, so has each part of it. -/
theorem revisit_within {v : α} (run : revisit rules e = .ok v) (inside : Within x e) :
    ∃ w, revisit rules x = .ok w := by
  induction inside generalizing v with
  | refl => exact ⟨v, run⟩
  | step member _ ih =>
      obtain ⟨values, below, _⟩ := revisit_ok.mp run
      obtain ⟨w, pair⟩ := partner_right below.length_eq member
      exact ih (List.forall₂_zip below pair)

theorem FirstError.between {list : List Expr} (first : FirstError rules list err)
    (before : List Expr) (known : ∀ y ∈ before, ∃ v, revisit rules y = .ok v) (after : List Expr) :
    FirstError rules (before ++ list ++ after) err := by
  obtain ⟨before', x, after', rfl, known', fails⟩ := first
  refine ⟨before ++ before', x, after' ++ after, by simp, fun y member => ?_, fails⟩
  exact (List.mem_append.mp member).elim (known y) (known' y)

theorem first_error_operands {operands : List Expr}
    (each : ∀ o ∈ operands, ∀ err, revisit rules o = .error err → FirstError rules o.postOrder err)
    (run : operands.mapM (revisit rules) = .error err) :
    FirstError rules (operands.flatMap postOrder) err := by
  induction operands with
  | nil => cases run
  | cons o rest ih =>
      obtain ⟨here, others⟩ := List.forall_mem_cons.mp each
      rw [List.flatMap_cons]
      rw [List.mapM_cons] at run
      obtain failed | ⟨v, ran, run⟩ := (except_bind_error _ _ _).mp run
      · exact (here err failed).between [] nofun _
      obtain failed | ⟨values, _, run⟩ := (except_bind_error _ _ _).mp run
      · have known : ∀ y ∈ o.postOrder, ∃ v, revisit rules y = .ok v :=
          fun y member => revisit_within ran (mem_post_order.mp member)
        simpa using (ih others failed).between o.postOrder known []
      · cases run

theorem revisit_first_error (run : revisit rules e = .error err) :
    FirstError rules e.postOrder err := by
  induction e using induction_on_operands generalizing err with
  | step e ih =>
      rw [post_order_eq]
      rw [revisit_eq] at run
      obtain failed | ⟨values, ran, failed⟩ := (except_bind_error _ _ _).mp run
      · exact (first_error_operands (fun o member err => ih o member) failed).between [] nofun _
      · refine ⟨_, e, [], rfl, fun y member => ?_, values, mapM_ok ran, failed⟩
        obtain ⟨o, operand, inside⟩ := List.mem_flatMap.mp member
        obtain ⟨w, pair⟩ := partner_right (mapM_ok ran).length_eq operand
        exact revisit_within (List.forall₂_zip (mapM_ok ran) pair) (mem_post_order.mp inside)

/-- There is one first error. -/
theorem FirstError.unique {list : List Expr} {err' : TransformError}
    (first : FirstError rules list err) (second : FirstError rules list err') : err = err' := by
  obtain ⟨before, x, after, rfl, known, fails⟩ := first
  obtain ⟨before', x', after', same, known', fails'⟩ := second
  have stuck {z : Expr} {err : TransformError} (fails : FailsAt rules z err) {list : List Expr}
      (known : ∀ y ∈ list, ∃ v, revisit rules y = .ok v) : z ∉ list := fun member => by
    obtain ⟨v, run⟩ := known z member
    cases fails.error.symm.trans run
  obtain ⟨between, rfl, others⟩ | ⟨between, rfl, others⟩ := List.append_eq_append_iff.mp same
  · cases between with
    | nil =>
        obtain ⟨rfl, _⟩ := List.cons.inj others
        exact Except.error.inj (fails.error.symm.trans fails'.error)
    | cons z rest =>
        obtain ⟨rfl, _⟩ := List.cons.inj others
        exact absurd (by simp) (stuck fails known')
  · cases between with
    | nil =>
        obtain ⟨rfl, _⟩ := List.cons.inj others
        exact Except.error.inj (fails.error.symm.trans fails'.error)
    | cons z rest =>
        obtain ⟨rfl, _⟩ := List.cons.inj others
        exact absurd (by simp) (stuck fails' known)

theorem revisit_error : revisit rules e = .error err ↔ FirstError rules e.postOrder err := by
  refine ⟨revisit_first_error, fun first => ?_⟩
  cases run : revisit rules e with
  | ok v =>
      obtain ⟨before, x, after, order, _, fails⟩ := first
      have inside : Within x e := mem_post_order.mp (order ▸ by simp)
      obtain ⟨w, ran⟩ := revisit_within run inside
      cases fails.error.symm.trans ran
  | error err' => rw [(revisit_first_error run).unique first]

end Errors

end Expr

/-! Rules that also note what they are applied to. -/

section Noting

variable {α σ : Type}

/-- The rules, each of which first notes its node in a state. -/
def Rules.noting (rules : Rules (Except TransformError) α) (note : σ → Expr → σ) :
    Rules (StateT σ (Except TransformError)) α :=
  ⟨fun kind => (rules.rule? kind).map fun rule e values => do
    modify (note · e)
    StateT.lift (rule e values)⟩

namespace Expr

variable {rules : Rules (Except TransformError) α} {note : σ → Expr → σ} {e x : Expr}

/-- A pass in which every run gives, next to a state that does not matter, what another pass gives. -/
abbrev Shadows {β : Type} (act : StateT (Memo α) (StateT σ (Except TransformError)) β)
    (plain : StateT (Memo α) (Except TransformError) β) : Prop :=
  ∀ memo, Tracks (fun _ => True) (act memo) (plain memo)

theorem shadows_memoized {act : StateT (Memo α) (StateT σ (Except TransformError)) α}
    {plain : StateT (Memo α) (Except TransformError) α} (shadows : Shadows act plain) :
    Shadows (memoized x act) (memoized x plain) := by
  intro memo
  unfold memoized
  cases memo[x]? with
  | some value => exact tracks_pure _
  | none => exact tracks_bind (shadows memo) fun _ => tracks_pure _

theorem shadows_rule (values : List α) :
    Shadows (applyRule (rules.noting note) x values) (applyRule rules x values) := by
  intro memo
  unfold applyRule
  simp only [Rules.noting]
  cases rules.rule? x.kind with
  | none => exact tracks_throw _
  | some rule =>
      refine tracks_bind ?_ fun v => tracks_pure (v, memo)
      exact fun s _ => tracks_lift (rule x values) (note s x) trivial

theorem shadows_bind {β γ : Type} {act : StateT (Memo α) (StateT σ (Except TransformError)) β}
    {plain : StateT (Memo α) (Except TransformError) β}
    {next : β → StateT (Memo α) (StateT σ (Except TransformError)) γ}
    {after : β → StateT (Memo α) (Except TransformError) γ} (first : Shadows act plain)
    (rest : ∀ v, Shadows (next v) (after v)) : Shadows (act >>= next) (plain >>= after) :=
  fun memo => tracks_bind (first memo) fun v => rest v.1 v.2

theorem shadows_all {operands : List Expr}
    (each : ∀ o ∈ operands, Shadows (transformIn (rules.noting note) o) (transformIn rules o)) :
    Shadows (transformAll (rules.noting note) operands) (transformAll rules operands) := by
  induction operands with
  | nil => exact fun memo => tracks_pure ([], memo)
  | cons o rest ih =>
      obtain ⟨first, others⟩ := List.forall_mem_cons.mp each
      rw [transformAll, transformAll]
      exact shadows_bind first fun v => shadows_bind (ih others) fun vs memo => tracks_pure (v :: vs, memo)

theorem shadows_visit (x : Expr) : Shadows (transformIn (rules.noting note) x) (transformIn rules x) := by
  induction x with
  | terminal data => exact shadows_memoized (shadows_rule [])
  | node op operands shape free ih => exact shadows_memoized (shadows_bind (shadows_all ih) shadows_rule)
  | labelled label body ih => exact shadows_memoized (shadows_bind ih fun v => shadows_rule [v])

/-- Noting nodes does not change what a pass gives. -/
theorem noting_tracks (e : Expr) :
    Tracks (fun _ => True) (transform (rules.noting note) e) (transform rules e) :=
  tracks_bind (shadows_visit e ∅) fun v => tracks_pure v.1

/-- These nodes were noted, each once: those that have values, and with a node its operands. -/
structure Noted (note : σ → Expr → σ) (start : σ) (e : Expr) (calls : List Expr) (memo : Memo α)
    (s : σ) : Prop where
  state : s = calls.foldl note start
  once : calls.Nodup
  inside : ∀ x ∈ calls, Within x e
  valued : ∀ x, Within x e → (x ∈ calls ↔ memo[x]?.isSome)
  closed : ∀ x ∈ calls, ∀ o ∈ x.operands, o ∈ calls

theorem step_noted {start : σ} {memo memo' : Memo α} {s s' : σ} {calls : List Expr} {u u' : Unit}
    (consistent : Consistent e) (noted : Noted note start e calls memo s)
    (step : Step (rules.noting note) (Within · e) (memo, s, u) (memo', s', u')) :
    ∃ calls, Noted note start e calls memo' s' := by
  cases step with
  | @give x _ values rule _ _ w inside new answers found ran =>
      have ran : rule x values s = .ok (w, s') := ran
      have state : s' = note s x := by
        simp only [Rules.noting, Option.map_eq_some_iff] at found
        obtain ⟨plain, _, rfl⟩ := found
        have ran : (plain x values >>= fun v => pure (v, note s x)) = .ok (w, s') := ran
        simp only [except_bind_ok, except_pure_ok, Prod.mk.injEq] at ran
        obtain ⟨_, _, _, same⟩ := ran
        exact same.symm
      have fresh : x ∉ calls := fun member => by simpa [new] using (noted.valued x inside).mp member
      have operand {o : Expr} (member : o ∈ x.operands) : o ∈ calls := by
        obtain ⟨v, pair⟩ := partner_right answers.length_eq member
        have known : memo[o]? = some v := List.forall₂_zip answers pair
        exact (noted.valued o ((Within.operand member).trans inside)).mpr (by simp [known])
      refine ⟨calls ++ [x], ?_, ?_, ?_, fun y part => ?_, ?_⟩
      · rw [state, noted.state, List.foldl_append, List.foldl_cons, List.foldl_nil]
      · exact List.nodup_append.mpr ⟨noted.once, List.nodup_singleton x, fun y member z last same =>
          fresh (List.mem_singleton.mp last ▸ same ▸ member)⟩
      · exact fun y member => (List.mem_append.mp member).elim (noted.inside y)
          fun last => List.mem_singleton.mp last ▸ inside
      · rw [List.mem_append, List.mem_singleton, Std.HashMap.getElem?_insert, noted.valued y part]
        by_cases same : (x == y) = true
        · simp [(same_eq_within consistent inside part same).symm]
        · have other : y ≠ x := fun equal => same (equal ▸ same_refl x)
          simp [same, other]
      · intro y member o below
        refine List.mem_append_left _ ?_
        rcases List.mem_append.mp member with member | last
        · exact noted.closed y member o below
        · exact operand (List.mem_singleton.mp last ▸ below)

theorem steps_noted {start : σ} {last : Memo α × σ × Unit} (consistent : Consistent e)
    (steps : Steps (rules.noting note) (Within · e) (∅, start, ()) last) :
    ∃ calls, Noted note start e calls last.1 last.2.1 := by
  induction steps with
  | refl => exact ⟨[], rfl, .nil, nofun, by simp, nofun⟩
  | tail _ step ih =>
      obtain ⟨calls, noted⟩ := ih
      exact step_noted consistent noted step

/-- A pass that succeeds has noted each part once. -/
theorem transform_notes {v : α} (note : σ → Expr → σ) (consistent : Consistent e)
    (run : transform rules e = .ok v) (s : σ) :
    ∃ calls : List Expr, calls.Perm e.distinctNodes ∧
      (transform (rules.noting note) e).run s = .ok (v, calls.foldl note s) := by
  have tracks : Tracks (fun _ => True) (transform (rules.noting note) e) (transform rules e) :=
    noting_tracks e
  have tracked := tracks s trivial
  rw [run] at tracked
  obtain ⟨s', ran, _⟩ := tracked
  have ran' : Ran (transform (rules.noting note) e) (s, ()) v (s', ()) := ran
  obtain ⟨memo, steps, root⟩ := transform_steps consistent ran'
  obtain ⟨calls, noted⟩ := steps_noted consistent steps
  have all {x : Expr} (inside : Within x e) : x ∈ calls := by
    have down {y : Expr} (below : Within x y) (met : y ∈ calls) : x ∈ calls := by
      induction below with
      | refl => exact met
      | step member _ ih => exact ih (noted.closed _ met _ member)
    exact down inside ((noted.valued e (.refl e)).mpr (by simp [root]))
  refine ⟨calls, (List.perm_ext_iff_of_nodup noted.once (distinct_nodup e)).mpr fun x => ?_, ?_⟩
  · exact ⟨fun met => within_distinct consistent (noted.inside x met), fun met => all (distinct_within met)⟩
  · rw [← noted.state]
    exact ran

end Expr

end Noting

namespace Expr

variable {e x : Expr} {kinds : List Kind}

/-- One for the node and the counts of its operands. -/
def tally : Rule (Except TransformError) Nat := fun _ counts => .ok (counts.foldl (· + ·) 1)

theorem foldl_sum (start : Nat) (counts : List Nat) :
    counts.foldl (· + ·) start = start + counts.sum := by
  induction counts generalizing start with
  | nil => rfl
  | cons count rest ih => rw [List.foldl_cons, ih, List.sum_cons, Nat.add_assoc]

theorem revisit_tally (known : ∀ x, Within x e → x.kind ∈ kinds) :
    revisit (Rules.empty.onEach kinds tally) e = .ok e.postOrder.length := by
  induction e using induction_on_operands with
  | step e ih =>
      have below : e.operands.mapM (revisit (Rules.empty.onEach kinds tally)) =
          .ok (e.operands.map fun o => o.postOrder.length) := by
        refine mapM_of_pairs (List.forall₂_map_right_iff.mpr (List.forall₂_same.mpr fun o member => ?_))
        exact ih o member fun x inside => known x (inside.trans (.operand member))
      have total : (e.operands.map fun o => o.postOrder.length).foldl (· + ·) 1 = e.postOrder.length := by
        rw [post_order_eq, List.length_append, List.length_flatMap, List.length_singleton, Nat.add_comm,
          foldl_sum]
      have found : (Rules.empty.onEach kinds tally).rule? e.kind = some tally :=
        if_pos (known e (.refl e))
      rw [revisit_eq, below, except_ok_bind, ruled, found, ← total]
      rfl

theorem count_kinds_eq (kinds : List Kind) (e : Expr) : countKinds kinds e =
    (fun counts => ⟨counts.1, counts.2⟩) <$>
      (transform ((Rules.empty.onEach kinds tally).noting fun visited _ => visited + 1) e).run 0 := by
  have rules : (Rules.empty.onEach kinds tally).noting (fun visited _ => visited + 1) =
      Rules.empty.onEach kinds fun _ counts => do
        modify (· + 1)
        return counts.foldl (· + ·) 1 := by
    simp only [Rules.noting, Rules.onEach, Rules.empty, apply_ite (Option.map _)]
    rfl
  rw [rules]
  rfl

/-- A pass with pure rules gives what visiting every occurrence anew gives: the same value, or the
same error, which is the first in post-order. When it succeeds, it has applied its rules to each of
the distinct nodes once, so counting one more than the operands have counts the nodes of the tree. -/
theorem transform_visits_once {α σ : Type} (rules : Rules (Except TransformError) α)
    (note : σ → Expr → σ) (kinds : List Kind) (consistent : Consistent e) :
    transform rules e = revisit rules e ∧
      (∀ err, transform rules e = .error err ↔ FirstError rules e.postOrder err) ∧
      (∀ v s, transform rules e = .ok v → ∃ calls : List Expr,
        calls.Perm e.distinctNodes ∧ Distinct.Apart calls ∧ (∀ x, x ∈ calls ↔ Within x e) ∧
          calls.length = e.nodeCount ∧
          (transform (rules.noting note) e).run s = .ok (v, calls.foldl note s)) ∧
      ((∀ x, Within x e → x.kind ∈ kinds) →
        countKinds kinds e = .ok ⟨e.postOrder.length, e.nodeCount⟩) := by
  have plain : transform rules e = revisit rules e := transform_revisits consistent
  refine ⟨plain, fun err => plain ▸ revisit_error, fun v s run => ?_, fun known => ?_⟩
  · obtain ⟨calls, same, ran⟩ := transform_notes note consistent run s
    refine ⟨calls, same, ?_, fun x => ?_, same.length_eq, ran⟩
    · refine same.symm.pairwise (distinct_apart e) fun apart => ?_
      exact Bool.eq_false_iff.mpr fun back => Bool.eq_false_iff.mp apart (same_symm back)
    · rw [same.mem_iff]
      exact ⟨distinct_within, within_distinct consistent⟩
  · have total := (transform_revisits consistent).trans (revisit_tally known)
    obtain ⟨calls, same, ran⟩ := transform_notes (fun n _ => n + 1) consistent total 0
    have count : calls.foldl (fun n _ => n + 1) 0 = e.nodeCount := by
      rw [nodeCount, ← same.length_eq, List.foldl_add_const, Nat.zero_add, Nat.one_mul]
    rw [count_kinds_eq, ran, count]
    rfl

section Sample

def scalarField : Expr := .terminal (.coefficient ⟨0, ⟨[], 2, none⟩⟩)

def sampleName : Expr := .labelled ⟨0⟩ scalarField

/-- The square of a named coefficient, added to itself. -/
def doubledSquare : Expr :=
  .node .sum [.node .product [sampleName, sampleName] [] ∅, .node .product [sampleName, sampleName] [] ∅]
    [] ∅

theorem doubled_square_consistent : Consistent doubledSquare := by
  have only {label : Label} {body : Expr} (inside : Within (labelled label body) doubledSquare) :
      labelled label body = sampleName := by
    have member := mem_parts.mpr inside
    simpa [parts, partsAll, doubledSquare, sampleName, scalarField] using member
  intro label a b left right
  exact (labelled.inj ((only left).trans (only right).symm)).2

/-- The tree has eleven nodes, four of them distinct. Without a rule for labels the name is the first
node that fails. -/
theorem transform_visits_once_doubled : countKinds Kind.all doubledSquare = .ok ⟨11, 4⟩ ∧
    transform (Rules.empty.onEach [.coefficient] tally) doubledSquare =
      .error (.missingHandler sampleName) := by
  have order : ∃ rest, doubledSquare.postOrder = [scalarField] ++ sampleName :: rest ∧ rest.length = 9 := by
    simp [post_order_eq, doubledSquare, sampleName, scalarField, operands]
  obtain ⟨rest, order, others⟩ := order
  have distinct : doubledSquare.nodeCount = 4 := by
    simp [nodeCount, distinctNodes, Distinct.start, Distinct.to_list_cons, Distinct.push,
      Distinct.to_list_nil, operands, doubledSquare, sampleName, scalarField]
  have holds (rules : Rules (Except TransformError) Nat) :=
    transform_visits_once rules (fun n _ => n + 1) Kind.all doubled_square_consistent
  obtain ⟨-, -, -, counted⟩ := holds Rules.empty
  obtain ⟨-, failed, -⟩ := holds (Rules.empty.onEach [.coefficient] tally)
  refine ⟨?_, (failed _).mpr ⟨[scalarField], sampleName, rest, order, ?_, [1], ?_, rfl⟩⟩
  · rw [counted fun x _ => kind_listed _, order, distinct, List.length_append, List.length_cons, List.length_cons,
      others]
    rfl
  · exact List.forall_mem_singleton.mpr ⟨1, rfl⟩
  · exact .cons rfl .nil

end Sample

end Expr

end FormCalculus
