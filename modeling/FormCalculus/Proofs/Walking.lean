import FormCalculus.Build.Derivative
import FormCalculus.Proofs.Transforming
import FormCalculus.Sharing.Duplication

/-!
Which nodes the walks over an expression meet: nothing but parts of it, and where one label stands
for one body, every part.
-/
set_option autoImplicit false

namespace FormCalculus

namespace Expr

namespace Distinct

/-- What putting operands on the stack does to it and to what has been seen. -/
structure Pushed (operands pending : List Expr) (seen : Std.HashSet Expr) (walk : Distinct) : Prop where
  kept : ∀ x ∈ pending, x ∈ walk.pending
  only : ∀ x ∈ walk.pending, x ∈ pending ∨ x ∈ operands
  covers : ∀ o ∈ operands, walk.seen.contains o = true
  new : ∀ x, walk.seen.contains x = true →
    seen.contains x = true ∨ ∃ o ∈ operands, o ∈ walk.pending ∧ (o == x) = true

theorem push_pushed (operands pending : List Expr) (seen : Std.HashSet Expr) :
    Pushed operands pending seen (push operands pending seen) := by
  induction operands with
  | nil => exact ⟨fun _ => id, fun _ => .inl, by simp, fun _ => .inl⟩
  | cons o rest ih =>
      simp only [push]
      split
      · rename_i known
        refine ⟨ih.kept, fun x member => (ih.only x member).imp_right (List.mem_cons_of_mem _), ?_, ?_⟩
        · exact List.forall_mem_cons.mpr ⟨known, ih.covers⟩
        · exact fun x found => (ih.new x found).imp_right
            (Exists.imp fun y => And.imp_left (List.mem_cons_of_mem _))
      · refine ⟨fun x member => List.mem_cons_of_mem _ (ih.kept x member), ?_, ?_, ?_⟩
        · intro x member
          rcases List.mem_cons.mp member with rfl | member
          · exact .inr List.mem_cons_self
          · exact (ih.only x member).imp_right (List.mem_cons_of_mem _)
        · refine List.forall_mem_cons.mpr ⟨by simp, fun y member => ?_⟩
          simp [Std.HashSet.contains_insert, ih.covers y member]
        · intro x found
          rw [Std.HashSet.contains_insert, Bool.or_eq_true] at found
          rcases found with same | found
          · exact .inr ⟨o, List.mem_cons_self, List.mem_cons_self, same⟩
          · exact (ih.new x found).imp_right
              (Exists.imp fun y => And.imp (List.mem_cons_of_mem _) (And.imp_left (List.mem_cons_of_mem _)))

theorem to_list_nil (seen : Std.HashSet Expr) : toList ⟨[], seen⟩ = [] := by
  rw [toList]
  rfl

theorem to_list_cons (x : Expr) (rest : List Expr) (seen : Std.HashSet Expr) :
    toList ⟨x :: rest, seen⟩ = x :: toList (push x.operands rest seen) := by
  rw [toList]
  rfl

/-- A walk is over, or takes a step. -/
theorem walk_induction {motive : Distinct → Prop} (ended : ∀ seen, motive ⟨[], seen⟩)
    (step : ∀ x rest seen, motive (push x.operands rest seen) → motive ⟨x :: rest, seen⟩)
    (walk : Distinct) : motive walk := by
  obtain ⟨pending, seen⟩ := walk
  generalize bound : sizes pending = n
  induction n using Nat.strongRecOn generalizing pending seen with
  | ind n ih =>
      cases pending with
      | nil => exact ended seen
      | cons x rest =>
          have smaller : sizes (push x.operands rest seen).pending < n := by
            have step : next? ⟨x :: rest, seen⟩ = some (x, push x.operands rest seen) := rfl
            exact bound ▸ next_smaller step
          exact step x rest seen (ih _ smaller _ _ rfl)

variable {e : Expr}

theorem pushed_within {x : Expr} {rest : List Expr} (seen : Std.HashSet Expr)
    (inside : ∀ y ∈ x :: rest, Within y e) :
    ∀ y ∈ (push x.operands rest seen).pending, Within y e := by
  obtain ⟨here, others⟩ := List.forall_mem_cons.mp inside
  intro y member
  rcases (push_pushed x.operands rest seen).only y member with member | member
  · exact others y member
  · exact (Within.operand member).trans here

theorem to_list_within (walk : Distinct) (inside : ∀ x ∈ walk.pending, Within x e) :
    ∀ x ∈ walk.toList, Within x e := by
  induction walk using walk_induction with
  | ended seen =>
      rw [to_list_nil]
      exact nofun
  | step x rest seen ih =>
      rw [to_list_cons]
      exact List.forall_mem_cons.mpr ⟨inside x List.mem_cons_self, ih (pushed_within seen inside)⟩

/-- The walk visits what is on the stack, and the operands of what it visits unless they have been
seen before. -/
theorem to_list_closed (consistent : Consistent e) (walk : Distinct)
    (inside : ∀ x ∈ walk.pending, Within x e) :
    (∀ x ∈ walk.pending, x ∈ walk.toList) ∧
      ∀ x ∈ walk.toList, ∀ o ∈ x.operands, walk.seen.contains o = true ∨ o ∈ walk.toList := by
  induction walk using walk_induction with
  | ended seen =>
      rw [to_list_nil]
      exact ⟨nofun, nofun⟩
  | step head rest seen ih =>
      have pushed := push_pushed head.operands rest seen
      have within := pushed_within seen inside
      obtain ⟨visited, closed⟩ := ih within
      have parts := to_list_within _ within
      have here : Within head e := inside head List.mem_cons_self
      -- What has been seen is new on the stack, or has been seen before.
      have known {o : Expr} (part : Within o e)
          (found : (push head.operands rest seen).seen.contains o = true) :
          seen.contains o = true ∨ o ∈ head :: (push head.operands rest seen).toList := by
        rcases pushed.new o found with old | ⟨y, member, new, same⟩
        · exact .inl old
        · obtain rfl := same_eq_within consistent (within y new) part same
          exact .inr (List.mem_cons_of_mem _ (visited y new))
      rw [to_list_cons]
      refine ⟨List.forall_mem_cons.mpr ⟨List.mem_cons_self, fun x member =>
        List.mem_cons_of_mem _ (visited x (pushed.kept x member))⟩, ?_⟩
      intro x member o operand
      rcases List.mem_cons.mp member with rfl | member
      · exact known ((Within.operand operand).trans here) (pushed.covers o operand)
      · rcases closed x member o operand with found | found
        · exact known ((Within.operand operand).trans (parts x member)) found
        · exact .inr (List.mem_cons_of_mem _ found)

end Distinct

variable {e x : Expr}

theorem distinct_within (member : x ∈ e.distinctNodes) : Within x e :=
  Distinct.to_list_within (Distinct.start e)
    (fun _ start => List.mem_singleton.mp start ▸ .refl e) x member

theorem within_distinct (consistent : Consistent e) (inside : Within x e) :
    x ∈ e.distinctNodes := by
  obtain ⟨visited, closed⟩ := Distinct.to_list_closed consistent (Distinct.start e)
    (fun _ start => List.mem_singleton.mp start ▸ .refl e)
  have root : e ∈ e.distinctNodes := visited e List.mem_cons_self
  have down {x y : Expr} (below : Within x y) (part : Within y e) (met : y ∈ e.distinctNodes) :
      x ∈ e.distinctNodes := by
    induction below with
    | refl => exact met
    | @step o y member _ ih =>
        have within : Within o e := (Within.operand member).trans part
        refine ih within ?_
        rcases closed y met o member with found | found
        · have same : (e == o) = true := by simpa [Distinct.start] using found
          exact same_eq_within consistent (.refl e) within same ▸ root
        · exact found
  exact down inside (.refl e) root

/-! Repeated subexpressions are subexpressions. -/

/-- Everything noted so far is part of `e`. -/
def Meets (e : Expr) (found : Occurrences) : Prop := ∀ y ∈ found.repeated.toList, Within y e

theorem mem_insert_many {set : Std.HashSet Expr} {items : List Expr}
    (member : x ∈ (set.insertMany items).toList) : x ∈ set.toList ∨ x ∈ items := by
  induction items generalizing set with
  | nil => exact .inl (by simpa using member)
  | cons y rest ih =>
      rw [Std.HashSet.insertMany_cons] at member
      rcases ih member with first | later
      · rw [Std.HashSet.toList_insert_perm.mem_iff] at first
        split at first
        · exact .inl first
        · exact (List.mem_cons.mp first).elim (fun here => .inr (here ▸ List.mem_cons_self)) .inl
      · exact .inr (List.mem_cons_of_mem _ later)

theorem mark_repeated_meets {found : Occurrences} (meets : Meets e found) (inside : Within x e) :
    Meets e (found.markRepeated x) := by
  unfold Occurrences.markRepeated
  split
  · exact meets
  · intro y member
    rcases mem_insert_many member with old | new
    · exact meets y old
    · exact (distinct_within new).trans inside

theorem meet_meets {found : Occurrences} {within : Occurrences → Occurrences}
    (meets : Meets e found) (inside : Within x e)
    (below : ∀ found, Meets e found → Meets e (within found)) : Meets e (found.meet x within) := by
  unfold Occurrences.meet
  split
  · exact mark_repeated_meets meets inside
  · exact below _ meets

theorem visit_all_meets {operands : List Expr} (inside : ∀ o ∈ operands, Within o e)
    (visits : ∀ o ∈ operands, Within o e → ∀ found, Meets e found → Meets e (Occurrences.visit o found))
    (found : Occurrences) (meets : Meets e found) : Meets e (Occurrences.visitAll operands found) := by
  induction operands generalizing found with
  | nil => exact meets
  | cons o rest ih =>
      obtain ⟨visit, others⟩ := List.forall_mem_cons.mp visits
      obtain ⟨here, within⟩ := List.forall_mem_cons.mp inside
      exact ih within others _ (visit here found meets)

theorem visit_meets (inside : Within x e) (found : Occurrences) (meets : Meets e found) :
    Meets e (Occurrences.visit x found) := by
  induction x generalizing found with
  | terminal data => exact meet_meets meets inside fun _ => id
  | node op operands shape free ih =>
      exact meet_meets meets inside fun found meets => visit_all_meets
        (fun o member => (Within.operand member).trans inside) ih found meets
  | labelled label body ih =>
      exact meet_meets meets inside (ih ((Within.operand List.mem_cons_self).trans inside))

theorem mem_duplications_within (member : x ∈ e.duplications.toList) : Within x e := by
  have empty : Meets e ⟨∅, ∅⟩ := fun y member => by simp at member
  exact visit_meets (.refl e) ⟨∅, ∅⟩ empty x member

theorem duplications_within (known : e.duplications.contains x = true) :
    ∃ y, Within y e ∧ (y == x) = true := by
  rw [← Std.HashSet.contains_toList, List.contains_iff_exists_mem_beq] at known
  obtain ⟨y, member, same⟩ := known
  exact ⟨y, mem_duplications_within member, same_symm same⟩

/-! The dimension of the domain is read off a terminal of the expression. -/

theorem geometric_dimension_ok {g : Nat} (run : e.geometricDimension = .ok g) :
    ∃ data, Within (.terminal data) e ∧ data.gdim? = some g := by
  unfold geometricDimension at run
  simp only at run
  split at run
  · rename_i gdim found
    cases run
    obtain ⟨node, member, known⟩ := List.exists_of_findSome?_eq_some found
    split at known
    · exact ⟨_, distinct_within member, known⟩
    · cases known
  · cases run

theorem grad_runs {f : Expr} {g : Nat} (known : f.geometricDimension = .ok g)
    (nonzero : f.isZero = false) :
    f.grad = .ok (.node .grad [f] (f.shape ++ [g]) f.free) := by
  simp only [grad, known, nonzero, except_ok_bind]
  rfl

/-- All terminals in it that live on a domain live on one of dimension `g`. -/
def OnDomain (g : Nat) (e : Expr) : Prop :=
  ∀ data, Within (.terminal data) e → ∀ d, data.gdim? = some d → d = g

theorem geometric_dimension_runs {g : Nat} (consistent : Consistent e) (on : OnDomain g e)
    {data : Terminal} (inside : Within (.terminal data) e) (lives : data.gdim? = some g) :
    e.geometricDimension = .ok g := by
  cases run : e.geometricDimension with
  | ok d =>
      obtain ⟨other, within, known⟩ := geometric_dimension_ok run
      rw [on other within d known]
  | error err =>
      unfold geometricDimension at run
      simp only at run
      split at run
      · cases run
      · rename_i none
        have absent := List.findSome?_eq_none_iff.mp none _ (within_distinct consistent inside)
        exact nomatch absent.symm.trans lives

end Expr

end FormCalculus
