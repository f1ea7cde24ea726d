import FormCalculus.Proofs.Transforming
import FormCalculus.Sharing.Stripping

/-!
The list of labelled parts has one part for every label of the expression, and where one label
stands for one body it has every labelled part.
-/
set_option autoImplicit false

namespace FormCalculus

open Expr

namespace LabelledFound

variable {m x y : Expr} {s after last : LabelledFound} {opened part : Expr → Prop}

/-! What is found has the labels that were noted, each once. -/

/-- A visit found parts, and noted their labels. -/
structure Adds (part : Expr → Prop) (s after : LabelledFound) : Prop where
  found : ∃ new, after.found = new ++ s.found ∧
    after.labels.Perm (new.filterMap Expr.label? ++ s.labels) ∧
    ∀ v ∈ new, part v ∧ v.kind = .labelled
  nodup : s.labels.Nodup → after.labels.Nodup

theorem Adds.nothing (labels : after.labels = s.labels) (found : after.found = s.found) :
    Adds part s after :=
  ⟨⟨[], found, by simp [labels], nofun⟩, fun nodup => labels ▸ nodup⟩

theorem Adds.trans (first : Adds part s after) (second : Adds part after last) :
    Adds part s last := by
  obtain ⟨⟨new, found, labels, parts⟩, nodup⟩ := first
  obtain ⟨⟨new', found', labels', parts'⟩, nodup'⟩ := second
  refine ⟨⟨new' ++ new, by rw [found', found, List.append_assoc], ?_, ?_⟩, nodup' ∘ nodup⟩
  · rw [List.filterMap_append, List.append_assoc]
    exact labels'.trans (labels.append_left _)
  · exact List.forall_mem_append.mpr ⟨parts', parts⟩

theorem Adds.mono {part' : Expr → Prop} (adds : Adds part s after) (imp : ∀ v, part v → part' v) :
    Adds part' s after := by
  obtain ⟨⟨new, found, labels, parts⟩, nodup⟩ := adds
  exact ⟨⟨new, found, labels, fun v member => (parts v member).imp_left (imp v)⟩, nodup⟩

theorem Adds.labels (adds : Adds part s after) : s.labels ⊆ after.labels := by
  obtain ⟨⟨_, _, labels, _⟩, _⟩ := adds
  exact fun label member => labels.mem_iff.mpr (List.mem_append_right _ member)

theorem collect_all_adds {operands : List Expr}
    (visits : ∀ o ∈ operands, ∀ s, Adds (Within · o) s (collect o s)) (s : LabelledFound) :
    Adds (fun v => ∃ o ∈ operands, Within v o) s (collectAll operands s) := by
  induction operands generalizing s with
  | nil => exact .nothing rfl rfl
  | cons o rest ih =>
      obtain ⟨visit, others⟩ := List.forall_mem_cons.mp visits
      rw [collectAll]
      have first : Adds (fun v => ∃ p ∈ o :: rest, Within v p) s (collect o s) :=
        (visit s).mono fun v inside => ⟨o, List.mem_cons_self, inside⟩
      have second : Adds (fun v => ∃ p ∈ o :: rest, Within v p) (collect o s)
          (collectAll rest (collect o s)) :=
        (ih others _).mono fun v ⟨p, member, inside⟩ => ⟨p, List.mem_cons_of_mem _ member, inside⟩
      exact first.trans second

theorem collect_adds (x : Expr) (s : LabelledFound) : Adds (Within · x) s (collect x s) := by
  induction x generalizing s with
  | terminal data => exact .nothing rfl rfl
  | node op operands shape free ih =>
      rw [collect]
      split
      · exact .nothing rfl rfl
      · obtain ⟨found, nodup⟩ := (collect_all_adds ih
          { s with visited := s.visited.insert (.node op operands shape free) }).mono
          fun v ⟨o, member, inside⟩ => Within.step (e := .node op operands shape free) member inside
        exact ⟨found, nodup⟩
  | labelled label body ih =>
      rw [collect]
      split
      · exact .nothing rfl rfl
      · rename_i new
        obtain ⟨⟨parts, found, labels, inside⟩, nodup⟩ := ih { s with labels := label :: s.labels }
        refine ⟨⟨.labelled label body :: parts, congrArg (_ :: ·) found, ?_, ?_⟩, fun distinct => ?_⟩
        · exact labels.trans List.perm_middle
        · refine List.forall_mem_cons.mpr ⟨⟨.refl _, rfl⟩, fun v member => ?_⟩
          exact (inside v member).imp_left (.step List.mem_cons_self)
        · exact nodup (List.nodup_cons.mpr ⟨by simpa using new, distinct⟩)

/-! Nothing labelled is missed. -/

/-- Whether a visit would stop at `x` at once. -/
def Entered (s : LabelledFound) : Expr → Prop
  | .labelled label _ => label ∈ s.labels
  | .node op operands shape free => s.visited.contains (.node op operands shape free) = true
  | .terminal _ => False

/-- The labels of `x` have been noted. -/
def Noted (s : LabelledFound) (x : Expr) : Prop :=
  ∀ label body, Within (.labelled label body) x → label ∈ s.labels

/-- What has been entered has been visited to its end, except for what is still open. -/
def Closed (m : Expr) (opened : Expr → Prop) (s : LabelledFound) : Prop :=
  ∀ y, Within y m → s.Entered y → ¬ opened y → s.Noted y

/-- A visit to `x` notes its labels and leaves nothing open that was not. -/
def Completes (m : Expr) (visit : LabelledFound → LabelledFound) (x : Expr) : Prop :=
  ∀ opened s, (∀ y, Within y x → ¬ opened y) → Closed m opened s →
    Closed m opened (visit s) ∧ (visit s).Noted x

theorem Noted.grows (noted : s.Noted x) (later : s.labels ⊆ after.labels) : after.Noted x :=
  fun label body inside => later (noted label body inside)

theorem collect_all_completes {operands : List Expr}
    (visits : ∀ o ∈ operands, Completes m (collect o) o)
    (unopened : ∀ o ∈ operands, ∀ y, Within y o → ¬ opened y) (closed : Closed m opened s) :
    Closed m opened (collectAll operands s) ∧ ∀ o ∈ operands, (collectAll operands s).Noted o := by
  induction operands generalizing s with
  | nil => exact ⟨closed, nofun⟩
  | cons o rest ih =>
      obtain ⟨visit, others⟩ := List.forall_mem_cons.mp visits
      obtain ⟨here, there⟩ := List.forall_mem_cons.mp unopened
      obtain ⟨closed, noted⟩ := visit opened s here closed
      obtain ⟨last, rests⟩ := ih others there closed
      have later : (collect o s).labels ⊆ (collectAll rest (collect o s)).labels :=
        (collect_all_adds (fun o _ => collect_adds o) (collect o s)).labels
      exact ⟨last, List.forall_mem_cons.mpr ⟨noted.grows later, rests⟩⟩

/-- Entering `x` opens it. -/
theorem Closed.enter (closed : Closed m opened s) (later : s.labels ⊆ after.labels)
    (enters : ∀ y, Within y m → after.Entered y → y = x ∨ s.Entered y) :
    Closed m (fun y => y = x ∨ opened y) after := by
  intro y inside entered unopened
  obtain ⟨other, unopened⟩ := not_or.mp unopened
  exact (closed y inside ((enters y inside entered).resolve_left other) unopened).grows later

/-- Once its labels are noted, `x` need not be open. -/
theorem Closed.leave (closed : Closed m (fun y => y = x ∨ opened y) s) (noted : s.Noted x) :
    Closed m opened s := by
  intro y inside entered unopened
  by_cases same : y = x
  · exact same ▸ noted
  · exact closed y inside entered (not_or.mpr ⟨same, unopened⟩)

theorem Closed.enter_node {op : Operator} {operands : List Expr} {shape : Shape} {free : FreeIndices}
    (closed : Closed m opened s) (consistent : Consistent m)
    (inside : Within (.node op operands shape free) m) :
    Closed m (fun y => y = .node op operands shape free ∨ opened y)
      { s with visited := s.visited.insert (.node op operands shape free) } := by
  refine closed.enter (fun _ => id) fun y within entered => ?_
  cases y with
  | terminal data => exact .inr entered
  | labelled label body => exact .inr entered
  | node op' operands' shape' free' =>
      rw [Entered, Std.HashSet.contains_insert, Bool.or_eq_true] at entered
      exact entered.imp_left fun same => (same_eq_within consistent inside within same).symm

theorem Closed.enter_label {label : Label} {body : Expr} (closed : Closed m opened s)
    (consistent : Consistent m) (inside : Within (.labelled label body) m) :
    Closed m (fun y => y = .labelled label body ∨ opened y)
      { s with labels := label :: s.labels } := by
  refine closed.enter (List.subset_cons_self _ _) fun y within entered => ?_
  cases y with
  | terminal data => exact .inr entered
  | node => exact .inr entered
  | labelled other inner =>
      obtain rfl | old := List.mem_cons.mp entered
      · exact .inl (congrArg _ (consistent other inner body within inside))
      · exact .inr old

/-- Below `x` nothing is opened by opening `x`. -/
theorem unopened_below {o : Expr} (member : o ∈ x.operands)
    (unopened : ∀ y, Within y x → ¬ opened y) (y : Expr) (within : Within y o) :
    ¬ (y = x ∨ opened y) := by
  rintro (rfl | opened)
  · exact not_within_operand member within
  · exact unopened y (.step member within) opened

theorem collect_completes (consistent : Consistent m) (inside : Within x m) :
    Completes m (collect x) x := by
  induction x with
  | terminal data =>
      intro opened s unopened closed
      refine ⟨closed, fun label body within => ?_⟩
      cases within with
      | step member => cases member
  | node op operands shape free ih =>
      intro opened s unopened closed
      rw [collect]
      split
      · rename_i known
        exact ⟨closed, closed _ inside known (unopened _ (.refl _))⟩
      · obtain ⟨closed, noted⟩ := collect_all_completes
          (fun o member => ih o member ((Within.operand member).trans inside))
          (fun o member => unopened_below (x := .node op operands shape free) member unopened)
          (closed.enter_node consistent inside)
        have whole : (collectAll operands
            { s with visited := s.visited.insert (.node op operands shape free) }).Noted
              (.node op operands shape free) := by
          intro label body within
          cases within with
          | step member within => exact noted _ member label body within
        exact ⟨closed.leave whole, whole⟩
  | labelled label body ih =>
      intro opened s unopened closed
      rw [collect]
      split
      · rename_i known
        have known : label ∈ s.labels := by simpa using known
        exact ⟨closed, closed _ inside known (unopened _ (.refl _))⟩
      · obtain ⟨closed, noted⟩ := ih ((Within.operand List.mem_cons_self).trans inside) _ _
          (unopened_below (x := .labelled label body) List.mem_cons_self unopened)
          (closed.enter_label consistent inside)
        have own : label ∈ (collect body { s with labels := label :: s.labels }).labels :=
          (collect_adds body _).labels List.mem_cons_self
        have whole : (collect body { s with labels := label :: s.labels }).Noted
            (.labelled label body) := by
          intro other inner within
          cases within with
          | refl => exact own
          | step member within => exact noted other inner (List.mem_singleton.mp member ▸ within)
        exact ⟨closed.leave whole, whole⟩

end LabelledFound

namespace Expr

variable {e v : Expr}

/-- Every labelled part listed is one of the expression. -/
theorem labelled_parts_within (member : v ∈ e.labelledParts) :
    ∃ label body, v = .labelled label body ∧ Within v e := by
  obtain ⟨⟨new, found, _, parts⟩, _⟩ := LabelledFound.collect_adds e ⟨[], ∅, []⟩
  rw [labelledParts, List.mem_reverse, found, List.append_nil] at member
  obtain ⟨inside, kind⟩ := parts v member
  cases v with
  | terminal data => cases data <;> cases kind
  | node op => cases op <;> cases kind
  | labelled label body => exact ⟨label, body, rfl, inside⟩

/-- No label is listed twice. -/
theorem labelled_parts_distinct :
    e.labelledParts.Pairwise fun v w => v.label? ≠ w.label? := by
  have distinct : (e.labelledParts.filterMap Expr.label?).Nodup := by
    obtain ⟨⟨new, found, labels, _⟩, nodup⟩ := LabelledFound.collect_adds e ⟨[], ∅, []⟩
    rw [labelledParts, found, List.filterMap_reverse, List.nodup_reverse, List.append_nil]
    rw [List.append_nil] at labels
    exact labels.nodup_iff.mp (nodup List.nodup_nil)
  refine (List.pairwise_filterMap.mp distinct).imp_of_mem fun {v w} member _ differ same => ?_
  obtain ⟨label, body, rfl, _⟩ := labelled_parts_within member
  exact differ label rfl label same.symm rfl

/-- Every labelled part is listed. -/
theorem within_labelled_parts (consistent : Consistent e) {label : Label} {body : Expr}
    (inside : Within (.labelled label body) e) : .labelled label body ∈ e.labelledParts := by
  have start : LabelledFound.Closed e (fun _ => False) ⟨[], ∅, []⟩ := by
    intro y _ entered
    cases y with
    | terminal => cases entered
    | labelled => cases entered
    | node => simp [LabelledFound.Entered] at entered
  obtain ⟨_, noted⟩ := LabelledFound.collect_completes consistent (.refl e) _ _ (fun _ _ => id) start
  obtain ⟨⟨new, found, labels, parts⟩, _⟩ := LabelledFound.collect_adds e ⟨[], ∅, []⟩
  have known := labels.mem_iff.mp (noted label body inside)
  rw [List.append_nil] at known
  obtain ⟨v, member, own⟩ := List.mem_filterMap.mp known
  have listed : v ∈ e.labelledParts := by
    rw [labelledParts, List.mem_reverse, found, List.append_nil]
    exact member
  obtain ⟨other, inner, rfl, within⟩ := labelled_parts_within listed
  cases own
  rwa [consistent label body inner inside within]

end Expr

end FormCalculus
