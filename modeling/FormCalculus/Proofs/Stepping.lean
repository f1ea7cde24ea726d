import Mathlib.Logic.Relation
import FormCalculus.Proofs.Transforming

/-!
A bottom-up pass as a sequence of steps. Each step gives a value to one more part, by the rule for
its kind on the values that the operands have already; what every step keeps the pass keeps.
-/
set_option autoImplicit false

namespace FormCalculus

open Runs

namespace Expr

variable {m : Type → Type} {S : Type} [Monad m] [MonadExceptOf TransformError m] [Runs m S]
  {α : Type} {e x : Expr} {rules : Rules m α} {memo memo' : Memo α} {operands : List Expr}
  {values : List α} {s s' : S}

/-- The memo has these values for the expressions. -/
def Answers (memo : Memo α) (operands : List Expr) (values : List α) : Prop :=
  List.Forall₂ (fun o v => memo[o]? = some v) operands values

theorem Answers.unique {values' : List α} (first : Answers memo operands values)
    (second : Answers memo operands values') : values = values' := by
  unfold Answers at first second
  induction first generalizing values' with
  | nil =>
      cases second
      rfl
  | cons found _ ih =>
      cases second with
      | cons found' others =>
          rw [Option.some.inj (found.symm.trans found'), ih others]

/-- Nothing in `memo` is lost or changed in `memo'`. -/
def Extends (memo memo' : Memo α) : Prop :=
  ∀ (y : Expr) (w : α), memo[y]? = some w → memo'[y]? = some w

theorem Extends.trans {last : Memo α} (first : Extends memo memo') (second : Extends memo' last) :
    Extends memo last :=
  fun y w found => second y w (first y w found)

theorem Extends.answers (kept : Extends memo memo') (answers : Answers memo operands values) :
    Answers memo' operands values :=
  List.Forall₂.imp (fun o v found => kept o v found) answers

theorem extends_insert {w : α} (new : memo[x]? = none) : Extends memo (memo.insert x w) := by
  intro y known found
  rw [Std.HashMap.getElem?_insert]
  by_cases same : (x == y) = true
  · rw [Std.HashMap.getElem?_congr same, found] at new
    cases new
  · rw [if_neg same]
    exact found

/-- One of the parts gets its value. -/
inductive Step (rules : Rules m α) (part : Expr → Prop) : Memo α × S → Memo α × S → Prop
  | give {x : Expr} {memo : Memo α} {values : List α} {rule : Rule m α} {s s' : S} {w : α} :
      part x → memo[x]? = none → Answers memo x.operands values →
      rules.rule? x.kind = some rule → Ran (rule x values) s w s' →
      Step rules part (memo, s) (memo.insert x w, s')

/-- Some of the parts get their values, one after the other. -/
abbrev Steps (rules : Rules m α) (part : Expr → Prop) : Memo α × S → Memo α × S → Prop :=
  Relation.ReflTransGen (Step rules part)

section Steps

variable {part part' : Expr → Prop} {start last : Memo α × S}

theorem Steps.imp (steps : Steps rules part start last) (imp : ∀ x, part x → part' x) :
    Steps rules part' start last := by
  refine Relation.ReflTransGen.mono (fun _ _ step => ?_) _ _ steps
  cases step with
  | give inside new answers found ran => exact .give (imp _ inside) new answers found ran

theorem Steps.extends (steps : Steps rules part start last) : Extends start.1 last.1 := by
  induction steps with
  | refl => exact fun _ _ found => found
  | tail _ step ih =>
      cases step with
      | give _ new => exact ih.trans (extends_insert new)

theorem Steps.absent (steps : Steps rules (fun y => ∃ o ∈ x.operands, Within y o) start last)
    (consistent : Consistent e) (inside : Within x e) (new : start.1[x]? = none) :
    last.1[x]? = none := by
  induction steps with
  | refl => exact new
  | tail _ step ih =>
      cases step with
      | @give y memo _ _ _ _ w below =>
          obtain ⟨o, member, part⟩ := below
          show (memo.insert y w)[x]? = none
          -- What gets a value is smaller than `x`.
          rw [Std.HashMap.getElem?_insert, if_neg fun same => ?_]
          · exact ih
          · obtain rfl := same_eq_within consistent
              ((part.trans (.operand member)).trans inside) inside same
            exact not_within_operand member part

end Steps

/-- Working a value out takes steps over the parts, and the memo has the value then. -/
def Visited (rules : Rules m α) (x : Expr) : Prop :=
  ∀ (memo memo' : Memo α) (s s' : S) (w : α), Ran (transformIn rules x) (memo, s) w (memo', s') →
    Steps rules (Within · x) (memo, s) (memo', s') ∧ memo'[x]? = some w

theorem transform_all_steps (visited : ∀ o ∈ operands, Visited rules o)
    (run : Ran (transformAll rules operands) (memo, s) values (memo', s')) :
    Steps rules (fun y => ∃ o ∈ operands, Within y o) (memo, s) (memo', s') ∧
      Answers memo' operands values := by
  induction operands generalizing values memo s with
  | nil =>
      obtain ⟨rfl, same⟩ := pure_ran.mp run
      cases same
      exact ⟨.refl, .nil⟩
  | cons o rest ih =>
      rw [transformAll] at run
      obtain ⟨first, ⟨middle, between⟩, ran, run⟩ := bind_ran.mp run
      obtain ⟨others, ⟨_, _⟩, rans, run⟩ := bind_ran.mp run
      obtain ⟨rfl, same⟩ := pure_ran.mp run
      cases same
      obtain ⟨steps, here⟩ := visited o List.mem_cons_self _ _ _ _ _ ran
      obtain ⟨steps', below⟩ := ih (fun o member => visited o (List.mem_cons_of_mem _ member)) rans
      -- First the steps for the head, then those for the others, which keep its value.
      refine ⟨.trans (steps.imp fun y part => ⟨o, List.mem_cons_self, part⟩) (steps'.imp ?_), ?_⟩
      · exact fun y => Exists.imp fun p => And.imp_left (List.mem_cons_of_mem _)
      · exact .cons (steps'.extends o first here) below

theorem visit_steps (consistent : Consistent e) (x : Expr) (inside : Within x e) :
    Visited rules x := by
  -- The rule takes the last step: where one label stands for one body the part is not met again
  -- below itself, so it has no value yet.
  have finish {y : Expr} {memo middle memo' : Memo α} {values : List α} {s between s' : S} {w : α}
      (inside : Within y e) (new : memo[y]? = none)
      (steps : Steps rules (fun z => ∃ o ∈ y.operands, Within z o) (memo, s) (middle, between))
      (answers : Answers middle y.operands values)
      (run : Ran (applyRule rules y values) (middle, between) w (memo', s')) :
      Steps rules (Within · y) (memo, s) (memo'.insert y w, s') ∧
        (memo'.insert y w)[y]? = some w := by
    obtain ⟨rule, found, ran, rfl⟩ := apply_rule_ran run
    have absent := steps.absent consistent inside new
    refine ⟨.tail (steps.imp fun z ⟨o, member, part⟩ => part.trans (.operand member)) ?_,
      Std.HashMap.getElem?_insert_self⟩
    exact .give (.refl y) absent answers found ran
  induction x with
  | terminal data =>
      intro memo memo' s s' w run
      obtain ⟨found, rfl, rfl⟩ | ⟨between, new, ran, rfl⟩ := memoized_ran run
      · exact ⟨.refl, found⟩
      · exact finish inside new .refl .nil ran
  | node op operands shape free ih =>
      intro memo memo' s s' w run
      obtain ⟨found, rfl, rfl⟩ | ⟨between, new, ran, rfl⟩ := memoized_ran run
      · exact ⟨.refl, found⟩
      · obtain ⟨values, ⟨middle, _⟩, rans, ran⟩ := bind_ran.mp ran
        obtain ⟨steps, answers⟩ := transform_all_steps
          (fun o member => ih o member ((Within.operand member).trans inside)) rans
        exact finish inside new steps answers ran
  | labelled label body ih =>
      intro memo memo' s s' w run
      obtain ⟨found, rfl, rfl⟩ | ⟨between, new, ran, rfl⟩ := memoized_ran run
      · exact ⟨.refl, found⟩
      · obtain ⟨value, ⟨middle, _⟩, first, ran⟩ := bind_ran.mp ran
        obtain ⟨steps, here⟩ := ih ((Within.operand List.mem_cons_self).trans inside) _ _ _ _ _ first
        exact finish inside new (steps.imp fun z part => ⟨body, List.mem_cons_self, part⟩)
          (.cons here .nil) ran

/-- A pass is a sequence of steps that ends when the expression has its value. -/
theorem transform_steps [LawfulMonad m] {r : α} (consistent : Consistent e)
    (run : Ran (transform rules e) s r s') :
    ∃ memo, Steps rules (Within · e) (∅, s) (memo, s') ∧ memo[e]? = some r := by
  obtain ⟨memo, ran⟩ := transform_ran.mp run
  exact ⟨memo, visit_steps consistent e (.refl e) _ _ _ _ _ ran⟩

end Expr

end FormCalculus
