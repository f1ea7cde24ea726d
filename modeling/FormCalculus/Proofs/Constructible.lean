import FormCalculus.Proofs.Building

/-!
The expressions that the constructors can make. Each of their nodes stores the shape and the free
indices of its operands.
-/
set_option autoImplicit false

namespace FormCalculus

open Expr

theorem Built.well_typed {ops : Operator → Prop} {given : Expr → Prop}
    (typed : ∀ e, given e → WellTyped e) {e : Expr} (built : Built ops given e) : WellTyped e := by
  induction built with
  | given known => exact typed _ known
  | terminal data => exact .terminal data
  | operand _ member ih => exact ih.operand member
  | node _ types _ _ ih => exact .node types ih

namespace Expr

section

variable [Folding] {e : Expr} {operands : List Expr} {op : Operator} {supply after : Supply}

theorem assemble_well_typed (typed : ∀ o ∈ operands, WellTyped o)
    (run : op.assemble operands = .ok e) : WellTyped e := by
  have built : Built (fun _ => True) (· ∈ operands) e :=
    Built.assemble (fun _ _ => trivial) op trivial (fun _ member => .given member) run
  exact built.well_typed typed

theorem build_well_typed (typed : ∀ o ∈ operands, WellTyped o)
    (run : op.build operands supply = .ok (e, after)) : WellTyped e := by
  have built : Built (fun _ => True) (· ∈ operands) e :=
    Built.build (fun _ _ => trivial) trivial (fun _ member => .given member) run
  exact built.well_typed typed

end

/-- What can be made from terminals with the constructors: nodes of any operator, labelled
expressions, and the operands of what has been made. -/
inductive Constructible : Expr → Prop
  | terminal (data : Terminal) : Constructible (.terminal data)
  | build {op : Operator} {operands : List Expr} {e : Expr} {supply after : Supply} :
      (∀ o ∈ operands, Constructible o) → op.build operands supply = .ok (e, after) →
      Constructible e
  | labelled {label : Label} {body e : Expr} : Constructible body →
      withLabel label body = .ok e → Constructible e
  | operand {o e : Expr} : Constructible e → o ∈ e.operands → Constructible o

/-- Operators that no product of a tensor and a scalar stands for. -/
theorem Constructible.assemble (op : Operator) {operands : List Expr} {e : Expr}
    (other : op ∉ [.inner, .outer, .dot]) (made : ∀ o ∈ operands, Constructible o)
    (run : op.assemble operands = .ok e) : Constructible e := by
  have built : op.build operands {} = .ok (e, {}) := by
    unfold Operator.build
    split
    · simp at other
    · simp at other
    · simp at other
    · exact (Fresh.lift_ok _ _).mpr ⟨run, rfl⟩
  exact .build made built

theorem Constructible.well_typed {e : Expr} (made : Constructible e) : WellTyped e := by
  induction made with
  | terminal data => exact .terminal data
  | build _ run ih => exact build_well_typed ih run
  | labelled _ run ih =>
      obtain ⟨kind, rfl⟩ := with_label_cases run
      exact .labelled kind ih
  | operand _ member ih => exact ih.operand member

theorem Constructible.within {x e : Expr} (made : Constructible e) (inside : Within x e) :
    Constructible x := by
  induction inside with
  | refl => exact made
  | step member _ ih => exact ih (made.operand member)

end Expr

end FormCalculus
