import FormCalculus.Rewrite
import FormCalculus.Sharing.Duplication

/-!
Naming repeated subexpressions, so that each has to be computed only once: every subexpression
that occurs more than once is given a label, and all its occurrences become one labelled
expression.
-/
set_option autoImplicit false

namespace FormCalculus

/-- Kinds that are cheaper to repeat than to name. -/
def Kind.isUnnamed (kind : Kind) : Bool := kind.isTrivialConstant || kind = .label

/-- The labelled expression that stands for each expression named so far, before and after its
operands were rewritten. -/
abbrev Names := Std.HashMap Expr Expr

/-- A pass that names expressions. -/
abbrev Marking := StateT Names (Fresh TransformError)

namespace Marking

/-- Gives the rewritten form `after` of `before` a label. -/
def label (name : Label) (before after : Expr) : Marking Expr := do
  let named ← ((after.withLabel name).mapError TransformError.build : Except TransformError Expr)
  modify fun names => (names.insert before named).insert after named
  return named

/-- Rule for nodes without a label: a repeated one gets a fresh label. -/
def node (duplications : Std.HashSet Expr) : Rule Marking Expr := fun before operands => do
  match (← get)[before]? with
  | some named => return named
  | none =>
      let after ← before.reuse operands
      let repeated := duplications.contains before || duplications.contains after
      if repeated && after.kind ≠ .labelled && !after.kind.isUnnamed then
        label (← (Fresh.newLabel : Fresh TransformError Label)) before after
      else return after

/-- Rule for labelled expressions: they keep their label, around a body that is not labelled by
this pass itself. -/
def labelled : Rule Marking Expr := fun before operands => do
  match before, operands with
  | .labelled name body, [named@(.labelled inner rewritten)] =>
      if body.kind = .labelled then label name body named
      else if inner = name then return named
      else label name body rewritten
  | .labelled name body, [rewritten] => label name body rewritten
  | _, _ => before.reuse operands

def rules (duplications : Std.HashSet Expr) : Rules Marking Expr :=
  (Rules.empty.onEach Kind.all (node duplications)).onEach
    (Kind.all.filter Kind.isUnnamed) (fun before _ => pure before)
  |>.on .labelled labelled

end Marking

namespace Expr

/-- Names every subexpression that occurs more than once; labels given by the user are kept. -/
def markDuplications (e : Expr) : Fresh TransformError Expr :=
  (e.transform (Marking.rules e.duplications)).run' ∅

end Expr

end FormCalculus
