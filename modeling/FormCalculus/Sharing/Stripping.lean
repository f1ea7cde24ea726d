import FormCalculus.Rewrite

/-!
Removing labels, and listing the labelled expressions of an expression.
-/
set_option autoImplicit false

namespace FormCalculus

/-- The stripped body of each label met so far. -/
abbrev StrippedBodies := List (Label × Expr)

/-- A pass that removes labels. -/
abbrev Stripping := StateT StrippedBodies (Fresh TransformError)

/-- Rule for labelled expressions: the body takes their place, the first body of a label for all
occurrences of the label. -/
def stripLabel : Rule Stripping Expr := fun e operands => do
  match e, operands with
  | .labelled label _, [body] =>
      match (← get).lookup label with
      | some first => return first
      | none =>
          modify ((label, body) :: ·)
          return body
  | _, _ => return e

/-- The labelled expressions found so far, latest first, and what need not be entered again. -/
structure LabelledFound where
  labels : List Label
  visited : Std.HashSet Expr
  found : List Expr

namespace LabelledFound

mutual
def collect : Expr → LabelledFound → LabelledFound
  | e@(.labelled label body), state =>
      if state.labels.contains label then state
      else
        let inside := collect body { state with labels := label :: state.labels }
        { inside with found := e :: inside.found }
  | e@(.node _ operands _ _), state =>
      if state.visited.contains e then state
      else collectAll operands { state with visited := state.visited.insert e }
  | .terminal _, state => state
def collectAll : List Expr → LabelledFound → LabelledFound
  | [], state => state
  | e :: rest, state => collectAll rest (collect e state)
end

end LabelledFound

namespace Expr

/-- Puts the body of every labelled expression in its place. -/
def stripLabels (e : Expr) : Fresh TransformError Expr :=
  let others : Rule Stripping Expr := fun node operands => node.reuse operands
  (e.transform ((Rules.empty.onEach Kind.all others).on .labelled stripLabel)).run' []

/-- One labelled expression for each label, those inside another before it. -/
def labelledParts (e : Expr) : List Expr := (LabelledFound.collect e ⟨[], ∅, []⟩).found.reverse

end Expr

end FormCalculus
