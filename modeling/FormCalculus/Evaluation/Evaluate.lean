import FormCalculus.Evaluation.Value
import FormCalculus.Expansion
import FormCalculus.Lowering

/-!
Numeric evaluation: an expression is lowered and expanded, and the scalar expression that is
left is computed in double precision. A branch that a condition does not choose is not computed.
-/
set_option autoImplicit false

namespace FormCalculus

/-- A computation that keeps the values of the expressions met so far. -/
abbrev Evaluation := StateT (Memo Float) (Except EvalError)

namespace Comparison

/-- A comparison of two numbers; the connectives compare none. -/
def holds : Comparison → Float → Float → Bool
  | .eq, x, y => x == y
  | .ne, x, y => x != y
  | .lt, x, y => x < y
  | .gt, x, y => x > y
  | .le, x, y => x ≤ y
  | _, x, y => x ≥ y

end Comparison

namespace Bindings

/-- A component of the value bound to a terminal. -/
def read (bindings : Bindings) (terminal : Expr) (component : Component) : Except EvalError Float :=
  match bindings.get? terminal with
  | none => .error (.unbound terminal)
  | some value =>
      match value.get? component with
      | none => .error (.componentOutOfRange component terminal)
      | some entry => .ok entry

end Bindings

namespace Expr

/-- The component that a multi-index of positions selects. -/
def fixedComponent? (e : Expr) : Option Component := do (← e.multiIndex?).mapM IndexItem.fixed?

mutual
/-- The value of a scalar expression without indices. -/
def valueIn (bindings : Bindings) : Expr → Evaluation Float
  | e@(.terminal data) =>
      memoized e do
        match data with
        | .zero .. => return 0
        | .int value => return Float.ofInt value.toInt
        | .real value => return value.toFloat
        | .argument _ | .coefficient _ | .coordinate _ => bindings.read e []
        | _ => throw (.unsupported e)
  | e@(.node .indexed [tensor, subscripts] _ _) =>
      memoized e do
        match subscripts.fixedComponent? with
        | some component => bindings.read tensor component
        | none => throw (.unsupported e)
  | e@(.node .sum [a, b] _ _) =>
      memoized e do return (← valueIn bindings a) + (← valueIn bindings b)
  | e@(.node .product [a, b] _ _) =>
      memoized e do return (← valueIn bindings a) * (← valueIn bindings b)
  | e@(.node .division [a, b] _ _) =>
      memoized e do return (← valueIn bindings a) / (← valueIn bindings b)
  | e@(.node .power [a, b] _ _) =>
      memoized e do return (← valueIn bindings a).pow (← valueIn bindings b)
  | e@(.node .sqrt [a] _ _) => memoized e do return (← valueIn bindings a).sqrt
  | e@(.node .conditional [test, whenTrue, whenFalse] _ _) =>
      memoized e do
        if ← conditionIn bindings test then valueIn bindings whenTrue
        else valueIn bindings whenFalse
  | e@(.node ..) => memoized e (throw (.unsupported e))
  | e@(.labelled _ body) => memoized e (valueIn bindings body)
  termination_by structural e => e
/-- Whether a condition holds; the second part of a connective is looked at only if the first
does not decide it. -/
def conditionIn (bindings : Bindings) : Expr → Evaluation Bool
  | .node (.condition .and) [a, b] _ _ => do
      if ← conditionIn bindings a then conditionIn bindings b else return false
  | .node (.condition .or) [a, b] _ _ => do
      if ← conditionIn bindings a then return true else conditionIn bindings b
  | .node (.condition .not) [a] _ _ => return !(← conditionIn bindings a)
  | .node (.condition op) [a, b] _ _ => do
      let x ← valueIn bindings a
      let y ← valueIn bindings b
      return op.holds x y
  | e => throw (.unsupported e)
  termination_by structural e => e
end

/-- The value of a scalar expression without free indices. -/
def evaluate (bindings : Bindings) (e : Expr) : Fresh EvalError Float := do
  if !e.isScalar || !e.free.isEmpty then throw (.nonScalar e)
  let lowered ← Fresh.mapError .transform e.lower
  let expanded ← Fresh.mapError .transform lowered.expand
  (expanded.valueIn bindings).run' ∅

end Expr

end FormCalculus
