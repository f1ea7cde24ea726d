import FormCalculus.Build.Reconstruct
import Std.Data.HashMap

/-!
Bottom-up passes over expressions. A pass is a table with a rule for each kind of node; a rule
gets the node and the values of its operands. Equal nodes are met once and share their value.
-/
set_option autoImplicit false

namespace FormCalculus

/-- What a pass does with a node, once its operands have values. -/
abbrev Rule (m : Type → Type) (α : Type) := Expr → List α → m α

/-- A rule for each kind of node, or none. -/
structure Rules (m : Type → Type) (α : Type) where
  rule? : Kind → Option (Rule m α)

namespace Rules

variable {m : Type → Type} {α : Type}

def empty : Rules m α := ⟨fun _ => none⟩

/-- One rule for several kinds, in place of those they had. -/
def onEach (rules : Rules m α) (kinds : List Kind) (rule : Rule m α) : Rules m α :=
  ⟨fun kind => if kind ∈ kinds then some rule else rules.rule? kind⟩

def on (rules : Rules m α) (kind : Kind) (rule : Rule m α) : Rules m α :=
  rules.onEach [kind] rule

/-- Whether every one of `kinds` has a rule. -/
def covers (rules : Rules m α) (kinds : List Kind) : Bool :=
  kinds.all fun kind => (rules.rule? kind).isSome

end Rules

/-- The values of the nodes met so far. -/
abbrev Memo (α : Type) := Std.HashMap Expr α

namespace Expr

variable {m : Type → Type} {α : Type} [Monad m]

/-- The value of a node met before; otherwise the value of `act`, kept for the next time. -/
def memoized (e : Expr) (act : StateT (Memo α) m α) : StateT (Memo α) m α := fun memo =>
  match memo[e]? with
  | some value => pure (value, memo)
  | none => do
      let (value, memo) ← act memo
      return (value, memo.insert e value)

variable [MonadExceptOf TransformError m]

/-- Applies the rule for the kind of `e`. -/
def applyRule (rules : Rules m α) (e : Expr) (values : List α) : StateT (Memo α) m α :=
  match rules.rule? e.kind with
  | some rule => StateT.lift (rule e values)
  | none => throw (.missingHandler e)

mutual
def transformIn (rules : Rules m α) : Expr → StateT (Memo α) m α
  | e@(.terminal _) => memoized e (applyRule rules e [])
  | e@(.node _ operands _ _) => memoized e do applyRule rules e (← transformAll rules operands)
  | e@(.labelled _ body) => memoized e do applyRule rules e [← transformIn rules body]
/-- The values of several expressions, from left to right. -/
def transformAll (rules : Rules m α) : List Expr → StateT (Memo α) m (List α)
  | [] => pure []
  | e :: rest => do
      let value ← transformIn rules e
      return value :: (← transformAll rules rest)
end

/-- Runs a pass over an expression. -/
def transform (rules : Rules m α) (e : Expr) : m α := (transformIn rules e).run' ∅

omit [MonadExceptOf TransformError m]

/-- Whether `operands` are those that `e` has, also inside labelled operands. -/
def hasOperands (e : Expr) (operands : List Expr) : Bool :=
  operands.length == e.operands.length &&
    (operands.zip e.operands).all fun pair => pair.1.sameThrough pair.2

/-- The expression itself if its operands are the given ones, else what `rebuild` makes of them. -/
def reuseOr (rebuild : List Expr → m Expr) (e : Expr) (operands : List Expr) : m Expr :=
  if e.hasOperands operands then pure e else rebuild operands

/-- The expression itself if its operands are the given ones, else a node rebuilt from them. -/
def reuse [Folding] (e : Expr) (operands : List Expr) : Fresh TransformError Expr :=
  e.reuseOr (fun operands => (e.reconstruct operands).mapError .build) operands

end Expr

/-- The rules that leave every expression as it is. -/
def Rules.reusing [Folding] : Rules (Fresh TransformError) Expr :=
  Rules.empty.onEach Kind.all Expr.reuse

end FormCalculus
