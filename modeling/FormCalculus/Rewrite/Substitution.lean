import FormCalculus.Rewrite

/-!
Passes that replace subexpressions, and a pass that counts them.
-/
set_option autoImplicit false

namespace FormCalculus

namespace Expr

/-- Replaces each subexpression equal to the first part of a pair by the second part; the last of
several pairs for one subexpression counts. -/
def substitute (pairs : List (Expr × Expr)) (e : Expr) : Fresh TransformError Expr :=
  let replacements : Memo Expr := pairs.foldl (fun map pair => map.insert pair.1 pair.2) ∅
  let rule : Rule (Fresh TransformError) Expr := fun node operands =>
    match replacements[node]? with
    | some replacement => pure replacement
    | none => node.reuse operands
  e.transform (Rules.empty.onEach Kind.all rule)

/-- Replaces every subexpression of one kind. -/
def substituteKind (e : Expr) (kind : Kind) (replacement : Expr) : Fresh TransformError Expr :=
  e.transform (Rules.reusing.on kind fun _ _ => pure replacement)

/-- The counts of a pass that knows only some kinds of nodes. -/
structure NodeCounts where
  /-- Nodes of the expression written out as a tree. -/
  total : Nat
  /-- Nodes that a rule was applied to. -/
  visited : Nat

def countKinds (kinds : List Kind) (e : Expr) : Except TransformError NodeCounts := do
  let rule : Rule (StateT Nat (Except TransformError)) Nat := fun _ counts => do
    modify (· + 1)
    return counts.foldl (· + ·) 1
  let (total, visited) ← (e.transform (Rules.empty.onEach kinds rule)).run 0
  return ⟨total, visited⟩

end Expr

end FormCalculus
