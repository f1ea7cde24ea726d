import FormCalculus.Expr.Equality

/-!
A total order of expressions that goes with their equality: by kind, then by the data of the
node, then operand by operand. Labelled expressions are ordered by label.
-/
set_option autoImplicit false

namespace FormCalculus

namespace Expr

mutual
def order : Expr → Expr → Ordering
  | .terminal s, .terminal t => (compare s.kind.rank t.kind.rank).then (compare s.code t.code)
  | .node op xs shape free, .node op' ys shape' free' =>
      (compare op.kind.rank op'.kind.rank).then
        ((compare (op.header shape free) (op'.header shape' free')).then (orderAll xs ys))
  | .labelled l _, .labelled m _ => compare l.number m.number
  | .terminal _, .node .. | .terminal _, .labelled .. | .node .., .labelled .. => .lt
  | .node .., .terminal _ | .labelled .., .terminal _ | .labelled .., .node .. => .gt
  termination_by structural a => a
/-- Lexicographic; equal operands are passed over without a walk. -/
def orderAll : List Expr → List Expr → Ordering
  | [], [] => .eq
  | [], _ :: _ => .lt
  | _ :: _, [] => .gt
  | x :: xs, y :: ys =>
      if x == y then orderAll xs ys else (order x y).then (orderAll xs ys)
  termination_by structural xs => xs
end

instance : Ord Expr := ⟨order⟩

/-- The two operands of a commutative node in increasing order. -/
def sortedPair (a b : Expr) : List Expr := if compare b a = .lt then [b, a] else [a, b]

end Expr

end FormCalculus
