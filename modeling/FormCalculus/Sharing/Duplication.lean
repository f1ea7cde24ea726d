import FormCalculus.Expr.Traversal

/-!
The subexpressions that occur more than once when an expression is written out as a tree.
-/
set_option autoImplicit false

namespace FormCalculus

/-- The subexpressions met so far, and those met again. -/
structure Occurrences where
  seen : Std.HashSet Expr
  repeated : Std.HashSet Expr

namespace Occurrences

/-- Notes that `e` occurs again, and with it everything inside it. -/
def markRepeated (found : Occurrences) (e : Expr) : Occurrences :=
  if found.repeated.contains e then found
  else { found with repeated := found.repeated.insertMany e.distinctNodes }

/-- Goes on with `inside` unless `e` has been met before. -/
def meet (found : Occurrences) (e : Expr) (inside : Occurrences → Occurrences) : Occurrences :=
  if found.seen.contains e then found.markRepeated e
  else inside { found with seen := found.seen.insert e }

mutual
/-- Meets `e` and, the first time, what is inside it. -/
def visit : Expr → Occurrences → Occurrences
  | e@(.terminal _), found => found.meet e id
  | e@(.node _ operands _ _), found => found.meet e (visitAll operands)
  | e@(.labelled _ body), found => found.meet e (visit body)
def visitAll : List Expr → Occurrences → Occurrences
  | [], found => found
  | e :: rest, found => visitAll rest (visit e found)
end

end Occurrences

namespace Expr

/-- The subexpressions equal to two or more positions of the tree. -/
def duplications (e : Expr) : Std.HashSet Expr := (Occurrences.visit e ⟨∅, ∅⟩).repeated

end Expr

end FormCalculus
