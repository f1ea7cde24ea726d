import FormCalculus.Expr.Basic

/-!
Equality of expressions. Nodes are equal when operator, shape, free indices and operands are;
labelled expressions are equal when their labels are, whatever their bodies.

The comparison is a decision on trees. Shared operands are recognised by their address and
different ones by their digest, so it does not walk expressions that share their structure.
-/
set_option autoImplicit false

namespace FormCalculus

namespace Expr

mutual
/-- Equality below the digest, with the fact that lets an address decide it. -/
def agree : (a b : Expr) → { same : Bool // a = b → same = true }
  | .terminal s, .terminal t => ⟨s == t, by simp⟩
  | .node op xs shape free, .node op' ys shape' free' =>
      ⟨op == op' && shape == shape' && free == free' && (agreeAll xs ys).val, by
        intro same
        cases same
        simpa using (agreeAll xs xs).property rfl⟩
  | .labelled l _, .labelled m _ => ⟨l == m, by simp +contextual⟩
  | .terminal _, .node .. | .terminal _, .labelled .. | .node .., .terminal _
  | .node .., .labelled .. | .labelled .., .terminal _ | .labelled .., .node .. => ⟨false, nofun⟩
  termination_by structural a => a
def agreeAll : (xs ys : List Expr) → { same : Bool // xs = ys → same = true }
  | [], [] => ⟨true, fun _ => rfl⟩
  | x :: xs, y :: ys =>
      ⟨withPtrEq x y (fun _ => x.digest == y.digest && (agree x y).val)
          (by intro same; subst same; simpa using (agree x x).property rfl)
        && (agreeAll xs ys).val, by
        intro same
        cases same
        have first := (agree x x).property rfl
        have others := (agreeAll xs xs).property rfl
        simp [withPtrEq, first, others]⟩
  | [], _ :: _ | _ :: _, [] => ⟨false, nofun⟩
  termination_by structural xs => xs
end

/-- Equality of expressions, labelled ones by their labels. -/
def same (a b : Expr) : Bool :=
  withPtrEq a b (fun _ => a.digest == b.digest && (agree a b).val)
    (by intro same; subst same; simpa using (agree a a).property rfl)

instance : BEq Expr := ⟨same⟩

instance : Hashable Expr := ⟨digest⟩

/-- Equality that looks into a labelled expression: its body has to be equal too, and so on while
the bodies are labelled themselves. -/
def sameThrough : Expr → Expr → Bool
  | .labelled l x, .labelled m y => l == m && sameThrough x y
  | a, b => a == b

end Expr

end FormCalculus
