import FormCalculus.Expr.Equality
import Std.Data.HashSet

/-!
Walks over an expression: every node before or after its operands, once per occurrence in the
tree, and each distinct node once.

A walk is a stack of what is still to be visited; a step takes the top and gives back the node
it visits.
-/
set_option autoImplicit false

namespace FormCalculus

namespace Expr

/-- The rest of a walk in pre-order: the subexpressions still to be visited, next one first. -/
structure PreOrder where
  pending : List Expr

/-- The rest of a walk in post-order: the nodes being visited, innermost first, each with the
operands still to be visited. -/
structure PostOrder where
  pending : List (Expr × List Expr)

namespace PreOrder

def start (e : Expr) : PreOrder := ⟨[e]⟩

def next? : PreOrder → Option (Expr × PreOrder)
  | ⟨[]⟩ => none
  | ⟨e :: rest⟩ => some (e, ⟨e.operands ++ rest⟩)

theorem next_smaller {walk rest : PreOrder} {e : Expr} (step : walk.next? = some (e, rest)) :
    sizes rest.pending < sizes walk.pending := by
  obtain ⟨pending⟩ := walk
  cases pending with
  | nil => simp [next?] at step
  | cons head tail =>
      simp only [next?, Option.some.injEq, Prod.mk.injEq] at step
      obtain ⟨rfl, rfl⟩ := step
      have smaller := size_operands head
      simp only [sizes_append, sizes]
      omega

/-- Every node still to be visited, in the order of the walk. -/
def toList (walk : PreOrder) : List Expr :=
  match _step : walk.next? with
  | none => []
  | some (e, rest) => e :: rest.toList
termination_by sizes walk.pending
decreasing_by exact next_smaller _step

end PreOrder

namespace PostOrder

def start (e : Expr) : PostOrder := ⟨[(e, e.operands)]⟩

/-- Work left on a stack: two for each pending subexpression, and one for each open node. -/
def work : List (Expr × List Expr) → Nat
  | [] => 0
  | (_, operands) :: rest => 2 * sizes operands + 1 + work rest

/-- Goes down along first operands until a node has no operand left, and visits that node. -/
def descend : List (Expr × List Expr) → Option (Expr × PostOrder)
  | [] => none
  | (e, []) :: rest => some (e, ⟨rest⟩)
  | (e, operand :: others) :: rest => descend ((operand, operand.operands) :: (e, others) :: rest)
termination_by stack => work stack
decreasing_by
  have smaller := size_operands operand
  simp only [work, sizes]
  omega

def next? (walk : PostOrder) : Option (Expr × PostOrder) := descend walk.pending

theorem descend_smaller {stack : List (Expr × List Expr)} {rest : PostOrder} {e : Expr}
    (step : descend stack = some (e, rest)) : work rest.pending < work stack := by
  fun_induction descend stack with
  | case1 => simp at step
  | case2 => simp at step; obtain ⟨rfl, rfl⟩ := step; simp [work]
  | case3 e operand others rest' ih =>
      have smaller := size_operands operand
      have below := ih step
      simp only [work, sizes] at below ⊢
      omega

/-- Every node still to be visited, in the order of the walk. -/
def toList (walk : PostOrder) : List Expr :=
  match _step : walk.next? with
  | none => []
  | some (e, rest) => e :: rest.toList
termination_by work walk.pending
decreasing_by exact descend_smaller _step

end PostOrder

/-- The rest of a walk over distinct nodes: what is still to be visited, and every node that has
been put there so far. -/
structure Distinct where
  pending : List Expr
  seen : Std.HashSet Expr

namespace Distinct

def start (e : Expr) : Distinct := ⟨[e], (∅ : Std.HashSet Expr).insert e⟩

/-- Puts the operands not seen before on top of the stack. They are marked from the last to the
first, so of two equal operands the later one is kept. -/
def push : List Expr → List Expr → Std.HashSet Expr → Distinct
  | [], pending, seen => ⟨pending, seen⟩
  | operand :: others, pending, seen =>
      let after := push others pending seen
      if after.seen.contains operand then after
      else ⟨operand :: after.pending, after.seen.insert operand⟩

theorem push_bounded (operands pending : List Expr) (seen : Std.HashSet Expr) :
    sizes (push operands pending seen).pending ≤ sizes operands + sizes pending := by
  induction operands with
  | nil => simp [push, sizes]
  | cons operand others ih =>
      simp only [push]
      split <;> simp only [sizes] <;> omega

def next? : Distinct → Option (Expr × Distinct)
  | ⟨[], _⟩ => none
  | ⟨e :: rest, seen⟩ => some (e, push e.operands rest seen)

theorem next_smaller {walk rest : Distinct} {e : Expr} (step : walk.next? = some (e, rest)) :
    sizes rest.pending < sizes walk.pending := by
  obtain ⟨pending, seen⟩ := walk
  cases pending with
  | nil => simp [next?] at step
  | cons head tail =>
      simp only [next?, Option.some.injEq, Prod.mk.injEq] at step
      obtain ⟨rfl, rfl⟩ := step
      have smaller := size_operands head
      have bounded := push_bounded head.operands tail seen
      simp only [sizes]
      omega

/-- Every node still to be visited, in the order of the walk. -/
def toList (walk : Distinct) : List Expr :=
  match _step : walk.next? with
  | none => []
  | some (e, rest) => e :: rest.toList
termination_by sizes walk.pending
decreasing_by exact next_smaller _step

end Distinct

/-- Every subexpression before its operands, shared ones once per occurrence. -/
def preOrder (e : Expr) : List Expr := (PreOrder.start e).toList

/-- Every subexpression after its operands, shared ones once per occurrence. -/
def postOrder (e : Expr) : List Expr := (PostOrder.start e).toList

/-- The distinct subexpressions, each after one of the nodes it is an operand of. -/
def distinctNodes (e : Expr) : List Expr := (Distinct.start e).toList

/-- Number of distinct subexpressions. -/
def nodeCount (e : Expr) : Nat := e.distinctNodes.length

end Expr

end FormCalculus
