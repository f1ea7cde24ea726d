import FormCalculus.OrderedSet
import FormCalculus.Rewrite

/-!
The multilinearity analysis. An expression that is linear in its arguments is a sum of terms,
and its dependencies are the sets of arguments that these terms are products of. The analysis
fails at the node where an argument enters nonlinearly.
-/
set_option autoImplicit false

namespace FormCalculus

/-- The arguments that one term depends on. -/
abbrev DependencyTerm := OrderedSet Argument (compareOn Argument.code)

def DependencyTerm.code (term : DependencyTerm) : List (List Nat) :=
  term.elements.map Argument.code

/-- The dependencies of an expression, one set of arguments for each of its terms. The empty set
belongs to an expression without arguments. -/
abbrev DependencySet := OrderedSet DependencyTerm (compareOn DependencyTerm.code)

namespace DependencySet

/-- One term that depends on `argument` alone. -/
def ofArgument (argument : Argument) : DependencySet := .single (.single argument)

/-- Whether one term depends on exactly these expressions, as arguments. -/
def containsTerm (set : DependencySet) (expressions : List Expr) : Bool :=
  match expressions.mapM Expr.argument? with
  | some arguments => set.contains (.ofList arguments)
  | none => false

/-- The terms of a product: a term of one factor with a term of the other, for all pairs. Two
terms that share an argument make none. -/
def combine? (a b : DependencySet) : Option DependencySet :=
  if a.isEmpty then some b
  else if b.isEmpty then some a
  else
    let pairs := a.elements.flatMap fun s => b.elements.map fun t => (s, t)
    if pairs.all fun pair => pair.1.disjoint pair.2 then
      some (.ofList (pairs.map fun pair => pair.1.union pair.2))
    else none

/-- The terms as lists of argument names, in order of the names. -/
def names (set : DependencySet) : List (List String) :=
  let terms := set.elements.map fun term =>
    (term.elements.map Argument.display).mergeSort fun a b => a ≤ b
  terms.mergeSort fun a b => (compare a b).isLE

def display (set : DependencySet) : String :=
  let terms := set.elements.map fun term =>
    "\x7b" ++ commaList (term.elements.map Argument.display) ++ "\x7d"
  "\x7b" ++ commaList terms ++ "\x7d"

end DependencySet

/-- A rule of the analysis. -/
abbrev DependencyRule := Rule (Except TransformError) DependencySet

namespace Dependency

/-- Operators linear in their first operand, with no argument in the others. -/
def linear : DependencyRule := fun _ sets => .ok (sets.headD ∅)

/-- Operators linear in their first operand, if no other operand has an argument. -/
def linearInFirst : DependencyRule := fun e sets =>
  if (sets.drop 1).all OrderedSet.isEmpty then .ok (sets.headD ∅) else .error (.notMultilinear e)

/-- Operators that no argument may pass. -/
def nonlinear : DependencyRule := fun e sets =>
  if sets.all OrderedSet.isEmpty then .ok ∅ else .error (.notMultilinear e)

/-- The terms of all summands. -/
def sum : DependencyRule := fun _ sets => .ok (sets.foldl OrderedSet.union ∅)

/-- The factors may not share an argument. -/
def product : DependencyRule := fun e sets =>
  match sets.foldlM DependencySet.combine? ∅ with
  | some combined => .ok combined
  | none => .error (.notMultilinear e)

/-- All entries have the same terms. -/
def listTensor : DependencyRule := fun e sets =>
  let first := sets.headD ∅
  if (sets.drop 1).all (· == first) then .ok first else .error (.notMultilinear e)

/-- Both branches have the same terms, and the condition none. -/
def conditional : DependencyRule := fun e sets =>
  match sets with
  | [test, whenTrue, whenFalse] =>
      if test.isEmpty && whenTrue == whenFalse then .ok whenTrue else .error (.notMultilinear e)
  | _ => .error (.notMultilinear e)

/-- An argument is its own dependency; no other terminal has one. -/
def terminal : DependencyRule := fun e _ =>
  match e.argument? with
  | some argument => .ok (.ofArgument argument)
  | none => .ok ∅

def linearKinds : List Kind :=
  [.grad, .div, .curl, .rot, .transposed, .trace, .skew, .restricted, .indexSum, .componentTensor,
   .labelled]

def linearInFirstKinds : List Kind := [.indexed, .spatialDerivative, .variableDerivative, .division]

def productKinds : List Kind := [.product, .inner, .outer, .dot, .cross]

def rules : Rules (Except TransformError) DependencySet :=
  Rules.empty
    |>.onEach Kind.terminals terminal
    |>.onEach Kind.operators nonlinear
    |>.onEach linearKinds linear
    |>.onEach linearInFirstKinds linearInFirst
    |>.on .sum sum
    |>.onEach productKinds product
    |>.on .listTensor listTensor
    |>.on .conditional conditional

end Dependency

namespace Expr

/-- The dependencies of an expression on its arguments. -/
def dependencies (e : Expr) : Except TransformError DependencySet := e.transform Dependency.rules

/-- The dependencies, or none if the expression is not multilinear. -/
def dependencies? (e : Expr) : Except TransformError (Option DependencySet) :=
  match e.dependencies with
  | .ok set => .ok (some set)
  | .error cause => if cause.isNotMultilinear then .ok none else .error cause

def isMultilinear (e : Expr) : Except TransformError Bool := return (← e.dependencies?).isSome

/-- The node at which an argument enters nonlinearly. -/
def nonlinearNode? (e : Expr) : Except TransformError (Option Expr) :=
  match e.dependencies with
  | .ok _ => .ok none
  | .error (.notMultilinear culprit) => .ok (some culprit)
  | .error cause => .error cause

end Expr

end FormCalculus
