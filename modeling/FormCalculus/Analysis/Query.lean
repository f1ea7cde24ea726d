import FormCalculus.Expr.Traversal

/-!
What an expression is made of: its distinct nodes of one kind, its terminals, and its indices.
-/
set_option autoImplicit false

namespace FormCalculus

namespace Expr

/-- Distinct nodes of one kind. -/
def nodesOf (kind : Kind) (e : Expr) : List Expr := e.distinctNodes.filter fun node => node.kind = kind

/-- Distinct terminals, multi-indices left out. -/
def terminals (e : Expr) : List Expr :=
  e.distinctNodes.filter fun node => node.isTerminal && node.kind ≠ .multiIndex

/-- By number, then by part; an argument without a part comes first. -/
def argumentKey (e : Expr) : List Nat :=
  match e.argument? with
  | some a => [a.number, match a.part with | none => 0 | some part => part + 1]
  | none => []

/-- Distinct arguments in order of number and part. -/
def arguments (e : Expr) : List Expr :=
  (e.nodesOf .argument).mergeSort fun a b => (compare a.argumentKey b.argumentKey).isLE

def coefficientKey (e : Expr) : Nat := (e.coefficient?.map Coefficient.number).getD 0

/-- Distinct coefficients in order of number. -/
def coefficients (e : Expr) : List Expr :=
  (e.nodesOf .coefficient).mergeSort fun a b => a.coefficientKey ≤ b.coefficientKey

/-- The indices in all multi-indices, each once, in increasing order. -/
def indices (e : Expr) : List Index :=
  let items := (e.nodesOf .multiIndex).flatMap fun node => node.multiIndex?.getD []
  ((items.filterMap IndexItem.free?).foldl (fun entries index => placeIndex index 0 entries) []).map
    (·.1)

end Expr

end FormCalculus
