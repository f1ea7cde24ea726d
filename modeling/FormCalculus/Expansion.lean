import FormCalculus.Rewrite

/-!
Expansion of free and summed indices into components. Every tensor ends up subscripted by
positions, and every index sum is written out term by term.

An expression is expanded at a component of its shape, under the positions assigned to the
indices bound around it. A shared node is expanded once for each way to reach it, as its
expansion depends on both.
-/
set_option autoImplicit false

namespace FormCalculus

/-- Where an expression is expanded: the component selected on it, and the positions of the
indices bound around it, innermost first. -/
structure Scope where
  component : Component
  positions : List (Index × Nat)

namespace Scope

def position? (scope : Scope) (index : Index) : Option Nat := scope.positions.lookup index

def select (scope : Scope) (component : Component) : Scope := { scope with component }

def bind (scope : Scope) (index : Index) (position : Nat) : Scope :=
  { scope with positions := (index, position) :: scope.positions }

/-- Binds indices one by one, each within the scope of those before it. -/
def bindAll (scope : Scope) (bindings : List (Index × Nat)) : Scope :=
  bindings.foldl (fun scope binding => scope.bind binding.1 binding.2) scope

/-- The indices among `indices` that have no position. -/
def unassigned (scope : Scope) (indices : List Index) : List Index :=
  indices.filter fun index => (scope.position? index).isNone

/-- Checks that every index has a position. -/
def assigns (scope : Scope) (indices : List Index) (node : Expr) : Except TransformError Unit :=
  match scope.unassigned indices with
  | [] => .ok ()
  | missing => .error (.unassignedIndex missing node)

/-- Checks that the component fits the rank of an expression. -/
def fits (scope : Scope) (node : Expr) : Except TransformError Unit :=
  if scope.component.length = node.rank then .ok ()
  else .error (.shapeMismatch node.rank scope.component.length node)

/-- The position of an item. -/
def resolve (scope : Scope) : IndexItem → IndexItem
  | .fixed position => .fixed position
  | .free index => ((scope.position? index).map .fixed).getD (.free index)

end Scope

namespace Expr

/-- Checks that an operand meant to be scalar is one. -/
def requireScalar (node : Expr) : Except TransformError Unit :=
  if node.isScalar then .ok () else .error (.shapeMismatch 0 node.rank node)

/-- The indices in the second operand of an index sum or component tensor. -/
def boundIndices (node indices : Expr) : Except TransformError (List Index) :=
  match indices.multiIndex? with
  | some items => .ok (items.filterMap IndexItem.free?)
  | none => .error (.unsupported .multiIndexOperand node)

/-- Subscripts an expression by a component if it is a tensor. -/
def selectAt (node : Expr) (component : Component) : Except TransformError Expr :=
  if node.isScalar then .ok node else (node.component component).mapError .build

end Expr

/-- A terminal at a component. A symmetric function is subscripted by the component that the
selected one stands for. -/
def Terminal.expandIn (scope : Scope) : Terminal → Except TransformError Expr
  | .zero shape free => do
      let node := Expr.zeros shape free
      scope.fits node
      scope.assigns free.indices node
      return .zero
  | .multiIndex items => do
      scope.assigns (items.filterMap IndexItem.free?) (.multiIndex items)
      return .multiIndex (items.map scope.resolve)
  | data => do
      let node := Expr.terminal data
      scope.fits node
      let canonical := match node.space? with
        | some space => space.canonicalComponent scope.component
        | none => scope.component
      node.selectAt canonical

namespace Expr

variable [Folding]

/-- A node with expanded operands. -/
def reassemble (node : Expr) (op : Operator) (operands : List Expr) : Except TransformError Expr :=
  node.reuseOr (fun operands => (op.assemble operands).mapError .build) operands

mutual
def expandIn : Expr → Scope → Except TransformError Expr
  | .terminal data, scope => data.expandIn scope
  | .labelled _ body, scope => expandIn body scope
  | node@(.node .conditional [test, whenTrue, whenFalse] _ _), scope => do
      test.requireScalar
      let test ← expandIn test (scope.select [])
      let whenTrue ← expandIn whenTrue scope
      let whenFalse ← expandIn whenFalse scope
      node.reassemble .conditional [test, whenTrue, whenFalse]
  | node@(.node .division [a, b] _ _), scope => do
      if !scope.component.isEmpty then throw (.shapeMismatch 0 scope.component.length node)
      let a ← expandIn a scope
      let b ← expandIn b scope
      node.reassemble .division [a, b]
  | node@(.node .indexSum [summand, indices] _ _), scope => do
      match ← boundIndices node indices with
      | [] => throw (.unsupported .sumHasIndex node)
      | index :: _ =>
          match summand.free.dim? index with
          | none => throw (.unsupported .sumIndexFree node)
          | some dim =>
              (List.range dim).foldlM (fun total position => do
                let term ← expandIn summand (scope.bind index position)
                (total.add term).mapError .build) zero
  | .node .indexed [tensor, subscripts] _ _, scope => do
      let fixed ← expandIn subscripts scope
      let component := (fixed.multiIndex?.getD []).filterMap IndexItem.fixed?
      expandIn tensor (scope.select component)
  | node@(.node .componentTensor [e, indices] _ _), scope => do
      e.requireScalar
      let indices ← boundIndices node indices
      if indices.length ≠ scope.component.length then
        throw (.shapeMismatch indices.length scope.component.length node)
      expandIn e ((scope.bindAll (indices.zip scope.component)).select [])
  | node@(.node .listTensor entries _ _), scope =>
      match scope.component with
      | [] => throw (.shapeMismatch node.rank 0 node)
      | position :: rest => expandEntry node position entries position (scope.select rest)
  | node@(.node .grad [f] _ _), scope => do
      if !(f.isTerminal || f.kind = .grad) then throw (.unsupported .derivativesExpanded node)
      scope.fits node
      node.selectAt scope.component
  | node@(.node op operands _ _), scope => do
      if op = .variableDerivative then throw (.unsupported .derivativesExpanded node)
      if op.kind.isCompound then throw (.unsupported .compoundsLowered node)
      node.reassemble op (← expandAll operands scope)
/-- The entry of a list tensor at a position, counted down along the entries. -/
def expandEntry (node : Expr) (position : Nat) :
    List Expr → Nat → Scope → Except TransformError Expr
  | [], _, _ => throw (.shapeMismatch node.operands.length position node)
  | entry :: _, 0, scope => expandIn entry scope
  | _ :: rest, ahead + 1, scope => expandEntry node position rest ahead scope
/-- Operands at the component of their node. -/
def expandAll : List Expr → Scope → Except TransformError (List Expr)
  | [], _ => pure []
  | e :: rest, scope => do
      let first ← expandIn e scope
      return first :: (← expandAll rest scope)
end

/-- The tensor of a given shape whose scalar at each component is found by `entry`. -/
def tabulate (entry : Component → Except TransformError Expr) :
    Shape → Component → Except TransformError Expr
  | [], position => entry position
  | dim :: shape, position => do
      let entries ← (List.range dim).mapM fun next => tabulate entry shape (position ++ [next])
      (listTensor entries).mapError .build

/-- Expands a scalar to a scalar without indices, and a tensor to nested lists of its expanded
components. -/
def expand (e : Expr) : Except TransformError Expr :=
  tabulate (fun component => e.expandIn ⟨component, []⟩) e.shape []

/-- Expands an expression if it has a list tensor in it. -/
def purgeListTensors (e : Expr) : Except TransformError Expr :=
  if e.distinctNodes.any fun node => node.kind = .listTensor then e.expand else .ok e

end Expr

end FormCalculus
