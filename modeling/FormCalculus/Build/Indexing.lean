import FormCalculus.Build.Arithmetic

/-!
Subscripts, index sums, component tensors and list tensors. An index that occurs twice in a
subscript, or once there and free in the tensor, is summed over.
-/
set_option autoImplicit false

namespace FormCalculus

/-- The free indices that subscripts add to those of a tensor. The subscripts go along with the
axes of `shape`; a position has to lie on its axis. -/
def FreeIndices.subscribe (tensor : Expr) :
    FreeIndices → List IndexItem → Shape → Except BuildError FreeIndices
  | free, .fixed position :: items, dim :: shape =>
      if dim ≤ position then .error (.componentOutOfRange position dim tensor)
      else subscribe tensor free items shape
  | free, .free index :: items, dim :: shape => do
      subscribe tensor (← free.extend index dim) items shape
  | free, _, _ => .ok free

namespace Expr

mutual
/-- Subscripts a tensor without summing. Components of zeros, of the identity and of list
tensors are selected right away. -/
def subscript : Expr → List IndexItem → Except BuildError Expr
  | self@(.node .listTensor entries _ _), items => do
      if items.length ≠ self.rank then throw (.rankMismatch items.length self)
      if items.isEmpty then return self
      let free ← self.free.subscribe self items self.shape
      match items with
      | .fixed position :: rest => subscriptEntry self entries position rest
      | _ => return .node .indexed [self, multiIndex items] [] free
  | self, items => do
      if items.length ≠ self.rank then throw (.rankMismatch items.length self)
      if items.isEmpty then return self
      let free ← self.free.subscribe self items self.shape
      match self, items with
      | .terminal (.zero ..), _ => return zeros [] free
      | .terminal (.identity _), [.fixed row, .fixed column] =>
          return int (if row = column then 1 else 0)
      | _, _ => return .node .indexed [self, multiIndex items] [] free
/-- Subscripts the entry at a position that the tensor is known to have. -/
def subscriptEntry (self : Expr) : List Expr → Nat → List IndexItem → Except BuildError Expr
  | [], position, _ => throw (.componentOutOfRange position 0 self)
  | entry :: _, 0, items => subscript entry items
  | _ :: rest, position + 1, items => subscriptEntry self rest position items
end

/-- Selects one scalar component. -/
def component (e : Expr) (position : Component) : Except BuildError Expr :=
  e.subscript (position.map .fixed)

/-- Explicit sum of a scalar over one of its free indices. -/
def indexSum (summand : Expr) (index : Index) : Except BuildError Expr := do
  expectScalar .indexSum summand
  if !summand.free.contains index then throw (.notFree index summand)
  let free := summand.free.erase index
  if summand.isZero then return zeros [] free
  return .node .indexSum [summand, multiIndex [.free index]] [] free

/-- Sums over several indices, the first one innermost. -/
def indexSums (summand : Expr) : List Index → Except BuildError Expr
  | [] => .ok summand
  | index :: rest => do (← summand.indexSum index).indexSums rest

/-- How often an index occurs in subscripts, free occurrences in the tensor included. -/
def occurrences (tensor : Expr) (items : List IndexItem) (index : Index) : Nat :=
  items.count (.free index) + if tensor.free.contains index then 1 else 0

/-- The indices among subscripts, each once, in increasing order. -/
def subscriptIndices (items : List IndexItem) : List Index :=
  ((items.filterMap IndexItem.free?).foldl (fun entries index => placeIndex index 0 entries) []).map (·.1)

/-- Subscripts a tensor and sums over the indices that occur twice. -/
def index (tensor : Expr) (items : List IndexItem) : Except BuildError Expr := do
  let indices := subscriptIndices items
  match indices.find? fun i => 2 < tensor.occurrences items i with
  | some i => throw (.repeatedTooOften i tensor)
  | none =>
      (← tensor.subscript items).indexSums (indices.filter fun i => tensor.occurrences items i = 2)

/-- Subscripts by indices only. -/
def indexBy (tensor : Expr) (indices : List Index) : Except BuildError Expr :=
  tensor.index (indices.map .free)

/-- Takes indices away from a free set, giving their dimensions in order. -/
def bindIndices (e : Expr) : FreeIndices → List Index → Except BuildError (Shape × FreeIndices)
  | free, [] => .ok ([], free)
  | free, index :: rest =>
      match free.dim? index with
      | none => .error (.notFree index e)
      | some dim => do
          let (shape, free) ← bindIndices e (free.erase index) rest
          return (dim :: shape, free)

/-- The tensor whose component along `indices` is the scalar `e`. The tensor of the components
of `a`, in their order, is `a`. -/
def asTensor (e : Expr) (indices : List Index) : Except BuildError Expr := do
  if indices.isEmpty then return e
  expectScalar .componentTensor e
  let (shape, free) ← bindIndices e e.free indices
  if e.isZero then return zeros shape free
  let items := indices.map IndexItem.free
  match e with
  | .node .indexed [tensor, subscripts] _ _ =>
      if subscripts.multiIndex? = some items then return tensor
  | _ => pure ()
  return .node .componentTensor [e, multiIndex items] shape free

/-- Tensor that lists its entries along a new first axis. -/
def listTensor (entries : List Expr) : Except BuildError Expr := do
  match entries with
  | [] => throw (.invalidOperand .listTensor .noEntries)
  | first :: rest =>
      for entry in rest do
        expectSameShape .listTensor first entry
        expectSameFree .listTensor first entry
      let shape := entries.length :: first.shape
      if entries.all isZero then return zeros shape first.free
      return .node .listTensor entries shape first.free

/-- Vector of scalars. -/
def vector (entries : List Expr) : Except BuildError Expr := do
  for entry in entries do
    expectScalar .vector entry
  listTensor entries

/-- Matrix of scalars, row by row. -/
def matrix (rows : List (List Expr)) : Except BuildError Expr := do
  listTensor (← rows.mapM vector)

end Expr

end FormCalculus
