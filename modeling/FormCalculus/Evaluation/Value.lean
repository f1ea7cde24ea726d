import FormCalculus.Expr.Equality
import Std.Data.HashMap

/-!
Numeric tensors, and the values that terminals are bound to.
-/
set_option autoImplicit false

namespace FormCalculus

/-- A tensor of doubles. -/
inductive Value where
  | scalar (entry : Float)
  | vector (entries : List Float)
  /-- A matrix row by row; the first row tells the number of columns. -/
  | rows (rows : List (List Float))
  /-- A tensor of any rank, the last axis running fastest. -/
  | array (shape : Shape) (entries : List Float)

namespace Value

def shape : Value → Shape
  | .scalar _ => []
  | .vector entries => [entries.length]
  | .rows table => [table.length, (table.headD []).length]
  | .array shape _ => shape

/-- Place of a component in row-major order, if it lies within the shape. -/
def offset? : Shape → Component → Option Nat
  | [], [] => some 0
  | dim :: shape, position :: component =>
      if position < dim then
        (offset? shape component).map (position * shape.prod + ·)
      else none
  | _, _ => none

/-- One component; none if it has the wrong length or lies outside. -/
def get? : Value → Component → Option Float
  | .scalar entry, [] => some entry
  | .vector entries, [i] => entries[i]?
  | .rows table, [i, j] => table[i]?.bind (·[j]?)
  | .array shape entries, component => (offset? shape component).bind (entries[·]?)
  | _, _ => none

end Value

/-- Values of terminals. -/
structure Bindings where
  values : Std.HashMap Expr Value

namespace Bindings

def empty : Bindings := ⟨∅⟩

/-- Binds a terminal; a value that it had before is lost. -/
def insert (bindings : Bindings) (terminal : Expr) (value : Value) : Bindings :=
  ⟨bindings.values.insert terminal value⟩

/-- Binds terminals one by one. -/
def ofList (pairs : List (Expr × Value)) : Bindings :=
  pairs.foldl (fun bindings pair => bindings.insert pair.1 pair.2) empty

def get? (bindings : Bindings) (terminal : Expr) : Option Value := bindings.values[terminal]?

def size (bindings : Bindings) : Nat := bindings.values.size

def isEmpty (bindings : Bindings) : Bool := bindings.values.isEmpty

end Bindings

end FormCalculus
