/-!
The names of the calculus: indices, labels, and the supply that hands out fresh ones.
-/
set_option autoImplicit false

namespace FormCalculus

/-- Tensor dimensions, one per axis; the empty shape is a scalar. -/
abbrev Shape := List Nat

/-- One position along each axis of a tensor. -/
abbrev Component := List Nat

/-- A free or summed index. Two indices are the same exactly when their numbers are; the
dimension an index ranges over belongs to the position it subscripts. -/
structure Index where
  number : Nat
deriving DecidableEq

/-- The handle of a labelled expression, kept through rewriting. -/
structure Label where
  number : Nat
deriving DecidableEq

/-- One entry of a multi-index: a position or an index. -/
inductive IndexItem where
  | fixed (position : Nat)
  | free (index : Index)
deriving DecidableEq

namespace IndexItem

def free? : IndexItem → Option Index
  | .free index => some index
  | .fixed _ => none

def fixed? : IndexItem → Option Nat
  | .fixed position => some position
  | .free _ => none

end IndexItem

/-- The numbers not yet handed out. -/
structure Supply where
  coefficient : Nat := 0
  index : Nat := 0
  label : Nat := 0
deriving DecidableEq

/-- A computation that may fail and may take fresh names from the supply. -/
abbrev Fresh (ε α : Type) := StateT Supply (Except ε) α

namespace Fresh

variable {ε δ α : Type}

/-- Fails as `act` does, with the failure seen from one level up. -/
def mapError (f : ε → δ) (act : Fresh ε α) : Fresh δ α := fun supply => (act supply).mapError f

def newIndex : Fresh ε Index := fun supply =>
  .ok (⟨supply.index⟩, { supply with index := supply.index + 1 })

/-- `count` fresh indices in increasing order. -/
def newIndices : (count : Nat) → Fresh ε (List Index)
  | 0 => pure []
  | count + 1 => do
      let index ← newIndex
      return index :: (← newIndices count)

def newLabel : Fresh ε Label := fun supply =>
  .ok (⟨supply.label⟩, { supply with label := supply.label + 1 })

def newCoefficient : Fresh ε Nat := fun supply =>
  .ok (supply.coefficient, { supply with coefficient := supply.coefficient + 1 })

end Fresh

end FormCalculus
