import FormCalculus.Symbol

/-!
Function spaces: the value shape of their functions, the dimension of the domain, and which
components of a function alias each other.
-/
set_option autoImplicit false

namespace FormCalculus

/-- Lexicographic order on components of any length. -/
def Component.precedes : Component → Component → Bool
  | [], [] => false
  | [], _ :: _ => true
  | _ :: _, [] => false
  | a :: as, b :: bs => a < b || (a == b && Component.precedes as bs)

/-- Which component each aliased component stands for, ordered by the aliased one. -/
abbrev SymmetryMap := List (Component × Component)

namespace SymmetryMap

/-- Adds an alias; a later one for the same component replaces the earlier. -/
def insert (component target : Component) : SymmetryMap → SymmetryMap
  | [] => [(component, target)]
  | entry :: rest =>
      if component.precedes entry.1 then (component, target) :: entry :: rest
      else if component = entry.1 then (component, target) :: rest
      else entry :: insert component target rest

def ofList (aliases : List (Component × Component)) : SymmetryMap :=
  aliases.foldl (fun map entry => insert entry.1 entry.2 map) []

end SymmetryMap

/-- What an argument or a coefficient is drawn from. -/
structure FunctionSpace where
  valueShape : Shape
  /-- Dimension of the domain, the extent of the axis that a gradient appends. -/
  gdim : Nat
  symmetry : Option SymmetryMap
deriving DecidableEq

namespace FunctionSpace

def tensor (valueShape : Shape) (gdim : Nat) : FunctionSpace := ⟨valueShape, gdim, none⟩

def scalar (gdim : Nat) : FunctionSpace := tensor [] gdim

def vector (dim gdim : Nat) : FunctionSpace := tensor [dim] gdim

/-- Symmetric matrices: an entry below the diagonal aliases its mirror image above. -/
def symmetric (dim gdim : Nat) : FunctionSpace :=
  let rows := List.range dim
  let below := rows.flatMap fun row => (List.range row).map fun column => ([row, column], [column, row])
  ⟨[dim, dim], gdim, some (SymmetryMap.ofList below)⟩

/-- The component that `component` stands for. -/
def canonicalComponent (space : FunctionSpace) (component : Component) : Component :=
  ((space.symmetry.getD []).lookup component).getD component

end FunctionSpace

end FormCalculus
