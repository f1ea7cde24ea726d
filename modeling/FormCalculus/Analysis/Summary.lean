import FormCalculus.Analysis.Dependency
import FormCalculus.Analysis.Query
import FormCalculus.Sharing.Stripping

/-!
An overview of one integrand: what it is made of, and how it depends on its arguments.
-/
set_option autoImplicit false

namespace FormCalculus

structure Summary where
  integrand : Expr
  arguments : List Expr
  coefficients : List Expr
  labelled : List Expr
  /-- None if the integrand is not multilinear. -/
  dependencies : Option DependencySet

namespace Summary

def ofIntegrand (integrand : Expr) : Except TransformError Summary := do
  let dependencies ← integrand.dependencies?
  return ⟨integrand, integrand.arguments, integrand.coefficients, integrand.labelledParts, dependencies⟩

/-- Number of distinct argument numbers: 0 for a functional, 1 for a linear form, 2 for a
bilinear form. -/
def rank (summary : Summary) : Nat :=
  ((summary.arguments.filterMap Expr.argument?).map Argument.number).eraseDups.length

def isMultilinear (summary : Summary) : Bool := summary.dependencies.isSome

/-- Colours of a terminal, by the number of their escape sequence. -/
inductive Colour where
  | cyan
  | red

def Colour.code : Colour → String
  | .cyan => "36"
  | .red => "31"

/-- Text in a colour, if colours are wanted. -/
def paint (coloured : Bool) (colour : Colour) (text : String) : String :=
  if coloured then "\x1b[" ++ colour.code ++ "m" ++ text ++ "\x1b[0m" else text

/-- One paragraph for each part of the summary. -/
def display (names : Naming) (coloured : Bool) (summary : Summary) : String :=
  let list (nodes : List Expr) := "[" ++ commaList (nodes.map (Expr.displayWith names)) ++ "]"
  let dependencies := match summary.dependencies with
    | some set => set.display
    | none => paint coloured .red "not multilinear"
  let parts := [("Integrand", summary.integrand.displayWith names),
    ("Arguments", list summary.arguments), ("Coefficients", list summary.coefficients),
    ("Variables", list summary.labelled), ("Dependencies", dependencies)]
  let lines := parts.map fun part => "    " ++ paint coloured .cyan part.1 ++ ": " ++ part.2 ++ "\n\n"
  "\x7b\n\n" ++ String.join lines ++ "\x7d\n"

end Summary

end FormCalculus
