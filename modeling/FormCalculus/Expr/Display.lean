import FormCalculus.Decimal.Shortest
import FormCalculus.Expr.Basic

/-!
Expressions as text in the usual notation: arithmetic in parentheses, tensor algebra as function
calls, subscripts in brackets.
-/
set_option autoImplicit false

namespace FormCalculus

/-- How indices and labels are spelled. -/
structure Naming where
  index : Index → String
  label : Label → String

namespace Naming

/-- Names by number. -/
def numbered : Naming :=
  ⟨fun index => s!"i_{index.number}", fun label => s!"var{label.number}"⟩

def item (names : Naming) : IndexItem → String
  | .fixed position => toString position
  | .free index => names.index index

end Naming

/-- The items one after another, separated by commas. -/
def commaList (items : List String) : String := ", ".intercalate items

/-- A shape or component in brackets. -/
def bracketed (numbers : List Nat) : String := "[" ++ commaList (numbers.map toString) ++ "]"

def FreeIndices.display (names : Naming) (set : FreeIndices) : String :=
  "\x7b" ++ commaList (set.indices.map names.index) ++ "\x7d"

/-- An argument by its number, with its part raised. -/
def Argument.display (a : Argument) : String :=
  match a.part with
  | none => s!"v_{a.number}"
  | some part => s!"v_{a.number}^{part}"

def Terminal.display (names : Naming) : Terminal → String
  | .zero .. => "0"
  | .int value => toString value.toInt
  | .real value => Decimal.text value.toFloat
  | .identity dim => s!"I{dim}"
  | .argument a => a.display
  | .coefficient c => s!"w_{c.number}"
  | .coordinate _ => "x"
  | .label name => names.label name
  | .multiIndex items => "(" ++ commaList (items.map names.item) ++ ")"

/-- The name an operator is called by when it is written as a function. -/
def Operator.callName : Operator → String
  | .sqrt => "sqrt"
  | .grad => "grad"
  | .div => "div"
  | .curl => "curl"
  | .rot => "rot"
  | .variableDerivative => "diff"
  | .componentTensor => "as_tensor"
  | .transposed => "transpose"
  | .inner => "inner"
  | .outer => "outer"
  | .dot => "dot"
  | .cross => "cross"
  | .trace => "tr"
  | .skew => "skew"
  | .determinant => "det"
  | .inverse => "inv"
  | .cofactor => "cofac"
  | .deviatoric => "dev"
  | op => op.kind.name

/-- The text of a node from the texts of its operands. -/
def Operator.display : Operator → List String → String
  | .sum, [a, b] => "(" ++ a ++ " + " ++ b ++ ")"
  | .product, [a, b] => "(" ++ a ++ " * " ++ b ++ ")"
  | .division, [a, b] => "(" ++ a ++ " / " ++ b ++ ")"
  | .power, [a, b] => "(" ++ a ++ "^" ++ b ++ ")"
  | .indexSum, [summand, indices] => "sum_\x7b" ++ indices ++ "\x7d(" ++ summand ++ ")"
  | .listTensor, entries => "[" ++ commaList entries ++ "]"
  | .conditional, [c, t, f] => "(" ++ c ++ " ? " ++ t ++ " : " ++ f ++ ")"
  | .condition .not, [a] => "!(" ++ a ++ ")"
  | .condition op, [a, b] => "(" ++ a ++ " " ++ op.symbol ++ " " ++ b ++ ")"
  | .spatialDerivative, [f, indices] => f ++ ".dx" ++ indices
  | .restricted .positive, [f] => "(" ++ f ++ ")('+')"
  | .restricted .negative, [f] => "(" ++ f ++ ")('-')"
  | op, operands => op.callName ++ "(" ++ commaList operands ++ ")"

namespace Expr

mutual
def displayWith (names : Naming) : Expr → String
  | .terminal data => data.display names
  | .node .indexed [tensor, subscripts] _ _ =>
      displayWith names tensor ++ "["
        ++ commaList ((subscripts.multiIndex?.getD []).map names.item) ++ "]"
  | .node op operands _ _ => op.display (displayAll names operands)
  | .labelled label _ => names.label label
def displayAll (names : Naming) : List Expr → List String
  | [] => []
  | e :: rest => displayWith names e :: displayAll names rest
end

/-- The expression with indices and labels named by their numbers. -/
def display (e : Expr) : String := e.displayWith .numbered

instance : ToString Expr := ⟨display⟩

/-- The expression set apart as a value in a message. -/
def debugWith (names : Naming) (e : Expr) : String := "Expr(" ++ e.displayWith names ++ ")"

end Expr

end FormCalculus
