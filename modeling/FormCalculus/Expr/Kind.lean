/-!
The kinds of expression nodes, and the finite choices that some of them carry.
-/
set_option autoImplicit false

namespace FormCalculus

/-- Side of an interior facet that a restricted expression is read on. -/
inductive Side where
  | positive
  | negative
deriving DecidableEq

/-- Boolean operators: comparisons of scalars, and the connectives of conditions. -/
inductive Comparison where
  | eq
  | ne
  | lt
  | gt
  | le
  | ge
  | and
  | or
  | not
deriving DecidableEq

namespace Side

def name : Side → String
  | .positive => "Positive"
  | .negative => "Negative"

end Side

namespace Comparison

def all : List Comparison := [.eq, .ne, .lt, .gt, .le, .ge, .and, .or, .not]

def name : Comparison → String
  | .eq => "Eq"
  | .ne => "Ne"
  | .lt => "Lt"
  | .gt => "Gt"
  | .le => "Le"
  | .ge => "Ge"
  | .and => "And"
  | .or => "Or"
  | .not => "Not"

def ofName? (name : String) : Option Comparison := all.find? fun op => op.name = name

def symbol : Comparison → String
  | .eq => "=="
  | .ne => "!="
  | .lt => "<"
  | .gt => ">"
  | .le => "<="
  | .ge => ">="
  | .and => "&&"
  | .or => "||"
  | .not => "!"

def arity : Comparison → Nat
  | .not => 1
  | _ => 2

/-- Whether the operands are conditions themselves. -/
def isLogical : Comparison → Bool
  | .and | .or | .not => true
  | _ => false

end Comparison

/-- What a node is, without the data it carries. The order of the kinds is the order in which
sums and products list their operands. -/
inductive Kind where
  | zero
  | int
  | real
  | identity
  | argument
  | coefficient
  | coordinate
  | label
  | multiIndex
  | sum
  | product
  | division
  | power
  | sqrt
  | indexed
  | indexSum
  | componentTensor
  | listTensor
  | conditional
  | condition
  | grad
  | div
  | curl
  | rot
  | spatialDerivative
  | variableDerivative
  | restricted
  | transposed
  | inner
  | outer
  | dot
  | cross
  | trace
  | skew
  | determinant
  | inverse
  | cofactor
  | deviatoric
  | labelled
deriving DecidableEq

namespace Kind

def terminals : List Kind :=
  [.zero, .int, .real, .identity, .argument, .coefficient, .coordinate, .label, .multiIndex]

def operators : List Kind :=
  [.sum, .product, .division, .power, .sqrt, .indexed, .indexSum, .componentTensor, .listTensor,
   .conditional, .condition, .grad, .div, .curl, .rot, .spatialDerivative, .variableDerivative,
   .restricted, .transposed, .inner, .outer, .dot, .cross, .trace, .skew, .determinant, .inverse,
   .cofactor, .deviatoric, .labelled]

def all : List Kind := terminals ++ operators

def name : Kind → String
  | .zero => "Zero"
  | .int => "IntValue"
  | .real => "FloatValue"
  | .identity => "Identity"
  | .argument => "Argument"
  | .coefficient => "Coefficient"
  | .coordinate => "SpatialCoordinate"
  | .label => "Label"
  | .multiIndex => "MultiIndex"
  | .sum => "Sum"
  | .product => "Product"
  | .division => "Division"
  | .power => "Power"
  | .sqrt => "Sqrt"
  | .indexed => "Indexed"
  | .indexSum => "IndexSum"
  | .componentTensor => "ComponentTensor"
  | .listTensor => "ListTensor"
  | .conditional => "Conditional"
  | .condition => "Condition"
  | .grad => "Grad"
  | .div => "Div"
  | .curl => "Curl"
  | .rot => "Rot"
  | .spatialDerivative => "SpatialDerivative"
  | .variableDerivative => "VariableDerivative"
  | .restricted => "Restricted"
  | .transposed => "Transposed"
  | .inner => "Inner"
  | .outer => "Outer"
  | .dot => "Dot"
  | .cross => "Cross"
  | .trace => "Trace"
  | .skew => "Skew"
  | .determinant => "Determinant"
  | .inverse => "Inverse"
  | .cofactor => "Cofactor"
  | .deviatoric => "Deviatoric"
  | .labelled => "Variable"

def ofName? (name : String) : Option Kind := all.find? fun kind => kind.name = name

/-- Position in the order of kinds. -/
def rank (kind : Kind) : Nat := kind.ctorIdx

def isTerminal (kind : Kind) : Bool := terminals.contains kind

/-- Terminals that hold no data of the form: cheaper to repeat than to name. -/
def isTrivialConstant : Kind → Bool
  | .zero | .int | .real | .identity | .multiIndex => true
  | _ => false

/-- The tensor algebra operators that lowering rewrites away. -/
def compounds : List Kind :=
  [.transposed, .inner, .outer, .dot, .cross, .trace, .skew, .determinant, .inverse, .cofactor,
   .deviatoric, .div, .curl, .rot]

def isCompound (kind : Kind) : Bool := compounds.contains kind

end Kind

end FormCalculus
