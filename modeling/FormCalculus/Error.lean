import FormCalculus.Expr.Display

/-!
What can go wrong when expressions are built, rewritten, lowered and evaluated, and how each
cause is worded.
-/
set_option autoImplicit false

namespace FormCalculus

/-- The construction that refused its operands. -/
inductive Construction where
  | sum
  | product
  | contraction
  | division
  | power
  | sqrt
  | indexed
  | indexSum
  | componentTensor
  | listTensor
  | vector
  | condition
  | conditional
  | div
  | curl
  | rot
  | spatialDerivative
  | variableDerivative
  | transposed
  | inner
  | outer
  | dot
  | cross
  | trace
  | skew
  | determinant
  | inverse
  | cofactor
  | deviatoric
  | labelled
deriving DecidableEq

def Construction.name : Construction → String
  | .sum => "sum"
  | .product => "product"
  | .contraction => "contraction"
  | .division => "division"
  | .power => "power"
  | .sqrt => "sqrt"
  | .indexed => "indexed"
  | .indexSum => "index sum"
  | .componentTensor => "as_tensor"
  | .listTensor => "list tensor"
  | .vector => "as_vector"
  | .condition => "condition"
  | .conditional => "conditional"
  | .div => "div"
  | .curl => "curl"
  | .rot => "rot"
  | .spatialDerivative => "spatial derivative"
  | .variableDerivative => "variable derivative"
  | .transposed => "transpose"
  | .inner => "inner"
  | .outer => "outer"
  | .dot => "dot"
  | .cross => "cross"
  | .trace => "trace"
  | .skew => "skew"
  | .determinant => "determinant"
  | .inverse => "inverse"
  | .cofactor => "cofactor"
  | .deviatoric => "deviatoric"
  | .labelled => "variable"

/-- Why an operand has the wrong kind or shape. -/
inductive OperandFault where
  | notSquare (shape : Shape)
  | notMatrix (shape : Shape)
  | notScalarOrMatrix (shape : Shape)
  | noCurl (shape : Shape)
  | ranks (left right : Shape)
  | sharedIndices (indices : List Index) (left right : Expr)
  | notMultiIndex (operand : Expr)
  | notOneIndex (operand : Expr)
  | indexedExponent (exponent : Expr)
  | zeroDivisor (dividend : Expr)
  | noEntries
  | notConditions (op : Comparison) (operand : Expr)
  | notCondition (operand : Expr)
  | scalarDivergence (operand : Expr)
  | notLabelled (operand : Expr)
  | indexedVariable (operand : Expr)
  | wrappedMultiIndex

/-- A node that cannot be built. -/
inductive BuildError where
  | arity (kind : Kind) (expected got : Nat)
  | shapeMismatch (op : Construction) (left right : Shape)
  | freeIndexMismatch (op : Construction) (left right : FreeIndices)
  | expectedScalar (op : Construction) (operand : Expr)
  | dimensionConflict (conflict : DimensionConflict)
  | rankMismatch (got : Nat) (operand : Expr)
  | componentOutOfRange (position dim : Nat) (operand : Expr)
  | notFree (index : Index) (operand : Expr)
  | expectedFreeIndex (op : Construction)
  | repeatedTooOften (index : Index) (operand : Expr)
  | noGeometricDimension (operand : Expr)
  | invalidOperand (op : Construction) (fault : OperandFault)

/-- The closed form that refused its matrix. -/
inductive Formula where
  | cross
  | determinant
  | pseudoDeterminant
  | inverse
  | pseudoInverse
  | adjugate
  | cofactor
  | deviatoric
deriving DecidableEq

def Formula.name : Formula → String
  | .cross => "cross_expr"
  | .determinant => "determinant_expr"
  | .pseudoDeterminant => "pseudo_determinant_expr"
  | .inverse => "inverse_expr"
  | .pseudoInverse => "pseudo_inverse_expr"
  | .adjugate => "adj_expr"
  | .cofactor => "cofactor_expr"
  | .deviatoric => "deviatoric_expr"

/-- A compound operator without a closed form for its operand. -/
inductive LoweringError where
  | notSquare (shape : Shape)
  | dimensionNotImplemented (formula : Formula) (dim : Nat)
  | unsupportedShape (formula : Formula) (shape : Shape)
  | freeIndices (formula : Formula) (operand : Expr)
  | emptyDeterminant
  | build (cause : BuildError)

/-- What a pass over an expression expects to have been done before. -/
inductive Precondition where
  | derivativesExpanded
  | compoundsLowered
  | sumHasIndex
  | sumIndexFree
  | multiIndexOperand
deriving DecidableEq

/-- A failure of a pass over an expression. -/
inductive TransformError where
  | missingHandler (node : Expr)
  | shapeMismatch (expected got : Nat) (node : Expr)
  | unassignedIndex (indices : List Index) (node : Expr)
  | unsupported (missing : Precondition) (node : Expr)
  | notMultilinear (node : Expr)
  | build (cause : BuildError)
  | lowering (cause : LoweringError)

/-- A failure of numeric evaluation. -/
inductive EvalError where
  | unbound (terminal : Expr)
  | nonScalar (e : Expr)
  | unsupported (e : Expr)
  | componentOutOfRange (component : Component) (terminal : Expr)
  | transform (cause : TransformError)

/-- Any failure, by the stage it was met in. -/
inductive FormError where
  | build (cause : BuildError)
  | transform (cause : TransformError)
  | lowering (cause : LoweringError)
  | eval (cause : EvalError)

/-! Wording. An error that has a cause is followed by the wording of the cause. -/

variable (names : Naming)

def OperandFault.message : OperandFault → String
  | .notSquare shape => s!"expecting a square matrix, got shape {bracketed shape}"
  | .notMatrix shape => s!"expecting a matrix, got shape {bracketed shape}"
  | .notScalarOrMatrix shape => s!"expecting a scalar or matrix, got shape {bracketed shape}"
  | .noCurl shape => s!"expecting a scalar, 2-vector or 3-vector, got shape {bracketed shape}"
  | .ranks left right => s!"cannot multiply shapes {bracketed left} and {bracketed right}"
  | .sharedIndices indices left right =>
      let shared := commaList (indices.map names.index)
      s!"repeated free indices {shared} in {left.displayWith names} and {right.displayWith names}"
  | .notMultiIndex operand => s!"expecting a multi-index, got {operand.displayWith names}"
  | .notOneIndex operand => s!"expecting a single index, got {operand.displayWith names}"
  | .indexedExponent exponent => s!"exponent {exponent.displayWith names} has free indices"
  | .zeroDivisor dividend => s!"division of {dividend.displayWith names} by zero"
  | .noEntries => "no entries"
  | .notConditions op operand => s!"{op.symbol} expects conditions, got {operand.displayWith names}"
  | .notCondition operand => s!"expecting a condition, got {operand.displayWith names}"
  | .scalarDivergence operand =>
      s!"cannot take the divergence of scalar {operand.displayWith names}"
  | .notLabelled operand => s!"expecting a variable, got {operand.displayWith names}"
  | .indexedVariable operand => s!"variable {operand.displayWith names} has free indices"
  | .wrappedMultiIndex => "cannot wrap a multi-index"

def BuildError.message : BuildError → String
  | .arity kind expected got => s!"{kind.name} expects {expected} operands, got {got}"
  | .shapeMismatch op left right =>
      s!"shape mismatch in {op.name}: {bracketed left} vs {bracketed right}"
  | .freeIndexMismatch op left right =>
      s!"free index mismatch in {op.name}: {left.display names} vs {right.display names}"
  | .expectedScalar op operand =>
      s!"{op.name} expects a scalar operand, got shape {bracketed operand.shape} in "
        ++ operand.displayWith names
  | .dimensionConflict ⟨index, first, second⟩ =>
      s!"index {names.index index} used with dimensions {first} and {second}"
  | .rankMismatch got operand =>
      s!"multi-index of length {got} cannot subscript rank {operand.rank} expression "
        ++ operand.displayWith names
  | .componentOutOfRange position dim operand =>
      s!"fixed index {position} out of range for dimension {dim} in {operand.displayWith names}"
  | .notFree index operand =>
      s!"index {names.index index} is not a free index of {operand.displayWith names}"
  | .expectedFreeIndex op => s!"{op.name} expects free indices only"
  | .repeatedTooOften index operand =>
      s!"index {names.index index} repeated more than twice in {operand.displayWith names}"
  | .noGeometricDimension operand =>
      s!"cannot determine the geometric dimension of {operand.displayWith names}"
  | .invalidOperand op fault => s!"invalid operand for {op.name}: {fault.message names}"

def LoweringError.message : LoweringError → String
  | .notSquare shape => s!"expecting square matrix, got shape {bracketed shape}"
  | .dimensionNotImplemented formula dim => s!"{formula.name} not implemented for dimension {dim}"
  | .unsupportedShape formula shape =>
      s!"{formula.name} not implemented for shape {bracketed shape}"
  | .freeIndices formula operand =>
      s!"{formula.name} expects an operand without free indices, got {operand.displayWith names}"
  | .emptyDeterminant => "the determinant of an empty matrix has no first row"
  | .build cause => s!"failed to build lowered expression: {cause.message names}"

def Precondition.message : Precondition → String
  | .derivativesExpanded => "expecting derivatives to be expanded before index expansion"
  | .compoundsLowered => "expecting compound tensor algebra to be lowered before index expansion"
  | .sumHasIndex => "index sum without an index"
  | .sumIndexFree => "summation index is not free in the summand"
  | .multiIndexOperand => "expecting a multi-index operand"

def TransformError.message : TransformError → String
  | .missingHandler e => s!"no handler for {e.kind.name} while transforming {e.displayWith names}"
  | .shapeMismatch expected got e =>
      s!"component size mismatch: expected {expected}, got {got} at {e.displayWith names}"
  | .unassignedIndex indices e =>
      let missing := commaList (indices.map names.index)
      s!"free index set mismatch, these indices have no value assigned: {missing} at "
        ++ e.displayWith names
  | .unsupported missing e => s!"not implemented: {missing.message} at {e.displayWith names}"
  | .notMultilinear e =>
      s!"expression is not multilinear in its arguments: {e.displayWith names}"
  | .build cause => s!"failed to rebuild node: {cause.message names}"
  | .lowering cause => s!"failed to lower compound operator: {cause.message names}"

def EvalError.message : EvalError → String
  | .unbound terminal => s!"no value bound for {terminal.displayWith names}"
  | .nonScalar e =>
      s!"can only evaluate scalar expressions, got shape {bracketed e.shape} for "
        ++ e.displayWith names
  | .unsupported e => s!"cannot evaluate {e.displayWith names}"
  | .componentOutOfRange component terminal =>
      s!"component {bracketed component} out of range for {terminal.displayWith names}"
  | .transform cause => s!"failed to expand indices: {cause.message names}"

def FormError.message : FormError → String
  | .build cause => s!"failed to build expression: {cause.message names}"
  | .transform cause => s!"failed to transform expression: {cause.message names}"
  | .lowering cause => s!"failed to lower compound expression: {cause.message names}"
  | .eval cause => s!"failed to evaluate expression: {cause.message names}"

/-- Whether the failure is the finding that an expression is not multilinear. -/
def TransformError.isNotMultilinear : TransformError → Bool
  | .notMultilinear _ => true
  | _ => false

end FormCalculus
