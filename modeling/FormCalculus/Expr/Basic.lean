import FormCalculus.Binary64
import FormCalculus.Expr.Kind
import FormCalculus.FreeIndices
import FormCalculus.Space

/-!
Expressions: terminals, operator nodes, and labelled expressions.

A node stores its shape and free indices, which the constructors under `FormCalculus.Build`
work out, and every expression keeps a digest so that equality is cheap on shared expressions.
-/
set_option autoImplicit false

namespace FormCalculus

/-- A test or trial function of a form, or its part in a mixed space. -/
structure Argument where
  number : Nat
  part : Option Nat
  space : FunctionSpace
deriving DecidableEq

/-- A known field of a form. -/
structure Coefficient where
  number : Nat
  space : FunctionSpace
deriving DecidableEq

/-- An expression without operands. Zero has any shape and any free indices; the other numbers
are not zero. -/
inductive Terminal where
  | zero (shape : Shape) (free : FreeIndices)
  | int (value : Int64)
  | real (value : Binary64)
  | identity (dim : Nat)
  | argument (argument : Argument)
  | coefficient (coefficient : Coefficient)
  | coordinate (gdim : Nat)
  | label (label : Label)
  | multiIndex (items : List IndexItem)
deriving DecidableEq

/-- An operator that makes a node from its operands. Indexing, index sums, component tensors and
spatial derivatives take a multi-index as their second operand. -/
inductive Operator where
  | sum
  | product
  | division
  | power
  | sqrt
  | indexed
  | indexSum
  | componentTensor
  | listTensor
  | conditional
  | condition (op : Comparison)
  | grad
  | div
  | curl
  | rot
  | spatialDerivative
  | variableDerivative
  | restricted (side : Side)
  | transposed
  | inner
  | outer
  | dot
  | cross
  | trace
  | skew
  | determinant
  | inverse
  | cofactor
  | deviatoric
deriving DecidableEq

namespace Terminal

def kind : Terminal → Kind
  | .zero .. => .zero
  | .int _ => .int
  | .real _ => .real
  | .identity _ => .identity
  | .argument _ => .argument
  | .coefficient _ => .coefficient
  | .coordinate _ => .coordinate
  | .label _ => .label
  | .multiIndex _ => .multiIndex

def shape : Terminal → Shape
  | .zero shape _ => shape
  | .identity dim => [dim, dim]
  | .argument a => a.space.valueShape
  | .coefficient c => c.space.valueShape
  | .coordinate gdim => [gdim]
  | _ => []

def free : Terminal → FreeIndices
  | .zero _ free => free
  | _ => ∅

end Terminal

namespace Operator

def kind : Operator → Kind
  | .sum => .sum
  | .product => .product
  | .division => .division
  | .power => .power
  | .sqrt => .sqrt
  | .indexed => .indexed
  | .indexSum => .indexSum
  | .componentTensor => .componentTensor
  | .listTensor => .listTensor
  | .conditional => .conditional
  | .condition _ => .condition
  | .grad => .grad
  | .div => .div
  | .curl => .curl
  | .rot => .rot
  | .spatialDerivative => .spatialDerivative
  | .variableDerivative => .variableDerivative
  | .restricted _ => .restricted
  | .transposed => .transposed
  | .inner => .inner
  | .outer => .outer
  | .dot => .dot
  | .cross => .cross
  | .trace => .trace
  | .skew => .skew
  | .determinant => .determinant
  | .inverse => .inverse
  | .cofactor => .cofactor
  | .deviatoric => .deviatoric

/-- Number of operands; a list tensor may have any number of them. -/
def arity : Operator → Nat
  | .sum | .product | .division | .power | .indexed | .indexSum | .componentTensor => 2
  | .spatialDerivative | .variableDerivative | .inner | .outer | .dot | .cross => 2
  | .conditional => 3
  | .condition op => op.arity
  | .listTensor => 0
  | _ => 1

end Operator

/-! Data as words: injective codes, from which the order and the digest of expressions come. -/

/-- A list of numbers with its length in front, so that codes can follow each other. -/
def codeList (numbers : List Nat) : List Nat := numbers.length :: numbers

def FreeIndices.code (set : FreeIndices) : List Nat :=
  set.size :: set.entries.flatMap fun entry => [entry.1.number, entry.2]

def SymmetryMap.code (map : SymmetryMap) : List Nat :=
  map.length :: map.flatMap fun entry => codeList entry.1 ++ codeList entry.2

def FunctionSpace.code (space : FunctionSpace) : List Nat :=
  space.gdim :: codeList space.valueShape ++
    match space.symmetry with
    | none => [0]
    | some map => 1 :: map.code

def IndexItem.code : IndexItem → List Nat
  | .fixed position => [0, position]
  | .free index => [1, index.number]

def Argument.code (a : Argument) : List Nat :=
  a.number :: (match a.part with | none => [0] | some part => [1, part]) ++ a.space.code

def Coefficient.code (c : Coefficient) : List Nat := c.number :: c.space.code

def Terminal.code : Terminal → List Nat
  | .zero shape free => codeList shape ++ free.code
  | .int value => [value.toUInt64.toNat]
  | .real value => [value.bits.toNat]
  | .identity dim => [dim]
  | .argument a => a.code
  | .coefficient c => c.code
  | .coordinate gdim => [gdim]
  | .label name => [name.number]
  | .multiIndex items => items.flatMap IndexItem.code

def Operator.code : Operator → List Nat
  | .condition op => [op.ctorIdx]
  | .restricted side => [side.ctorIdx]
  | _ => []

/-- What a node stores apart from its operands. -/
def Operator.header (op : Operator) (shape : Shape) (free : FreeIndices) : List Nat :=
  op.code ++ codeList shape ++ free.code

namespace Digest

def mix (digest word : UInt64) : UInt64 :=
  let spread := (digest ^^^ word) * 0x9e3779b97f4a7c15
  spread ^^^ (spread >>> 29)

def mixAll (digest : UInt64) (words : List Nat) : UInt64 :=
  words.foldl (fun digest word => mix digest word.toUInt64) digest

def start (kind : Kind) : UInt64 := mix 0xcbf29ce484222325 kind.rank.toUInt64

end Digest

/-- A tensor valued expression of a form. A labelled expression stands for its body and is known
by its label alone. -/
inductive Expr where
  | terminal (data : Terminal)
  | node (op : Operator) (operands : List Expr) (shape : Shape) (free : FreeIndices)
  | labelled (label : Label) (body : Expr)
with
  @[computed_field] digest : Expr → UInt64
    | .terminal data => Digest.mixAll (Digest.start data.kind) data.code
    | .node op operands shape free =>
        operands.foldl (fun digest operand => Digest.mix digest operand.digest)
          (Digest.mixAll (Digest.start op.kind) (op.header shape free))
    | .labelled label _ => Digest.mix (Digest.start .labelled) label.number.toUInt64

instance : Inhabited Expr := ⟨.terminal (.zero [] ∅)⟩

namespace Expr

def kind : Expr → Kind
  | .terminal data => data.kind
  | .node op .. => op.kind
  | .labelled .. => .labelled

def operands : Expr → List Expr
  | .terminal _ => []
  | .node _ operands _ _ => operands
  | .labelled _ body => [body]

def shape : Expr → Shape
  | .terminal data => data.shape
  | .node _ _ shape _ => shape
  | .labelled _ body => body.shape

def free : Expr → FreeIndices
  | .terminal data => data.free
  | .node _ _ _ free => free
  | .labelled _ body => body.free

def rank (e : Expr) : Nat := e.shape.length

def isTerminal (e : Expr) : Bool := e.kind.isTerminal

def isScalar (e : Expr) : Bool := e.shape.isEmpty

def isZero : Expr → Bool
  | .terminal (.zero ..) => true
  | _ => false

/-- The entries of a multi-index. -/
def multiIndex? : Expr → Option (List IndexItem)
  | .terminal (.multiIndex items) => some items
  | _ => none

/-- The label of a labelled expression or of a label on its own. -/
def label? : Expr → Option Label
  | .labelled label _ => some label
  | .terminal (.label label) => some label
  | _ => none

def argument? : Expr → Option Argument
  | .terminal (.argument a) => some a
  | _ => none

def coefficient? : Expr → Option Coefficient
  | .terminal (.coefficient c) => some c
  | _ => none

/-- The space that an argument or a coefficient is drawn from. -/
def space? : Expr → Option FunctionSpace
  | .terminal (.argument a) => some a.space
  | .terminal (.coefficient c) => some c.space
  | _ => none

mutual
/-- Number of nodes of the expression written out as a tree. -/
def size : Expr → Nat
  | .terminal _ => 1
  | .node _ operands _ _ => sizes operands + 1
  | .labelled _ body => size body + 1
def sizes : List Expr → Nat
  | [] => 0
  | e :: rest => size e + sizes rest
end

theorem size_operands (e : Expr) : sizes e.operands + 1 = e.size := by
  cases e <;> simp [operands, size, sizes]

theorem sizes_append (xs ys : List Expr) : sizes (xs ++ ys) = sizes xs + sizes ys := by
  induction xs with
  | nil => simp [sizes]
  | cons x xs ih => simp [sizes, ih, Nat.add_assoc]

end Expr

end FormCalculus
