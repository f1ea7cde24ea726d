import FormCalculus.Expr.Display

/-!
A written form of expressions that does not depend on the choice of bound indices, nor on the
order of two operands of one kind in a sum or product.

Every node is written in front of its operands. Inside an index sum or a component tensor the
indices it binds are written by their depth, counted from the outermost binder.
-/
set_option autoImplicit false

namespace FormCalculus

/-- The written form of an expression, and the form it is sorted by. -/
structure Written where
  key : String
  text : String

namespace Written

def same (text : String) : Written := ⟨text, text⟩

def append (a b : Written) : Written := ⟨a.key ++ b.key, a.text ++ b.text⟩

instance : Append Written := ⟨append⟩

def join (separator : String) (parts : List Written) : Written :=
  ⟨separator.intercalate (parts.map key), separator.intercalate (parts.map text)⟩

/-- In order of the keys; equal keys keep their order. -/
def sort (parts : List Written) : List Written := parts.mergeSort fun a b => a.key ≤ b.key

end Written

/-- How the free names of an expression are written, and the spelling they are sorted by. -/
structure CanonicalNaming where
  shown : Naming
  sorted : Naming

namespace CanonicalNaming

def index (names : CanonicalNaming) (index : Index) : Written :=
  ⟨names.sorted.index index, names.shown.index index⟩

def label (names : CanonicalNaming) (label : Label) : Written :=
  ⟨names.sorted.label label, names.shown.label label⟩

end CanonicalNaming

/-- The indices bound around an expression, innermost first, and how many have been bound. -/
structure Binders where
  depth : Nat
  numbers : List (Index × Nat)

namespace Binders

def none : Binders := ⟨0, []⟩

def bind (binders : Binders) (indices : List Index) : Binders :=
  ⟨binders.depth + indices.length, indices.zipIdx binders.depth ++ binders.numbers⟩

def index (binders : Binders) (names : CanonicalNaming) (index : Index) : Written :=
  match binders.numbers.lookup index with
  | some number => .same s!"k{number}"
  | .none => names.index index

def item (binders : Binders) (names : CanonicalNaming) : IndexItem → Written
  | .fixed position => .same (toString position)
  | .free index => binders.index names index

end Binders

namespace Terminal

def canonical (names : CanonicalNaming) (binders : Binders) : Terminal → Written
  | .zero shape free =>
      let dims := if shape.isEmpty then "" else "<" ++ ",".intercalate (shape.map toString) ++ ">"
      let entries := free.entries.map fun entry =>
        binders.index names entry.1 ++ .same s!":{entry.2}"
      let indices := if free.isEmpty then .same ""
        else .same "\x7b" ++ .join "," (Written.sort entries) ++ .same "\x7d"
      .same ("0" ++ dims) ++ indices
  | .int value => .same (toString value.toInt)
  | .real value => .same ("f" ++ Binary64.hex value.toFloat)
  | .identity dim => .same s!"I{dim}"
  | .argument a => .same a.display
  | .coefficient c => .same s!"w_{c.number}"
  | .coordinate gdim => .same s!"x{gdim}"
  | .label name => .same "label(" ++ names.label name ++ .same ")"
  | .multiIndex items => .same "(" ++ .join "," (items.map (binders.item names)) ++ .same ")"

end Terminal

namespace Operator

def canonicalName : Operator → String
  | .condition op => "Condition." ++ op.name
  | .restricted side => "Restricted." ++ side.name
  | op => op.kind.name

def isCommutative : Operator → Bool
  | .sum | .product => true
  | _ => false

/-- The indices that a node binds in all of its operands. -/
def binds : Operator → List Expr → List Index
  | .indexSum, [_, indices] | .componentTensor, [_, indices] =>
      (indices.multiIndex?.getD []).filterMap IndexItem.free?
  | _, _ => []

/-- The written operands in canonical order: two operands of one kind of a commutative node by
their keys, all others as they stand. -/
def canonicalOrder (op : Operator) (kinds : List Kind) (parts : List Written) : List Written :=
  match kinds, parts with
  | [j, k], [a, b] => if op.isCommutative && j == k && b.key < a.key then [b, a] else [a, b]
  | _, _ => parts

end Operator

namespace Expr

mutual
def canonicalIn (names : CanonicalNaming) (binders : Binders) : Expr → Written
  | .terminal data => data.canonical names binders
  | .node op operands _ _ =>
      let parts := canonicalAll names (binders.bind (op.binds operands)) operands
      .same (op.canonicalName ++ "(")
        ++ .join "," (op.canonicalOrder (operands.map kind) parts) ++ .same ")"
  | .labelled label body =>
      names.label label ++ .same "\x7b" ++ canonicalIn names binders body ++ .same "\x7d"
def canonicalAll (names : CanonicalNaming) (binders : Binders) : List Expr → List Written
  | [] => []
  | e :: rest => canonicalIn names binders e :: canonicalAll names binders rest
end

def canonical (names : CanonicalNaming) (e : Expr) : Written := e.canonicalIn names .none

end Expr

end FormCalculus
