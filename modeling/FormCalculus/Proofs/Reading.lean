import Mathlib.Algebra.BigOperators.Group.Finset.Basic
import Mathlib.LinearAlgebra.Matrix.NonsingularInverse
import FormCalculus.Proofs.Equality
import FormCalculus.Proofs.Construction

/-!
What expressions denote over a field: the value of each component under an assignment of the
indices. Index sums are sums over the positions of their index, component tensors bind their
indices to the component, and the compound operators have their textbook definitions.
-/
set_option autoImplicit false

namespace FormCalculus

variable {K : Type} [Field K]

/-- The position of every index. -/
abbrev Assignment := Index → Nat

/-- The values of the components of a tensor, by the side of a facet they are read on. -/
abbrev Meaning (K : Type) := Option Side → Assignment → Component → K

namespace Assignment

def bind (ρ : Assignment) (index : Index) (position : Nat) : Assignment :=
  Function.update ρ index position

/-- Binds indices one by one; the last binding of an index counts. -/
def bindAll (ρ : Assignment) (bindings : List (Index × Nat)) : Assignment :=
  bindings.foldl (fun ρ binding => ρ.bind binding.1 binding.2) ρ

end Assignment

/-- The position that an item stands for. -/
def IndexItem.position (ρ : Assignment) : IndexItem → Nat
  | .fixed position => position
  | .free index => ρ index

/-- Valuation of the terminals in a field, with a meaning for the operations that a field lacks. -/
structure Reading (K : Type) [Field K] where
  /-- Components of arguments, coefficients, coordinates and labels. -/
  field : Option Side → Terminal → Component → K
  real : Binary64 → K
  /-- A multi-index as an operand like any other. -/
  items : Assignment → List IndexItem → K
  pow : K → K → K
  sqrt : K → K
  comparison : Comparison → List K → K
  holds : K → Bool
  real_one : ∀ value : Binary64, value.isOne = true → real value = 1
  pow_one : ∀ x, pow x 1 = x
  sqrt_zero : sqrt 0 = 0

/-- Sum over the components of a shape. -/
def sumOver : Shape → (Component → K) → K
  | [], term => term []
  | dim :: shape, term =>
      ∑ position ∈ Finset.range dim, sumOver shape fun rest => term (position :: rest)

theorem sum_map_range (term : Nat → K) (dim : Nat) :
    ((List.range dim).map term).sum = ∑ position ∈ Finset.range dim, term position := by
  induction dim with
  | zero => rfl
  | succ dim ih => rw [List.range_succ, List.map_append, List.sum_append, ih, Finset.sum_range_succ]; simp

/-- The square matrix of the components of a tensor. -/
def squareOf (n : Nat) (entry : Component → K) : Matrix (Fin n) (Fin n) K :=
  Matrix.of fun i j => entry [i, j]

/-- The components of a vector. -/
def vectorOf (entry : Nat → K) : Component → K
  | [i] => entry i
  | _ => 0

/-- The components of a matrix. -/
def matrixOf (entry : Nat → Nat → K) : Component → K
  | [i, j] => entry i j
  | _ => 0

/-- The components of a square matrix; beyond its rows and columns they are zero. -/
def entryOf {n : Nat} (matrix : Matrix (Fin n) (Fin n) K) : Component → K :=
  matrixOf fun i j => if inside : i < n ∧ j < n then matrix ⟨i, inside.1⟩ ⟨j, inside.2⟩ else 0

namespace Reading

variable (M : Reading K)

def constant : Constant → K
  | .zero => 0
  | .int value => value.toInt
  | .real value => M.real value

def operate : Constant.Operation → K → K → K
  | .addition => (· + ·)
  | .multiplication => (· * ·)
  | .division => (· / ·)
  | .exponentiation => M.pow

end Reading

/-- The components of the identity. -/
def delta : Component → K := matrixOf fun i j => if i = j then 1 else 0

def Terminal.denote (M : Reading K) : Terminal → Meaning K
  | .zero .., _, _, _ => 0
  | .int value, _, _, _ => value.toInt
  | .real value, _, _, _ => M.real value
  | .identity _, _, _, component => delta component
  | .multiIndex items, _, ρ, _ => M.items ρ items
  | data, side, _, component => M.field side data component

/-- The indices in a multi-index operand. -/
def Expr.boundBy (e : Expr) : List Index := (e.multiIndex?.getD []).filterMap IndexItem.free?

/-- The rows of a matrix. -/
def Expr.rows (e : Expr) : Nat := e.shape.headD 0

/-- The components of the cross product of two vectors. -/
def crossAt {R : Type*} [CommRing R] (f g : Component → R) : Nat → R
  | 0 => f [1] * g [2] - f [2] * g [1]
  | 1 => f [2] * g [0] - f [0] * g [2]
  | 2 => f [0] * g [1] - f [1] * g [0]
  | _ => 0

/-- What an operator makes of the values of its operands. -/
noncomputable def Operator.denote (M : Reading K) :
    Operator → List Expr → List (Meaning K) → Meaning K
  | .sum, _, [f, g], s, ρ, c => f s ρ c + g s ρ c
  | .product, _, [f, g], s, ρ, c => f s ρ c * g s ρ c
  | .division, _, [f, g], s, ρ, c => f s ρ c / g s ρ c
  | .power, _, [f, g], s, ρ, c => M.pow (f s ρ c) (g s ρ c)
  | .sqrt, _, [f], s, ρ, c => M.sqrt (f s ρ c)
  | .indexed, [_, subscripts], f :: _, s, ρ, _ =>
      f s ρ ((subscripts.multiIndex?.getD []).map (IndexItem.position ρ))
  | .indexSum, [summand, indices], f :: _, s, ρ, c =>
      match indices.boundBy with
      | index :: _ =>
          ∑ position ∈ Finset.range ((summand.free.dim? index).getD 0), f s (ρ.bind index position) c
      | [] => 0
  | .componentTensor, [_, indices], f :: _, s, ρ, c =>
      if c.length = indices.boundBy.length then f s (ρ.bindAll (indices.boundBy.zip c)) [] else 0
  | .listTensor, _, entries, s, ρ, c =>
      match c with
      | position :: rest => (entries[position]?.map fun f => f s ρ rest).getD 0
      | [] => 0
  | .conditional, _, [test, f, g], s, ρ, c => if M.holds (test s ρ []) then f s ρ c else g s ρ c
  | .condition op, _, operands, s, ρ, c => M.comparison op (operands.map fun f => f s ρ c)
  | .restricted side, _, [f], _, ρ, c => f (some side) ρ c
  | .transposed, _, [f], s, ρ, c => matrixOf (fun i j => f s ρ [j, i]) c
  | .inner, a :: _, [f, g], s, ρ, _ => sumOver a.shape fun k => f s ρ k * g s ρ k
  | .outer, a :: _, [f, g], s, ρ, c => f s ρ (c.take a.rank) * g s ρ (c.drop a.rank)
  | .dot, [a, b], [f, g], s, ρ, c =>
      ∑ k ∈ Finset.range b.rows, f s ρ (c.take (a.rank - 1) ++ [k]) * g s ρ (k :: c.drop (a.rank - 1))
  | .cross, _, [f, g], s, ρ, c => vectorOf (crossAt (f s ρ) (g s ρ)) c
  | .trace, a :: _, [f], s, ρ, _ => ∑ k ∈ Finset.range a.rows, f s ρ [k, k]
  | .skew, _, [f], s, ρ, c => matrixOf (fun i j => (f s ρ [i, j] - f s ρ [j, i]) / 2) c
  | .determinant, a :: _, [f], s, ρ, _ => (squareOf a.rows (f s ρ)).det
  | .inverse, a :: _, [f], s, ρ, c => entryOf (squareOf a.rows (f s ρ))⁻¹ c
  | .cofactor, a :: _, [f], s, ρ, c => entryOf (squareOf a.rows (f s ρ)).adjugate.transpose c
  | .deviatoric, a :: _, [f], s, ρ, c =>
      let matrix := squareOf a.rows (f s ρ)
      entryOf (matrix - (matrix.trace / a.rows) • 1) c
  | _, _, _, _, _, _ => 0

namespace Reading

mutual
/-- The value of an expression on a side, under an assignment, at a component. -/
noncomputable def value (M : Reading K) : Expr → Meaning K
  | .terminal data => data.denote M
  | .node op operands _ _ => op.denote M operands (values M operands)
  | .labelled _ body => value M body
noncomputable def values (M : Reading K) : List Expr → List (Meaning K)
  | [] => []
  | e :: rest => value M e :: values M rest
end

variable (M : Reading K)

@[simp] theorem values_map (operands : List Expr) : M.values operands = operands.map M.value := by
  induction operands with
  | nil => rfl
  | cons e rest ih => rw [values, ih, List.map_cons]

@[simp] theorem value_terminal (data : Terminal) : M.value (.terminal data) = data.denote M := rfl

@[simp] theorem value_labelled (label : Label) (body : Expr) :
    M.value (.labelled label body) = M.value body := rfl

@[simp] theorem value_node (op : Operator) (operands : List Expr) (shape : Shape)
    (free : FreeIndices) :
    M.value (.node op operands shape free) = op.denote M operands (operands.map M.value) := by
  rw [value, values_map]

theorem bound_by_indices (indices : List Index) :
    (Expr.multiIndex (indices.map .free)).boundBy = indices :=
  free_items indices

theorem value_component_tensor {e : Expr} {indices : List Index} {shape : Shape}
    {free : FreeIndices} {s : Option Side} {ρ : Assignment} {c : Component}
    (length : c.length = indices.length) :
    M.value (.node .componentTensor [e, .multiIndex (indices.map .free)] shape free) s ρ c =
      M.value e s (ρ.bindAll (indices.zip c)) [] := by
  rw [value_node]
  simp only [Operator.denote, List.map, bound_by_indices, if_pos length]

open scoped Classical in
/-- The folds whose result has the value of the operation on the values, and no others. -/
@[reducible] noncomputable def exactFolding : Folding where
  fold? op a b :=
    if M.constant (op.apply a b) = M.operate op (M.constant a) (M.constant b) then
      some (op.apply a b)
    else none
  root? c := c.root?.bind fun root =>
    if M.constant root = M.sqrt (M.constant c) then some root else none

/-- Every fold that `run` performs is exact: to leave out those that are not changes nothing. -/
def FoldsExactly {α : Type} (run : Folding → α) : Prop := run M.exactFolding = run Folding.eager

/-- Folding keeps values. -/
structure Exact [Folding] : Prop where
  fold : ∀ op a b r, Folding.fold? op a b = some r →
    M.constant r = M.operate op (M.constant a) (M.constant b)
  root : ∀ c r, Folding.root? c = some r → M.constant r = M.sqrt (M.constant c)

theorem exact_folding_exact : @Exact K _ M M.exactFolding := by
  classical
  refine @Exact.mk K _ M M.exactFolding (fun op a b r folded => ?_) (fun c r folded => ?_)
  · change (if _ then _ else _) = _ at folded
    split at folded
    · cases folded
      assumption
    · cases folded
  · obtain ⟨root, _, kept⟩ := Option.bind_eq_some_iff.mp folded
    split at kept
    · cases kept
      assumption
    · cases kept

end Reading

end FormCalculus
