import FormCalculus.Build.Reconstruct
import FormCalculus.Proofs.Equality
import FormCalculus.Proofs.FreeIndexSet

/-!
When a node stores what its operands say: the shape and the free indices that the operator gives
it, over operands that the operator admits.
-/
set_option autoImplicit false

namespace FormCalculus

/-- Subscripting a tensor of the given shape and free indices gives the free indices `free`. -/
structure Subscribes (tensor : FreeIndices) (items : List IndexItem) (shape : Shape)
    (free : FreeIndices) : Prop where
  length : items.length = shape.length
  within : ∀ position dim, (.fixed position, dim) ∈ items.zip shape → position < dim
  dims : ∀ i d, free.dim? i = some d ↔ tensor.dim? i = some d ∨ (.free i, d) ∈ items.zip shape

/-- Subscripts at positions leave the free indices as they are. -/
theorem Subscribes.fixed {tensor free : FreeIndices} {items : List IndexItem} {shape : Shape}
    (subscribes : Subscribes tensor items shape free) (fixed : ∀ i, .free i ∉ items) : free = tensor := by
  refine FreeIndices.ext_dim fun i d => ?_
  have absent : (.free i, d) ∉ items.zip shape := fun member => fixed i (List.of_mem_zip member).1
  simp [subscribes.dims, absent]

/-- Binding the indices takes them out of `scalar` and leaves `free`; their dimensions are the
shape. -/
structure Binds (scalar : FreeIndices) (indices : List Index) (shape : Shape)
    (free : FreeIndices) : Prop where
  length : indices.length = shape.length
  distinct : indices.Nodup
  found : ∀ i d, (i, d) ∈ indices.zip shape → scalar.dim? i = some d
  dims : ∀ i d, free.dim? i = some d ↔ i ∉ indices ∧ scalar.dim? i = some d

/-- No index is free in both. -/
def Apart (a b : Expr) : Prop := ∀ i, a.free.contains i = true → ¬ b.free.contains i = true

/-- What a node of an operator over the operands stores as its shape and free indices. -/
inductive Operator.Types : Operator → List Expr → Shape → FreeIndices → Prop
  | sum {a b : Expr} : a.shape = b.shape → a.free = b.free → Types .sum [a, b] a.shape a.free
  | product {a b : Expr} {free : FreeIndices} : a.shape = [] → b.shape = [] →
      free.IsUnion a.free b.free → Types .product [a, b] [] free
  | division {a b : Expr} {free : FreeIndices} : a.shape = [] → b.shape = [] →
      free.IsUnion a.free b.free → Types .division [a, b] [] free
  | power {a b : Expr} : a.shape = [] → b.shape = [] → b.free = ∅ →
      Types .power [a, b] [] a.free
  | sqrt {a : Expr} : a.shape = [] → Types .sqrt [a] [] a.free
  | indexed {a : Expr} {items : List IndexItem} {free : FreeIndices} : items ≠ [] →
      Subscribes a.free items a.shape free → Types .indexed [a, .multiIndex items] [] free
  | indexSum {a : Expr} {index : Index} : a.shape = [] → a.free.contains index = true →
      Types .indexSum [a, .multiIndex [.free index]] [] (a.free.erase index)
  | componentTensor {a : Expr} {indices : List Index} {shape : Shape} {free : FreeIndices} :
      a.shape = [] → indices ≠ [] → Binds a.free indices shape free →
      Types .componentTensor [a, .multiIndex (indices.map .free)] shape free
  | listTensor {entries : List Expr} {shape : Shape} {free : FreeIndices} : entries ≠ [] →
      (∀ e ∈ entries, e.shape = shape ∧ e.free = free) →
      Types .listTensor entries (entries.length :: shape) free
  | conditional {test a b : Expr} {free : FreeIndices} : test.kind = .condition →
      a.shape = b.shape → a.free = b.free → free.IsUnion test.free a.free →
      Types .conditional [test, a, b] a.shape free
  | condition {op : Comparison} {operands : List Expr} {free : FreeIndices} :
      operands.length = op.arity →
      (∀ o ∈ operands, o.shape = [] ∧ (op.isLogical = true → o.kind = .condition)) →
      (∀ i d, free.dim? i = some d ↔ ∃ o ∈ operands, o.free.dim? i = some d) →
      Types (.condition op) operands [] free
  | grad {f : Expr} {gdim : Nat} : f.isZero = false → Types .grad [f] (f.shape ++ [gdim]) f.free
  | div {f : Expr} : f.shape ≠ [] → Types .div [f] f.shape.dropLast f.free
  | curl {f : Expr} {shape : Shape} : f.curlShape .curl = .ok shape → Types .curl [f] shape f.free
  | rot {f : Expr} {shape : Shape} : f.curlShape .rot = .ok shape → Types .rot [f] shape f.free
  | spatialDerivative {f : Expr} {items : List IndexItem} {gdim : Nat} {free : FreeIndices} :
      items ≠ [] → Subscribes f.free items (items.map fun _ => gdim) free →
      Types .spatialDerivative [f, .multiIndex items] f.shape free
  | variableDerivative {f v : Expr} : v.kind = .labelled → v.free = ∅ →
      Types .variableDerivative [f, v] (f.shape ++ v.shape) f.free
  | restricted {f : Expr} {side : Side} : Types (.restricted side) [f] f.shape f.free
  | transposed {a : Expr} {m n : Nat} : a.shape = [m, n] → Types .transposed [a] [n, m] a.free
  | inner {a b : Expr} {free : FreeIndices} : a.shape = b.shape → Apart a b →
      free.IsUnion a.free b.free → Types .inner [a, b] [] free
  | outer {a b : Expr} {free : FreeIndices} : Apart a b → free.IsUnion a.free b.free →
      Types .outer [a, b] (a.shape ++ b.shape) free
  | dot {a b : Expr} {free : FreeIndices} : a.shape.getLastD 0 = b.shape.headD 0 → Apart a b →
      free.IsUnion a.free b.free → Types .dot [a, b] (a.shape.dropLast ++ b.shape.drop 1) free
  | cross {a b : Expr} {free : FreeIndices} : a.shape = [3] → b.shape = [3] → Apart a b →
      free.IsUnion a.free b.free → Types .cross [a, b] [3] free
  | trace {a : Expr} {n : Nat} : a.shape = [n, n] → Types .trace [a] [] a.free
  | skew {a : Expr} {n : Nat} : a.shape = [n, n] → Types .skew [a] [n, n] a.free
  | determinant {a : Expr} {m n : Nat} : a.shape = [m, n] → Types .determinant [a] [] a.free
  | inverse {a : Expr} {m n : Nat} : a.shape = [m, n] → Types .inverse [a] [n, m] a.free
  | cofactor {a : Expr} {n : Nat} : a.shape = [n, n] → Types .cofactor [a] [n, n] a.free
  | deviatoric {a : Expr} {n : Nat} : a.shape = [n, n] → Types .deviatoric [a] [n, n] a.free

@[simp] theorem free_items (indices : List Index) :
    (indices.map IndexItem.free).filterMap IndexItem.free? = indices := by
  induction indices with
  | nil => rfl
  | cons index rest ih => simp [IndexItem.free?, ih]

theorem component_tensor_types {a : Expr} {indices : List Index} {shape : Shape}
    {free : FreeIndices}
    (types : Operator.Types .componentTensor [a, .multiIndex (indices.map .free)] shape free) :
    a.shape = [] ∧ indices ≠ [] ∧ Binds a.free indices shape free := by
  generalize same : indices.map IndexItem.free = items at types
  cases types with
  | @componentTensor _ others _ _ scalar nonempty binds =>
      have equal : indices = others := by
        have read := congrArg (List.filterMap IndexItem.free?) same
        rwa [free_items, free_items] at read
      exact equal ▸ ⟨scalar, nonempty, binds⟩

/-- What is free in an operand is free in the node, unless the node binds it. -/
theorem types_free {op : Operator} {operands : List Expr} {shape : Shape} {free : FreeIndices}
    (types : op.Types operands shape free) (sum : op ≠ .indexSum) (tensor : op ≠ .componentTensor) :
    ∀ o ∈ operands, o.free ⊆ free := by
  have none {a b : FreeIndices} (empty : a = ∅) : a ⊆ b := empty ▸ FreeIndices.empty_subset b
  have only (a : Expr) : ∀ o ∈ [a], o.free ⊆ a.free :=
    List.forall_mem_singleton.mpr (FreeIndices.subset_refl _)
  have both {a b : Expr} {free : FreeIndices} (left : a.free ⊆ free) (right : b.free ⊆ free) :
      ∀ o ∈ [a, b], o.free ⊆ free :=
    List.forall_mem_cons.mpr ⟨left, List.forall_mem_singleton.mpr right⟩
  have within {a b : Expr} {free : FreeIndices} (union : free.IsUnion a.free b.free) :
      ∀ o ∈ [a, b], o.free ⊆ free := both union.left_subset union.right_subset
  cases types with
  | sum _ same => exact both (FreeIndices.subset_refl _) (same ▸ FreeIndices.subset_refl _)
  | product _ _ union | division _ _ union => exact within union
  | power _ _ empty | variableDerivative _ empty => exact both (FreeIndices.subset_refl _) (none empty)
  | indexed _ subscribed =>
      exact both (fun i d found => (subscribed.dims i d).mpr (.inl found)) (none rfl)
  | indexSum => exact absurd rfl sum
  | componentTensor => exact absurd rfl tensor
  | listTensor _ same => exact fun o member => (same o member).2 ▸ FreeIndices.subset_refl _
  | conditional _ _ same union =>
      exact List.forall_mem_cons.mpr ⟨union.left_subset, both union.right_subset
        (same ▸ union.right_subset)⟩
  | condition _ _ dims => exact fun o member i d found => (dims i d).mpr ⟨o, member, found⟩
  | spatialDerivative _ subscribed =>
      exact both (fun i d found => (subscribed.dims i d).mpr (.inl found)) (none rfl)
  | inner _ _ union | outer _ union | dot _ _ union | cross _ _ _ union => exact within union
  | _ => exact only _

/-- What is free in a node is free in an operand or subscripts it. -/
theorem types_free_only {op : Operator} {operands : List Expr} {shape : Shape} {free : FreeIndices}
    (types : op.Types operands shape free) (i : Index) (d : Nat) (found : free.dim? i = some d) :
    (∃ o ∈ operands, o.free.dim? i = some d) ∨ ∃ items, .multiIndex items ∈ operands ∧ .free i ∈ items := by
  have one {a : Expr} {rest : List Expr} (found : a.free.dim? i = some d) :
      ∃ o ∈ a :: rest, o.free.dim? i = some d := ⟨a, List.mem_cons_self, found⟩
  have either {a b : Expr} {free : FreeIndices} {rest : List Expr}
      (union : free.IsUnion a.free b.free) (found : free.dim? i = some d) :
      ∃ o ∈ a :: b :: rest, o.free.dim? i = some d := by
    rcases (union i d).mp found with left | right
    · exact one left
    · exact ⟨b, List.mem_cons_of_mem _ List.mem_cons_self, right⟩
  have subscripts {f : Expr} {items : List IndexItem} {shape : Shape} {free : FreeIndices}
      (subscribed : Subscribes f.free items shape free) (found : free.dim? i = some d) :
      (∃ o ∈ [f, .multiIndex items], o.free.dim? i = some d) ∨
        ∃ others, .multiIndex others ∈ [f, .multiIndex items] ∧ .free i ∈ others := by
    rcases (subscribed.dims i d).mp found with inside | item
    · exact .inl (one inside)
    · exact .inr ⟨items, by simp, (List.of_mem_zip item).1⟩
  cases types with
  | product _ _ union | division _ _ union | inner _ _ union | outer _ union | dot _ _ union
  | cross _ _ _ union | conditional _ _ _ union => exact .inl (either union found)
  | indexed _ subscribed | spatialDerivative _ subscribed => exact subscripts subscribed found
  | indexSum => exact .inl (one ((FreeIndices.erase_dim _ _ _ _).mp found).2)
  | componentTensor _ _ binds => exact .inl (one ((binds.dims i d).mp found).2)
  | listTensor some same =>
      obtain ⟨entry, member⟩ := List.exists_mem_of_ne_nil _ some
      exact .inl ⟨entry, member, (same entry member).2 ▸ found⟩
  | condition _ _ dims => exact .inl ((dims i d).mp found)
  | _ => exact .inl (one found)

namespace Expr

/-- Every node stores the shape and the free indices that its operands give it. -/
inductive WellTyped : Expr → Prop
  | terminal (data : Terminal) : WellTyped (.terminal data)
  | node {op : Operator} {operands : List Expr} {shape : Shape} {free : FreeIndices} :
      op.Types operands shape free → (∀ o ∈ operands, WellTyped o) →
      WellTyped (.node op operands shape free)
  | labelled {label : Label} {body : Expr} : body.kind ≠ .multiIndex → WellTyped body →
      WellTyped (.labelled label body)

theorem WellTyped.operand {o e : Expr} (typed : WellTyped e) (member : o ∈ e.operands) :
    WellTyped o := by
  cases typed with
  | terminal data => cases member
  | node _ operands => exact operands o member
  | labelled _ body => exact List.mem_singleton.mp member ▸ body

theorem WellTyped.within {x e : Expr} (typed : WellTyped e) (inside : Within x e) :
    WellTyped x := by
  induction inside with
  | refl => exact typed
  | step member _ ih => exact ih (typed.operand member)

/-- Conditions are scalars. -/
theorem condition_scalar {e : Expr} (typed : WellTyped e) (kind : e.kind = .condition) :
    e.shape = [] := by
  cases typed with
  | terminal data => cases data <;> cases kind
  | labelled => cases kind
  | node types _ => cases types <;> first | rfl | cases kind

end Expr

end FormCalculus
