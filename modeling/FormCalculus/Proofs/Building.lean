import FormCalculus.Proofs.Stable

/-!
What constructors and closed forms make of given expressions: parts of them, terminals, and typed
nodes over what they have made. A property that goes through these steps holds of every result.
-/
set_option autoImplicit false

namespace FormCalculus

/-- The operators of index notation, which the closed forms of compound ones are written in. -/
def Operator.isNotation : Operator → Bool
  | .sum | .product | .division | .sqrt | .indexed | .indexSum | .componentTensor | .listTensor
  | .spatialDerivative => true
  | _ => false

/-- Made from the given expressions by taking operands of nodes and making new nodes. -/
inductive Built (ops : Operator → Prop) (given : Expr → Prop) : Expr → Prop
  | given {e : Expr} : given e → Built ops given e
  | terminal (data : Terminal) : Built ops given (.terminal data)
  | operand {op : Operator} {operands : List Expr} {shape : Shape} {free : FreeIndices} {o : Expr} :
      Built ops given (.node op operands shape free) → o ∈ operands → Built ops given o
  | node {op : Operator} {operands : List Expr} {shape : Shape} {free : FreeIndices} : ops op →
      op.Types operands shape free → op.Lives operands shape free →
      (∀ o ∈ operands, Built ops given o) → Built ops given (.node op operands shape free)

namespace Built

open Expr

variable {ops : Operator → Prop} {given : Expr → Prop} {a b e r : Expr}

theorem zeros (shape : Shape) (free : FreeIndices) : Built ops given (zeros shape free) :=
  terminal _

theorem int (value : Int64) : Built ops given (int value) := by
  unfold Expr.int
  split <;> exact terminal _

theorem real (value : Binary64) : Built ops given (real value) := by
  unfold Expr.real
  split <;> exact terminal _

theorem constant (c : Constant) : Built ops given c.toExpr := by
  cases c <;> exact terminal _

theorem sorted_pair (left : Built ops given a) (right : Built ops given b) :
    ∀ o ∈ sortedPair a b, Built ops given o := by
  intro o member
  rcases mem_sorted_pair.mp member with rfl | rfl
  · exact left
  · exact right

theorem subscript {items : List IndexItem} (allowed : ops .indexed) (tensor : Built ops given e)
    (run : e.subscript items = .ok r) : Built ops given r := by
  have cases := subscript_cases run
  clear run
  induction cases with
  | whole => exact tensor
  | zero => exact zeros _ _
  | identity => exact int _
  | entry found _ ih => exact ih (tensor.operand (List.mem_of_getElem? found))
  | node some subscribed =>
      exact node allowed (.indexed some subscribed) trivial (operands_pair tensor (terminal _))

theorem index_sum {index : Index} (allowed : ops .indexSum) (summand : Built ops given e)
    (run : e.indexSum index = .ok r) : Built ops given r := by
  obtain ⟨scalar, known, ⟨_, rfl⟩ | rfl⟩ := index_sum_cases run
  · exact zeros _ _
  · exact node allowed (.indexSum scalar known) trivial (operands_pair summand (terminal _))

theorem as_tensor {indices : List Index} (allowed : ops .componentTensor)
    (scalar : Built ops given e) (run : e.asTensor indices = .ok r) : Built ops given r := by
  obtain ⟨_, rfl⟩ | ⟨some, shape, dims, free, binds, ⟨_, rfl⟩ | ⟨_, _, rfl⟩ | rfl⟩ :=
    as_tensor_cases run
  · exact scalar
  · exact zeros _ _
  · exact scalar.operand List.mem_cons_self
  · exact node allowed (.componentTensor shape some binds) trivial
      (operands_pair scalar (terminal _))

theorem list_tensor {entries : List Expr} (allowed : ops .listTensor)
    (built : ∀ o ∈ entries, Built ops given o) (run : listTensor entries = .ok r) :
    Built ops given r := by
  obtain ⟨shape, free, some, checks, ⟨_, rfl⟩ | rfl⟩ := list_tensor_cases run
  · exact zeros _ _
  · exact node allowed (.listTensor some checks) trivial built

theorem vector {entries : List Expr} (allowed : ops .listTensor)
    (built : ∀ o ∈ entries, Built ops given o) (run : vector entries = .ok r) :
    Built ops given r :=
  list_tensor allowed built (vector_cases run).2

theorem matrix {rows : List (List Expr)} (allowed : ops .listTensor)
    (built : ∀ row ∈ rows, ∀ o ∈ row, Built ops given o) (run : matrix rows = .ok r) :
    Built ops given r := by
  obtain ⟨vectors, each, list⟩ := (except_bind_ok _ _ _).mp run
  refine list_tensor allowed (fun v member => ?_) list
  have pairs := mapM_ok each
  clear each list run
  induction pairs with
  | nil => cases member
  | cons first _ ih =>
      obtain ⟨here, others⟩ := List.forall_mem_cons.mp built
      rcases List.mem_cons.mp member with rfl | member
      · exact vector allowed here first
      · exact ih others member

theorem spatial_derivative {items : List IndexItem} (allowed : ops .spatialDerivative)
    (operand : Built ops given e) (run : e.spatialDerivative items = .ok r) : Built ops given r := by
  obtain ⟨_, rfl⟩ | ⟨some, gdim, free, known, subscribed, rfl⟩ := spatial_derivative_cases run
  · exact operand
  · exact node allowed (.spatialDerivative some subscribed) ⟨gdim, _, known, rfl, subscribed⟩
      (operands_pair operand (terminal _))

variable [Folding]

theorem fold {op : Constant.Operation} (folded : fold? op a b = some r) : Built ops given r := by
  obtain ⟨_, _, z, _, _, _, rfl⟩ := fold_some folded
  exact constant z

theorem add (allowed : ops .sum) (left : Built ops given a) (right : Built ops given b)
    (run : a.add b = .ok r) : Built ops given r := by
  obtain ⟨shape, free, ⟨_, rfl⟩ | ⟨_, rfl⟩ | folded | rfl⟩ := add_cases run
  · exact right
  · exact left
  · exact fold folded
  · exact node allowed (sum_types shape free) trivial (sorted_pair left right)

theorem scalar_product (allowed : ops .product) (left : Built ops given a)
    (right : Built ops given b) (run : a.scalarProduct b = .ok r) : Built ops given r := by
  obtain ⟨sa, sb, free, union, ⟨_, rfl⟩ | folded | ⟨_, rfl⟩ | ⟨_, rfl⟩ | rfl⟩ :=
    scalar_product_cases run
  · exact zeros _ _
  · exact fold folded
  · exact right
  · exact left
  · exact node allowed (product_types sa sb union) trivial (sorted_pair left right)

theorem scalar_quotient (allowed : ops .division) (left : Built ops given a)
    (right : Built ops given b) (run : a.scalarQuotient b = .ok r) : Built ops given r := by
  obtain ⟨sa, sb, free, union, ⟨_, rfl⟩ | folded | ⟨_, rfl⟩ | rfl⟩ := scalar_quotient_cases run
  · exact zeros _ _
  · exact fold folded
  · exact left
  · exact node allowed (.division sa sb union) trivial (operands_pair left right)

theorem pow (allowed : ops .power) (left : Built ops given a) (right : Built ops given b)
    (run : a.pow b = .ok r) : Built ops given r := by
  obtain ⟨sa, sb, free, ⟨_, rfl⟩ | folded | rfl⟩ := pow_cases run
  · exact left
  · exact fold folded
  · exact node allowed (.power sa sb free) trivial (operands_pair left right)

theorem sqrt (allowed : ops .sqrt) (operand : Built ops given e) (run : e.sqrt = .ok r) :
    Built ops given r := by
  obtain ⟨scalar, ⟨_, rfl⟩ | folded | rfl⟩ := sqrt_cases run
  · exact operand
  · obtain ⟨_, z, _, _, rfl⟩ := fold_root_some folded
    exact constant z
  · exact node allowed (.sqrt scalar) trivial (List.forall_mem_singleton.mpr operand)

/-- What an operator makes of new operands; the inverse of a scalar is a quotient. -/
theorem assembled (op : Operator) {operands : List Expr} (allowed : ops op) (divides : ops .division)
    (built : ∀ o ∈ operands, Built ops given o) (run : op.assemble operands = .ok r) :
    Built ops given r := by
  unfold Operator.assemble at run
  split at run
  all_goals try simp only [List.forall_mem_cons, List.not_mem_nil, false_implies, implies_true,
    and_true, except_bind_ok] at built run
  · exact add allowed built.1 built.2 run
  · exact scalar_product allowed built.1 built.2 run
  · exact scalar_quotient allowed built.1 built.2 run
  · exact pow allowed built.1 built.2 run
  · exact sqrt allowed built run
  · obtain ⟨items, _, run⟩ := run
    exact subscript allowed built.1 run
  · obtain ⟨indices, _, run⟩ := run
    split at run
    · exact index_sum allowed built.1 run
    · simp at run
  · obtain ⟨indices, _, run⟩ := run
    exact as_tensor allowed built.1 run
  · exact list_tensor allowed built run
  · obtain ⟨free, types, rfl⟩ := conditional_cases run
    exact node allowed types trivial (by simpa using built)
  · obtain ⟨free, types, rfl⟩ := condition_cases run
    exact node allowed types trivial built
  · obtain ⟨gdim, known, ⟨_, rfl⟩ | ⟨nonzero, rfl⟩⟩ := grad_cases run
    · exact zeros _ _
    · exact node allowed (.grad nonzero) ⟨gdim, known, rfl⟩ (by simpa using built)
  · obtain ⟨tensor, rfl | rfl⟩ := div_cases run
    · exact zeros _ _
    · exact node allowed (.div tensor) trivial (by simpa using built)
  · obtain ⟨shape, found, rfl⟩ := (except_bind_pure_ok _ _ _).mp run
    exact node allowed (.curl found) trivial (by simpa using built)
  · obtain ⟨shape, found, rfl⟩ := (except_bind_pure_ok _ _ _).mp run
    exact node allowed (.rot found) trivial (by simpa using built)
  · obtain ⟨items, _, run⟩ := run
    exact spatial_derivative allowed built.1 run
  · obtain ⟨labelled, free, rfl⟩ := variable_derivative_cases run
    exact node allowed (.variableDerivative labelled free) trivial (by simpa using built)
  · cases run
    exact node allowed .restricted trivial (by simpa using built)
  · unfold transposed at run
    split at run
    · rename_i shape
      cases run
      exact node allowed (.transposed shape) trivial (by simpa using built)
    · cases run
  · obtain ⟨_, shape, run⟩ := (except_bind_ok _ _ _).mp run
    rw [expect_same_shape_ok] at shape
    obtain ⟨free, apart, union, rfl | rfl⟩ := binary_cases run
    · exact zeros _ _
    · exact node allowed (.inner shape apart union) trivial (by simpa using built)
  · obtain ⟨free, apart, union, rfl | rfl⟩ := binary_cases run
    · exact zeros _ _
    · exact node allowed (.outer apart union) trivial (by simpa using built)
  · obtain ⟨shape, run⟩ := except_if_ok (by simp) run
    obtain ⟨free, apart, union, rfl | rfl⟩ := binary_cases run
    · exact zeros _ _
    · exact node allowed (.dot (not_not.mp shape) apart union) trivial (by simpa using built)
  · obtain ⟨shape, run⟩ := except_if_ok (by simp) run
    obtain ⟨left, right⟩ := not_or.mp shape
    obtain ⟨free, apart, union, rfl | rfl⟩ := binary_cases run
    · exact zeros _ _
    · exact node allowed (.cross (not_not.mp left) (not_not.mp right) apart union) trivial
        (by simpa using built)
  · obtain ⟨_, square, rfl⟩ := (except_bind_pure_ok _ _ _).mp run
    obtain ⟨n, shape⟩ := expect_square_ok square
    exact node allowed (.trace shape) trivial (by simpa using built)
  · obtain ⟨_, square, rfl⟩ := (except_bind_pure_ok _ _ _).mp run
    obtain ⟨n, shape⟩ := expect_square_ok square
    exact node allowed (shape ▸ .skew shape) trivial (by simpa using built)
  · unfold determinant at run
    split at run
    · cases run
      exact built
    · rename_i shape
      cases run
      exact node allowed (.determinant shape) trivial (by simpa using built)
    · cases run
  · unfold inverse at run
    split at run
    · exact scalar_quotient divides (real _) built run
    · rename_i shape
      cases run
      exact node allowed (.inverse shape) trivial (by simpa using built)
    · cases run
  · obtain ⟨_, square, rfl⟩ := (except_bind_pure_ok _ _ _).mp run
    obtain ⟨n, shape⟩ := expect_square_ok square
    exact node allowed (shape ▸ .cofactor shape) trivial (by simpa using built)
  · obtain ⟨_, square, rfl⟩ := (except_bind_pure_ok _ _ _).mp run
    obtain ⟨n, shape⟩ := expect_square_ok square
    exact node allowed (shape ▸ .deviatoric shape) trivial (by simpa using built)
  · cases run

section Notation

variable (basic : ∀ op : Operator, op.isNotation = true → ops op)

include basic

/-- What is built with the operators of index notation goes through their constructors. -/
theorem stable : Stable (Built ops given) where
  constant _ := terminal _
  subscript tensor run := subscript (basic _ rfl) tensor run
  index_sum summand run := index_sum (basic _ rfl) summand run
  as_tensor scalar run := as_tensor (basic _ rfl) scalar run
  list_tensor built run := list_tensor (basic _ rfl) built run
  add left right run := add (basic _ rfl) left right run
  scalar_product left right run := scalar_product (basic _ rfl) left right run
  scalar_quotient left right run := scalar_quotient (basic _ rfl) left right run
  sqrt operand run := sqrt (basic _ rfl) operand run
  spatial_derivative operand run := spatial_derivative (basic _ rfl) operand run

theorem assemble (op : Operator) {operands : List Expr} (allowed : ops op)
    (built : ∀ o ∈ operands, Built ops given o) (run : op.assemble operands = .ok r) :
    Built ops given r :=
  assembled op allowed (basic _ rfl) built run

theorem build {op : Operator} {operands : List Expr} {supply after : Supply} (allowed : ops op)
    (built : ∀ o ∈ operands, Built ops given o) (run : op.build operands supply = .ok (r, after)) :
    Built ops given r :=
  (stable basic).build built (fun _ made => assemble basic op allowed built made) run

end Notation

end Built

end FormCalculus
