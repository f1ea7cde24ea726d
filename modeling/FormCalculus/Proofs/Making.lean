import FormCalculus.Proofs.Constructible

/-!
Every node of a constructible expression is what its operator makes of its operands: rebuilding
it from them gives it back.
-/
set_option autoImplicit false

namespace FormCalculus

open Expr

/-- Made from the given expressions by taking operands of nodes, by constants, and by nodes that
their operator makes of their operands. -/
inductive Made (given : Expr → Prop) : Expr → Prop
  | given {e : Expr} : given e → Made given e
  | constant {data : Terminal} : data.gdim? = none → Made given (.terminal data)
  | operand {op : Operator} {operands : List Expr} {shape : Shape} {free : FreeIndices} {o : Expr} :
      Made given (.node op operands shape free) → o ∈ operands → Made given o
  | node {op : Operator} {operands : List Expr} {shape : Shape} {free : FreeIndices} :
      op.assemble operands = .ok (.node op operands shape free) → op.Spreads operands →
      (∀ o ∈ operands, Made given o) → Made given (.node op operands shape free)

namespace Made

variable {given : Expr → Prop} {a b e r : Expr}

theorem zeros (shape : Shape) (free : FreeIndices) : Made given (zeros shape free) :=
  constant rfl

theorem items (items : List IndexItem) : Made given (multiIndex items) :=
  constant rfl

theorem int (value : Int64) : Made given (int value) := by
  unfold Expr.int
  split <;> exact constant rfl

theorem real (value : Binary64) : Made given (real value) := by
  unfold Expr.real
  split <;> exact constant rfl

theorem folded (c : Constant) : Made given c.toExpr := by
  cases c <;> exact constant rfl

/-- A node made of the operands as they stand. -/
theorem plain {op : Operator} {operands : List Expr} {shape : Shape} {free : FreeIndices}
    (other : op ∉ [.inner, .outer, .dot]) (made : ∀ o ∈ operands, Made given o)
    (run : op.assemble operands = .ok (.node op operands shape free)) :
    Made given (.node op operands shape free) :=
  node run (spreads_other other) made

theorem indexed {free : FreeIndices} {items : List IndexItem} (tensor : Made given e)
    (run : e.subscript items = .ok (.node .indexed [e, multiIndex items] [] free)) :
    Made given (.node .indexed [e, multiIndex items] [] free) :=
  plain (by simp) (operands_pair tensor (Made.items items)) run

theorem subscript_other {items : List IndexItem}
    (other : ∀ entries shape free, e ≠ .node .listTensor entries shape free) (tensor : Made given e)
    (run : e.subscript items = .ok r) : Made given r := by
  cases Expr.subscript_other other run with
  | whole => exact tensor
  | zero => exact zeros _ _
  | identity => exact int _
  | entry => exact absurd rfl (other _ _ _)
  | node => exact tensor.indexed run

theorem subscript {items : List IndexItem} (tensor : Made given e)
    (run : e.subscript items = .ok r) : Made given r := by
  induction e generalizing items r with
  | terminal data =>
      refine subscript_other ?_ tensor run
      exact fun _ _ _ => nofun
  | labelled label body =>
      refine subscript_other ?_ tensor run
      exact fun _ _ _ => nofun
  | node op entries shape free ih =>
      by_cases list : op = .listTensor
      · subst list
        -- Either an entry is subscripted, or the first subscript is an index.
        cases subscript_cases run with
        | whole => exact tensor
        | @entry _ _ _ position items entry _ found inner =>
            rw [Expr.subscript] at run
            obtain ⟨_, run⟩ := except_if_ok (by simp) run
            obtain ⟨_, _, run⟩ := (except_bind_ok _ _ _).mp run
            obtain ⟨entry, found, run⟩ := subscript_entry_ok run
            have member := List.mem_of_getElem? found
            exact ih entry member (tensor.operand member) run
        | node => exact tensor.indexed run
      · exact subscript_other (fun _ _ _ same => list (by cases same; rfl)) tensor run

theorem index_sum {index : Index} (summand : Made given e) (run : e.indexSum index = .ok r) :
    Made given r := by
  obtain ⟨_, _, ⟨_, rfl⟩ | rfl⟩ := index_sum_cases run
  · exact zeros _ _
  · exact plain (by simp) (operands_pair summand (items _)) run

theorem as_tensor {indices : List Index} (scalar : Made given e) (run : e.asTensor indices = .ok r) :
    Made given r := by
  obtain ⟨_, rfl⟩ | ⟨_, _, shape, free, _, ⟨_, rfl⟩ | ⟨_, _, rfl⟩ | rfl⟩ := as_tensor_cases run
  · exact scalar
  · exact zeros _ _
  · exact scalar.operand List.mem_cons_self
  · refine plain (by simp) (operands_pair scalar (items _)) ?_
    show (do e.asTensor (← (multiIndex (indices.map .free)).expectIndices .componentTensor)) = _
    rw [expect_indices_free]
    exact run

theorem list_tensor {entries : List Expr} (made : ∀ o ∈ entries, Made given o)
    (run : listTensor entries = .ok r) : Made given r := by
  obtain ⟨_, _, _, _, ⟨_, rfl⟩ | rfl⟩ := list_tensor_cases run
  · exact zeros _ _
  · exact plain (by simp) made run

theorem sorted_pair (left : Made given a) (right : Made given b) :
    ∀ o ∈ sortedPair a b, Made given o := by
  intro o member
  rcases mem_sorted_pair.mp member with rfl | rfl
  · exact left
  · exact right

theorem fold {op : Constant.Operation} (folded : fold? op a b = some r) : Made given r := by
  obtain ⟨_, _, z, _, _, _, rfl⟩ := fold_some folded
  exact Made.folded z

theorem add (left : Made given a) (right : Made given b) (run : a.add b = .ok r) : Made given r := by
  simp only [Expr.add, except_bind_ok, expect_same_shape_ok, expect_same_free_ok] at run
  obtain ⟨_, shape, _, free, run⟩ := run
  split at run
  · exact (except_pure_ok _ _).mp run ▸ right
  split at run
  · exact (except_pure_ok _ _).mp run ▸ left
  split at run
  · exact (except_pure_ok _ _).mp run ▸ fold ‹_›
  · rename_i nonzero nonzero' _ unfolded
    obtain rfl := (except_pure_ok _ _).mp run
    exact plain (by simp) (sorted_pair left right) (Operator.assembles_arranged (.sum shape free)
      ⟨eq_false_of_ne_true nonzero, eq_false_of_ne_true nonzero', unfolded⟩ trivial)

theorem scalar_product (left : Made given a) (right : Made given b)
    (run : a.scalarProduct b = .ok r) : Made given r := by
  simp only [Expr.scalarProduct, except_bind_ok, expect_scalar_ok] at run
  obtain ⟨_, sa, _, sb, free, joined, run⟩ := run
  split at run
  · exact (except_pure_ok _ _).mp run ▸ zeros _ _
  split at run
  · exact (except_pure_ok _ _).mp run ▸ fold ‹_›
  split at run
  · exact (except_pure_ok _ _).mp run ▸ right
  split at run
  · exact (except_pure_ok _ _).mp run ▸ left
  · rename_i nonzero _ unfolded notOne notOne'
    simp only [Bool.or_eq_true, not_or, Bool.not_eq_true] at nonzero
    obtain rfl := (except_pure_ok _ _).mp run
    exact plain (by simp) (sorted_pair left right) (Operator.assembles_arranged
      (.product sa sb (FreeIndices.join_ok joined)) ⟨nonzero.1, nonzero.2, unfolded,
        eq_false_of_ne_true notOne, eq_false_of_ne_true notOne'⟩ trivial)

theorem scalar_quotient (left : Made given a) (right : Made given b)
    (run : a.scalarQuotient b = .ok r) : Made given r := by
  obtain ⟨_, _, free, _, ⟨_, rfl⟩ | folded | ⟨_, rfl⟩ | rfl⟩ := scalar_quotient_cases run
  · exact zeros _ _
  · exact fold folded
  · exact left
  · exact plain (by simp) (operands_pair left right) run

theorem sqrt (operand : Made given e) (run : e.sqrt = .ok r) : Made given r := by
  obtain ⟨_, ⟨_, rfl⟩ | folded | rfl⟩ := sqrt_cases run
  · exact operand
  · obtain ⟨_, z, _, _, rfl⟩ := fold_root_some folded
    exact Made.folded z
  · exact plain (by simp) (List.forall_mem_singleton.mpr operand) run

theorem spatial_derivative {items : List IndexItem} (operand : Made given e)
    (run : e.spatialDerivative items = .ok r) : Made given r := by
  obtain ⟨_, rfl⟩ | ⟨_, _, _, _, _, rfl⟩ := spatial_derivative_cases run
  · exact operand
  · exact plain (by simp) (operands_pair operand (Made.items items)) run

/-- What is made goes through the constructors of index notation. -/
theorem stable : Stable (Made given) :=
  ⟨constant, subscript, index_sum, as_tensor, list_tensor, add, scalar_product, scalar_quotient, sqrt,
    spatial_derivative⟩

/-- What an operator makes of new operands. -/
theorem assemble {op : Operator} {operands : List Expr} (spreads : op.Spreads operands)
    (made : ∀ o ∈ operands, Made given o) (run : op.assemble operands = .ok r) : Made given r := by
  have whole := run
  unfold Operator.assemble at run
  split at run
  · exact add (made _ (by simp)) (made _ (by simp)) run
  · exact scalar_product (made _ (by simp)) (made _ (by simp)) run
  · exact scalar_quotient (made _ (by simp)) (made _ (by simp)) run
  · obtain ⟨_, _, _, ⟨_, rfl⟩ | folded | rfl⟩ := pow_cases run
    · exact made _ (by simp)
    · exact fold folded
    · exact node whole spreads made
  · exact sqrt (made _ (by simp)) run
  · obtain ⟨_, _, run⟩ := (except_bind_ok _ _ _).mp run
    exact subscript (made _ (by simp)) run
  · obtain ⟨_, _, run⟩ := (except_bind_ok _ _ _).mp run
    split at run
    · exact index_sum (made _ (by simp)) run
    · simp at run
  · obtain ⟨_, _, run⟩ := (except_bind_ok _ _ _).mp run
    exact as_tensor (made _ (by simp)) run
  · exact list_tensor made run
  · obtain ⟨_, _, rfl⟩ := conditional_cases run
    exact node whole spreads made
  · obtain ⟨_, _, rfl⟩ := condition_cases run
    exact node whole spreads made
  · obtain ⟨_, _, ⟨_, rfl⟩ | ⟨_, rfl⟩⟩ := grad_cases run
    · exact zeros _ _
    · exact node whole spreads made
  · obtain ⟨_, rfl | rfl⟩ := div_cases run
    · exact zeros _ _
    · exact node whole spreads made
  · obtain ⟨_, _, rfl⟩ := (except_bind_pure_ok _ _ _).mp run
    exact node whole spreads made
  · obtain ⟨_, _, rfl⟩ := (except_bind_pure_ok _ _ _).mp run
    exact node whole spreads made
  · obtain ⟨_, _, run⟩ := (except_bind_ok _ _ _).mp run
    exact spatial_derivative (made _ (by simp)) run
  · obtain ⟨_, _, rfl⟩ := variable_derivative_cases run
    exact node whole spreads made
  · cases run
    exact node whole spreads made
  · unfold transposed at run
    split at run
    · cases run
      exact node whole spreads made
    · cases run
  · obtain ⟨_, _, run⟩ := (except_bind_ok _ _ _).mp run
    obtain ⟨_, _, _, rfl | rfl⟩ := binary_cases run
    · exact zeros _ _
    · exact node whole spreads made
  · obtain ⟨_, _, _, rfl | rfl⟩ := binary_cases run
    · exact zeros _ _
    · exact node whole spreads made
  · obtain ⟨_, run⟩ := except_if_ok (by simp) run
    obtain ⟨_, _, _, rfl | rfl⟩ := binary_cases run
    · exact zeros _ _
    · exact node whole spreads made
  · obtain ⟨_, run⟩ := except_if_ok (by simp) run
    obtain ⟨_, _, _, rfl | rfl⟩ := binary_cases run
    · exact zeros _ _
    · exact node whole spreads made
  · obtain ⟨_, _, rfl⟩ := (except_bind_pure_ok _ _ _).mp run
    exact node whole spreads made
  · obtain ⟨_, _, rfl⟩ := (except_bind_pure_ok _ _ _).mp run
    exact node whole spreads made
  · unfold determinant at run
    split at run
    · cases run
      exact made _ (by simp)
    · cases run
      exact node whole spreads made
    · cases run
  · unfold inverse at run
    split at run
    · exact scalar_quotient (real _) (made _ (by simp)) run
    · cases run
      exact node whole spreads made
    · cases run
  · obtain ⟨_, _, rfl⟩ := (except_bind_pure_ok _ _ _).mp run
    exact node whole spreads made
  · obtain ⟨_, _, rfl⟩ := (except_bind_pure_ok _ _ _).mp run
    exact node whole spreads made
  · cases run

theorem build {op : Operator} {operands : List Expr} {supply after : Supply}
    (made : ∀ o ∈ operands, Made given o) (run : op.build operands supply = .ok (r, after)) :
    Made given r :=
  stable.build made (fun spreads built => assemble spreads made built) run

end Made

namespace Expr

/-- Every node of it is what its operator makes of its operands. -/
inductive Formed : Expr → Prop
  | terminal (data : Terminal) : Formed (.terminal data)
  | node {op : Operator} {operands : List Expr} {shape : Shape} {free : FreeIndices} :
      op.assemble operands = .ok (.node op operands shape free) → op.Spreads operands →
      (∀ o ∈ operands, Formed o) → Formed (.node op operands shape free)
  | labelled {label : Label} {body : Expr} : body.kind ≠ .multiIndex → Formed body →
      Formed (.labelled label body)

theorem Formed.operand {o e : Expr} (formed : Formed e) (member : o ∈ e.operands) : Formed o := by
  cases formed with
  | terminal => cases member
  | node _ _ operands => exact operands o member
  | labelled _ body => exact List.mem_singleton.mp member ▸ body

theorem Formed.within {x e : Expr} (formed : Formed e) (inside : Within x e) : Formed x := by
  induction inside with
  | refl => exact formed
  | step member _ ih => exact ih (formed.operand member)

theorem Formed.well_typed {e : Expr} (formed : Formed e) : WellTyped e := by
  induction formed with
  | terminal data => exact .terminal data
  | node run _ _ ih => exact assemble_well_typed ih run
  | labelled kind _ ih => exact .labelled kind ih

end Expr

theorem Made.formed {given : Expr → Prop} (known : ∀ e, given e → Formed e) {e : Expr}
    (made : Made given e) : Formed e := by
  induction made with
  | given holds => exact known _ holds
  | constant => exact .terminal _
  | operand _ member ih => exact ih.operand member
  | node run spreads _ ih => exact .node run spreads ih

namespace Expr

/-- The constructors of index notation make formed expressions of formed ones. -/
theorem formed_stable : Stable Formed := by
  have closed : Made Formed = Formed := funext fun e => propext ⟨Made.formed fun _ => id, .given⟩
  exact closed ▸ Made.stable

theorem assemble_formed {op : Operator} {operands : List Expr} {e : Expr}
    (spreads : op.Spreads operands) (formed : ∀ o ∈ operands, Formed o)
    (run : op.assemble operands = .ok e) : Formed e :=
  have made : Made (· ∈ operands) e := .assemble spreads (fun _ member => .given member) run
  made.formed formed

theorem build_formed {op : Operator} {operands : List Expr} {e : Expr} {supply after : Supply}
    (formed : ∀ o ∈ operands, Formed o) (run : op.build operands supply = .ok (e, after)) :
    Formed e := by
  have made : Made (· ∈ operands) e := Made.build (fun _ member => .given member) run
  exact made.formed formed

theorem Constructible.formed {e : Expr} (made : Constructible e) : Formed e := by
  induction made with
  | terminal data => exact .terminal data
  | build _ run ih => exact build_formed ih run
  | labelled _ run ih =>
      obtain ⟨kind, rfl⟩ := with_label_cases run
      exact .labelled kind ih
  | operand _ member ih => exact ih.operand member

end Expr

end FormCalculus
