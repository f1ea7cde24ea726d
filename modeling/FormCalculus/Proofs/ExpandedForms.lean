import FormCalculus.Proofs.Assembly
import FormCalculus.Proofs.ExpandingParts
import FormCalculus.Proofs.ExpansionShape

/-!
The forms that index expansion gives a scalar: zero, a multi-index of positions, a terminal or a gradient
that is kept as it stands or subscripted by a component it is read at, and elementary operators over
such.
-/
set_option autoImplicit false

namespace FormCalculus.Expr

/-- What expansion keeps as it stands: terminals with components of their own, and gradients of terminals
or of gradients. -/
inductive Leaf : Expr → Prop
  | terminal {data : Terminal} : data.kind ≠ .zero → data.kind ≠ .multiIndex → Leaf (.terminal data)
  | grad {f : Expr} {shape : Shape} {free : FreeIndices} : f.isTerminal = true ∨ f.kind = .grad →
      Leaf (.node .grad [f] shape free)

/-- A component of a leaf is one that it is read at. -/
inductive Expanded : Expr → Prop
  | zeros {free : FreeIndices} : Expanded (zeros [] free)
  | items {component : Component} : Expanded (multiIndex (component.map .fixed))
  | leaf {e : Expr} : Leaf e → e.shape = [] → Expanded e
  | entry {e : Expr} {component : Component} {free : FreeIndices} : Leaf e →
      e.component (e.aliased component) =
        .ok (.node .indexed [e, multiIndex ((e.aliased component).map .fixed)] [] free) →
      Expanded (.node .indexed [e, multiIndex ((e.aliased component).map .fixed)] [] free)
  | node {op : Operator} {operands : List Expr} {shape : Shape} {free : FreeIndices} :
      op.isElementary = true → op.Types operands shape free → (∀ o ∈ operands, Expanded o) →
      Expanded (.node op operands shape free)

variable {e o v r : Expr} {scope : Scope}

theorem Leaf.kind (leaf : Leaf e) : e.kind ≠ .listTensor ∧ e.kind ≠ .labelled ∧ e.isZero = false := by
  cases leaf with
  | @terminal data nonzero =>
      cases data <;> first | exact absurd rfl nonzero | exact ⟨nofun, nofun, rfl⟩
  | grad => exact ⟨nofun, nofun, rfl⟩

/-- An elementary operator over scalars has a scalar node. -/
theorem elementary_scalar {op : Operator} {operands : List Expr} {shape : Shape} {free : FreeIndices}
    (elementary : op.isElementary = true) (types : op.Types operands shape free)
    (scalars : ∀ o ∈ operands, o.shape = []) : shape = [] := by
  cases types with
  | sum | conditional | spatialDerivative | restricted => exact scalars _ (by simp)
  | product | division | power | sqrt | condition => rfl
  | _ => cases elementary

theorem Expanded.scalar (expanded : Expanded e) : e.shape = [] := by
  induction expanded with
  | zeros | items | entry => rfl
  | leaf _ scalar => exact scalar
  | node elementary types _ ih => exact elementary_scalar elementary types ih

theorem Expanded.not_labelled (expanded : Expanded e) : e.kind ≠ .labelled := by
  cases expanded with
  | leaf leaf => exact leaf.kind.2.1
  | @node op _ _ _ elementary => cases op <;> first | (cases elementary; done) | nofun
  | _ => nofun

theorem expanded_constant (c : Constant) : Expanded c.toExpr := by
  cases c with
  | zero => exact .zeros
  | int value | real value => exact .leaf (.terminal nofun nofun) rfl

theorem expanded_int (value : Int64) : Expanded (int value) := by
  unfold int
  by_cases zero : value = 0
  · rw [if_pos zero]
    exact .zeros
  · rw [if_neg zero]
    exact expanded_constant (.int value)

/-- Items without indices are positions. -/
theorem items_fixed {items : List IndexItem} (fixed : ∀ i, .free i ∉ items) :
    ∃ component : Component, items = component.map .fixed := by
  induction items with
  | nil => exact ⟨[], rfl⟩
  | cons item items ih =>
      obtain ⟨rest, rfl⟩ := ih fun i member => fixed i (List.mem_cons_of_mem _ member)
      cases item with
      | fixed position => exact ⟨position :: rest, rfl⟩
      | free index => exact absurd List.mem_cons_self (fixed index)

theorem expanded_selected {component : Component} (leaf : Leaf e)
    (run : e.selectAt (e.aliased component) = .ok r) : Expanded r := by
  unfold selectAt at run
  by_cases scalar : e.isScalar = true
  · rw [if_pos scalar] at run
    exact Except.ok.inj run ▸ .leaf leaf (is_scalar_iff.mp scalar)
  · rw [if_neg scalar, except_map_error_ok] at run
    have made := subscript_cases run
    generalize same : (e.aliased component).map IndexItem.fixed = items at made
    cases made with
    | whole scalar' => exact absurd (is_scalar_iff.mpr scalar') scalar
    | zero => exact nomatch leaf.kind.2.2
    | identity => exact expanded_int _
    | entry => exact absurd rfl leaf.kind.1
    | node =>
        subst same
        exact .entry leaf run

/-! Equality looks at the labels of labelled expressions only, and forms go along with it. -/

theorem leaf_same (leaf : Leaf v) (same : (v == o) = true) :
    Leaf o ∧ o.shape = v.shape ∧ o.free = v.free ∧ o.aliased = v.aliased := by
  cases leaf with
  | terminal nonzero items =>
      cases o with
      | terminal data =>
          obtain rfl : _ = data := by simpa using same
          exact ⟨.terminal nonzero items, rfl, rfl, rfl⟩
      | node | labelled => simp at same
  | @grad f _ _ kept =>
      cases o with
      | terminal | labelled => simp at same
      | node op operands shape free =>
          simp only [node_same, Bool.and_eq_true, beq_iff_eq, operands_same_iff] at same
          obtain ⟨⟨⟨rfl, rfl⟩, rfl⟩, pairs⟩ := same
          obtain ⟨f', rfl, below⟩ := pairs_one pairs
          refine ⟨.grad ?_, rfl, rfl, rfl⟩
          unfold isTerminal at kept ⊢
          rwa [← same_kind below]

theorem component_same {component : Component} {free : FreeIndices} (leaf : Leaf v)
    (same : (v == o) = true)
    (run : v.component component = .ok (.node .indexed [v, multiIndex (component.map .fixed)] [] free)) :
    o.component component = .ok (.node .indexed [o, multiIndex (component.map .fixed)] [] free) := by
  obtain ⟨leaf', shape, free', _⟩ := leaf_same leaf same
  obtain ⟨⟨some, subscribes, _⟩, _, stays⟩ := subscript_stays run
  rw [← shape, ← free'] at subscribes
  refine subscript_runs some subscribes leaf'.kind.2.2 fun selects => stays ?_
  unfold Selects at selects ⊢
  rwa [same_kind same]

theorem expanded_same (expanded : Expanded v) (typed : WellTyped o) (same : (v == o) = true) :
    Expanded o := by
  induction expanded generalizing o with
  | zeros | items =>
      cases o with
      | terminal data =>
          obtain rfl : _ = data := by simpa [Expr.zeros, Expr.multiIndex] using same
          first | exact .zeros | exact .items
      | node | labelled => simp [Expr.zeros, Expr.multiIndex] at same
  | leaf leaf scalar =>
      obtain ⟨leaf', shape, _⟩ := leaf_same leaf same
      exact .leaf leaf' (shape.trans scalar)
  | @entry e component free leaf run =>
      cases o with
      | terminal | labelled => simp at same
      | node op operands shape free =>
          simp only [node_same, Bool.and_eq_true, beq_iff_eq, operands_same_iff] at same
          obtain ⟨⟨⟨rfl, rfl⟩, rfl⟩, pairs⟩ := same
          obtain ⟨e', ii, rfl, tensor, items⟩ := pairs_two pairs
          obtain rfl : multiIndex _ = ii := same_eq (unlabelled_terminal _) items
          obtain ⟨leaf', _, _, aliased⟩ := leaf_same leaf tensor
          have run' := component_same leaf tensor run
          rw [← aliased] at run' ⊢
          exact .entry leaf' run'
  | @node op operands shape free elementary types _ ih =>
      cases o with
      | terminal | labelled => simp at same
      | node op' operands' shape' free' =>
          simp only [node_same, Bool.and_eq_true, beq_iff_eq, operands_same_iff] at same
          obtain ⟨⟨⟨rfl, rfl⟩, rfl⟩, pairs⟩ := same
          obtain _ | ⟨types', typed⟩ := typed
          refine .node elementary types' fun o' member => ?_
          obtain ⟨v', inside, below⟩ := pairs_member pairs member
          exact ih v' inside (typed o' member) below

theorem same_of_same_through (plain : v.kind ≠ .labelled) (through : v.sameThrough o = true) :
    (v == o) = true := by
  cases v with
  | labelled => exact absurd rfl plain
  | terminal | node => exact through

theorem expanded_assembled {op : Operator} {results : List Expr} (elementary : op.isElementary = true)
    (below : ∀ v ∈ results, Expanded v) (assembled : Assembled op results r) : Expanded r := by
  cases assembled with
  | operand member => exact below _ member
  | constant c => exact expanded_constant c
  | zeros => exact .zeros
  | node inside types => exact .node elementary types fun o member => below o (inside o member)

section

variable [Folding]

theorem expanded_reassembled {op : Operator} {operands results : List Expr} {shape : Shape}
    {free : FreeIndices} (elementary : op.isElementary = true)
    (typed : WellTyped (.node op operands shape free)) (below : ∀ v ∈ results, Expanded v)
    (run : (node op operands shape free).reassemble op results = .ok r) : Expanded r := by
  unfold reassemble reuseOr at run
  by_cases kept : (node op operands shape free).hasOperands results = true
  · -- The operands that stay need not be the results, but they equal them.
    rw [if_pos kept] at run
    cases (except_pure_ok _ _).mp run
    obtain _ | ⟨types, typed⟩ := typed
    refine .node elementary types fun o member => ?_
    obtain ⟨v, inside, through⟩ := pairs_member (has_operands_pairs kept) member
    have expanded := below v inside
    exact expanded_same expanded (typed o member)
      (same_of_same_through expanded.not_labelled through)
  · rw [if_neg kept] at run
    exact expanded_assembled elementary below
      (assemble_elementary elementary ((except_map_error_ok _ _ _).mp run))

/-- Whatever an expression expands to has one of the forms. -/
theorem expands_expanded (expands : Expands e scope r) (typed : WellTyped e) : Expanded r := by
  induction expands with
  | zero => exact .zeros
  | multiIndex assigned =>
      obtain ⟨component, same⟩ := items_fixed (resolved_fixed assigned)
      rw [same]
      exact .items
  | terminal nonzero items _ selected => exact expanded_selected (.terminal nonzero items) selected
  | labelled _ ih | indexed _ _ ih | componentTensor _ _ ih => exact ih (typed.operand List.mem_cons_self)
  | conditional _ _ _ run test first second =>
      refine expanded_reassembled rfl typed (fun v member => ?_) run
      simp only [List.mem_cons, List.not_mem_nil, or_false] at member
      obtain rfl | rfl | rfl := member
      · exact test (typed.operand (by simp [operands]))
      · exact first (typed.operand (by simp [operands]))
      · exact second (typed.operand (by simp [operands]))
  | indexSum _ length _ total ih =>
      refine foldlM_keeps .zeros (fun sum t next member kept added => ?_) total
      obtain ⟨position, pair⟩ := partner_left length member
      have term := ih position t pair (typed.operand List.mem_cons_self)
      have assembled : Assembled .sum [sum, t] next := assemble_elementary rfl added
      exact expanded_assembled rfl (operands_pair kept term) assembled
  | listTensor _ found _ ih => exact ih (typed.operand (List.mem_of_getElem? found))
  | grad kept _ selected => exact expanded_selected (.grad kept) selected
  | @pointwise op operands results _ _ _ _ pointwise length _ run ih =>
      refine expanded_reassembled (by simp [Operator.isElementary, pointwise]) typed (fun v member => ?_) run
      obtain ⟨o, pair⟩ := partner_left length member
      exact ih o v pair (typed.operand (List.of_mem_zip pair).1)

end

end FormCalculus.Expr
