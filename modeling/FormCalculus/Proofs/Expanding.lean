import FormCalculus.Expansion
import FormCalculus.Proofs.Constructible

/-!
Index expansion as a relation: what an expression expands to in a scope, by its outermost node.
-/
set_option autoImplicit false

namespace FormCalculus

/-- The operators whose operands are expanded at the component of their node. -/
def Operator.isPointwise : Operator → Bool
  | .sum | .product | .division | .power | .sqrt | .condition _ | .spatialDerivative
  | .restricted _ => true
  | _ => false

/-- The operators that a node can keep when its operands are expanded. -/
def Operator.isElementary (op : Operator) : Bool := op.isPointwise || op = .conditional

namespace Expr

/-- The component that a terminal is read at when `component` is selected. -/
def aliased (e : Expr) (component : Component) : Component :=
  match e.space? with
  | some space => space.canonicalComponent component
  | none => component

variable [Folding]

/-- What an elementary operator can make of its operands. -/
inductive Assembled (op : Operator) (operands : List Expr) : Expr → Prop
  | operand {o : Expr} : o ∈ operands → Assembled op operands o
  | constant (c : Constant) : Assembled op operands c.toExpr
  | zeros {a b : Expr} {free : FreeIndices} : operands = [a, b] → free.IsUnion a.free b.free →
      Assembled op operands (zeros [] free)
  | node {nodes : List Expr} {shape : Shape} {free : FreeIndices} :
      (∀ o ∈ nodes, o ∈ operands) → op.Types nodes shape free →
      Assembled op operands (.node op nodes shape free)

theorem assemble_elementary {op : Operator} {operands : List Expr} {r : Expr}
    (elementary : op.isElementary = true) (run : op.assemble operands = .ok r) :
    Assembled op operands r := by
  have folded {how : Constant.Operation} {a b : Expr} (folded : fold? how a b = some r) :
      Assembled op operands r := by
    obtain ⟨_, _, c, _, _, _, rfl⟩ := fold_some folded
    exact .constant c
  unfold Operator.assemble at run
  split at run
  all_goals first | (cases elementary; done) | skip
  · obtain ⟨shape, free, ⟨_, rfl⟩ | ⟨_, rfl⟩ | constant | rfl⟩ := add_cases run
    · exact .operand (by simp)
    · exact .operand (by simp)
    · exact folded constant
    · exact .node (fun o member => by simpa using mem_sorted_pair.mp member) (sum_types shape free)
  · obtain ⟨left, right, free, union, ⟨_, rfl⟩ | constant | ⟨_, rfl⟩ | ⟨_, rfl⟩ | rfl⟩ :=
      scalar_product_cases run
    · exact .zeros rfl union
    · exact folded constant
    · exact .operand (by simp)
    · exact .operand (by simp)
    · exact .node (fun o member => by simpa using mem_sorted_pair.mp member) (product_types left right union)
  · obtain ⟨left, right, free, union, ⟨_, rfl⟩ | constant | ⟨_, rfl⟩ | rfl⟩ :=
      scalar_quotient_cases run
    · exact .zeros rfl union
    · exact folded constant
    · exact .operand (by simp)
    · exact .node (fun _ member => member) (.division left right union)
  · obtain ⟨left, right, free, ⟨_, rfl⟩ | constant | rfl⟩ := pow_cases run
    · exact .operand (by simp)
    · exact folded constant
    · exact .node (fun _ member => member) (.power left right free)
  · obtain ⟨scalar, ⟨_, rfl⟩ | constant | rfl⟩ := sqrt_cases run
    · exact .operand (by simp)
    · obtain ⟨_, c, _, _, same⟩ := fold_root_some constant
      exact same ▸ .constant c
    · exact .node (fun _ member => member) (.sqrt scalar)
  · obtain ⟨free, types, rfl⟩ := conditional_cases run
    exact .node (fun _ member => member) types
  · obtain ⟨free, types, rfl⟩ := condition_cases run
    exact .node (fun _ member => member) types
  · obtain ⟨items, known, run⟩ := (except_bind_ok _ _ _).mp run
    obtain ⟨_, rfl⟩ | ⟨some, gdim, free, _, subscribed, rfl⟩ := spatial_derivative_cases run
    · exact .operand (by simp)
    · refine .node (fun o member => ?_) (.spatialDerivative some subscribed)
      rw [expect_items_ok known]
      exact member
  · cases run
    exact .node (fun _ member => member) (.restricted)
  · cases run

inductive Expands : Expr → Scope → Expr → Prop
  | zero {shape : Shape} {free : FreeIndices} {scope : Scope} :
      scope.component.length = shape.length → scope.unassigned free.indices = [] →
      Expands (zeros shape free) scope .zero
  | multiIndex {items : List IndexItem} {scope : Scope} :
      scope.unassigned (items.filterMap IndexItem.free?) = [] →
      Expands (multiIndex items) scope (multiIndex (items.map scope.resolve))
  | terminal {data : Terminal} {scope : Scope} {r : Expr} : data.kind ≠ .zero →
      data.kind ≠ .multiIndex → scope.component.length = data.shape.length →
      (terminal data).selectAt ((terminal data).aliased scope.component) = .ok r →
      Expands (terminal data) scope r
  | labelled {label : Label} {body r : Expr} {scope : Scope} : Expands body scope r →
      Expands (labelled label body) scope r
  | conditional {test a b test' a' b' r : Expr} {shape : Shape} {free : FreeIndices}
      {scope : Scope} : Expands test (scope.select []) test' → Expands a scope a' →
      Expands b scope b' →
      (node .conditional [test, a, b] shape free).reassemble .conditional [test', a', b'] = .ok r →
      Expands (node .conditional [test, a, b] shape free) scope r
  | indexSum {summand r : Expr} {index : Index} {dim : Nat} {shape : Shape} {free : FreeIndices}
      {scope : Scope} {terms : List Expr} : summand.free.dim? index = some dim →
      (List.range dim).length = terms.length →
      (∀ position term, (position, term) ∈ (List.range dim).zip terms →
        Expands summand (scope.bind index position) term) →
      terms.foldlM add .zero = .ok r →
      Expands (node .indexSum [summand, Expr.multiIndex [.free index]] shape free) scope r
  | indexed {tensor r : Expr} {items : List IndexItem} {shape : Shape} {free : FreeIndices}
      {scope : Scope} : scope.unassigned (items.filterMap IndexItem.free?) = [] →
      Expands tensor (scope.select ((items.map scope.resolve).filterMap IndexItem.fixed?)) r →
      Expands (node .indexed [tensor, Expr.multiIndex items] shape free) scope r
  | componentTensor {e r : Expr} {indices : List Index} {shape : Shape} {free : FreeIndices}
      {scope : Scope} : indices.length = scope.component.length →
      Expands e ((scope.bindAll (indices.zip scope.component)).select []) r →
      Expands (node .componentTensor [e, Expr.multiIndex (indices.map .free)] shape free) scope r
  | listTensor {entries : List Expr} {entry r : Expr} {position : Nat} {rest : Component}
      {shape : Shape} {free : FreeIndices} {scope : Scope} : scope.component = position :: rest →
      entries[position]? = some entry → Expands entry (scope.select rest) r →
      Expands (node .listTensor entries shape free) scope r
  | grad {f r : Expr} {shape : Shape} {free : FreeIndices} {scope : Scope} :
      (f.isTerminal = true ∨ f.kind = .grad) → scope.component.length = shape.length →
      (node .grad [f] shape free).selectAt scope.component = .ok r →
      Expands (node .grad [f] shape free) scope r
  | pointwise {op : Operator} {operands results : List Expr} {r : Expr} {shape : Shape}
      {free : FreeIndices} {scope : Scope} : op.isPointwise = true →
      operands.length = results.length →
      (∀ o v, (o, v) ∈ operands.zip results → Expands o scope v) →
      (node op operands shape free).reassemble op results = .ok r →
      Expands (node op operands shape free) scope r

theorem expand_all_ok {operands results : List Expr} {scope : Scope}
    (run : expandAll operands scope = .ok results) :
    List.Forall₂ (fun o v => o.expandIn scope = .ok v) operands results := by
  induction operands generalizing results with
  | nil =>
      rw [expandAll] at run
      cases (except_pure_ok _ _).mp run
      exact .nil
  | cons o operands ih =>
      rw [expandAll] at run
      simp only [except_bind_ok, except_pure_ok] at run
      obtain ⟨v, first, rest, others, rfl⟩ := run
      exact .cons first (ih others)

theorem expand_entry_ok {node r : Expr} {entries : List Expr} {position ahead : Nat}
    {scope : Scope} (run : expandEntry node position entries ahead scope = .ok r) :
    ∃ entry, entries[ahead]? = some entry ∧ entry.expandIn scope = .ok r := by
  induction entries generalizing ahead with
  | nil =>
      rw [expandEntry] at run
      simp at run
  | cons entry entries ih =>
      cases ahead with
      | zero => exact ⟨entry, rfl, by rwa [expandEntry] at run⟩
      | succ ahead =>
          rw [expandEntry] at run
          exact ih run

/-- The terms that a sum over positions adds up, before they are added. -/
theorem sum_terms_ok {term : Nat → Except TransformError Expr} {positions : List Nat}
    {start r : Expr}
    (run : positions.foldlM (fun total position => do
      let t ← term position
      (total.add t).mapError .build) start = .ok r) :
    ∃ terms, List.Forall₂ (fun position t => term position = .ok t) positions terms ∧
      terms.foldlM add start = .ok r := by
  induction positions generalizing start with
  | nil => exact ⟨[], .nil, (except_pure_ok _ _).mp run ▸ rfl⟩
  | cons position positions ih =>
      simp only [List.foldlM_cons, except_bind_ok, except_map_error_ok] at run
      obtain ⟨total, ⟨t, first, sum⟩, rest⟩ := run
      obtain ⟨terms, others, total⟩ := ih rest
      exact ⟨t :: terms, .cons first others, (except_bind_ok _ _ _).mpr ⟨_, sum, total⟩⟩

omit [Folding] in
theorem assigns_ok {scope : Scope} {indices : List Index} {node : Expr} {u : Unit}
    (run : scope.assigns indices node = .ok u) : scope.unassigned indices = [] := by
  unfold Scope.assigns at run
  split at run
  · assumption
  · cases run

omit [Folding] in
theorem fits_ok {scope : Scope} {node : Expr} {u : Unit} (run : scope.fits node = .ok u) :
    scope.component.length = node.shape.length := by
  unfold Scope.fits at run
  split at run
  · assumption
  · cases run

theorem terminal_expands {data : Terminal} {scope : Scope} {r : Expr}
    (run : data.expandIn scope = .ok r) : Expands (terminal data) scope r := by
  unfold Terminal.expandIn at run
  split at run
  · simp only [except_bind_ok, except_pure_ok] at run
    obtain ⟨_, fits, _, assigned, rfl⟩ := run
    exact .zero (fits_ok fits) (assigns_ok assigned)
  · simp only [except_bind_ok, except_pure_ok] at run
    obtain ⟨_, assigned, rfl⟩ := run
    exact .multiIndex (assigns_ok assigned)
  · rename_i notZero notItems
    simp only [except_bind_ok] at run
    obtain ⟨_, fits, run⟩ := run
    refine .terminal ?_ ?_ (fits_ok fits) run
    · cases data <;> simp_all [Terminal.kind]
    · cases data <;> simp_all [Terminal.kind]

/-- Expanding a node whose operator has no rule of its own. -/
theorem expand_operands_ok {op : Operator} {operands : List Expr} {shape : Shape}
    {free : FreeIndices} {scope : Scope} {r : Expr}
    (other : op ∉ [.conditional, .division, .indexSum, .indexed, .componentTensor, .listTensor, .grad])
    (run : (node op operands shape free).expandIn scope = .ok r) :
    op ≠ .variableDerivative ∧ op.kind.isCompound = false ∧
      ∃ results, expandAll operands scope = .ok results ∧
        (node op operands shape free).reassemble op results = .ok r := by
  simp only [List.mem_cons, List.not_mem_nil, or_false, not_or] at other
  rw [expandIn] at run
  · obtain ⟨notDerivative, run⟩ := except_if_ok (by simp) run
    obtain ⟨notCompound, run⟩ := except_if_ok (by simp) run
    exact ⟨notDerivative, by simpa using notCompound, (except_bind_ok _ _ _).mp run⟩
  all_goals simp_all

/-- The results of a node's operands, where each operand expands as its run says. -/
theorem operands_expand {op : Operator} {operands results : List Expr} {shape : Shape}
    {free : FreeIndices} {scope : Scope} {r : Expr} (pointwise : op.isPointwise = true)
    (expands : ∀ o ∈ operands, ∀ {r}, o.expandIn scope = .ok r → Expands o scope r)
    (runs : List.Forall₂ (fun o v => o.expandIn scope = .ok v) operands results)
    (run : (node op operands shape free).reassemble op results = .ok r) :
    Expands (node op operands shape free) scope r :=
  .pointwise pointwise runs.length_eq
    (fun o _ member => expands o (List.of_mem_zip member).1 (List.forall₂_zip runs member)) run

theorem expand_in_expands {e r : Expr} {scope : Scope} (typed : WellTyped e)
    (run : e.expandIn scope = .ok r) : Expands e scope r := by
  induction e generalizing scope r with
  | terminal data => exact terminal_expands (by rwa [expandIn] at run)
  | labelled label body ih =>
      rw [expandIn] at run
      exact .labelled (ih (typed.operand List.mem_cons_self) run)
  | node op operands shape free ih =>
      obtain _ | ⟨types, typed⟩ := typed
      have expands : ∀ o ∈ operands, ∀ {scope r}, o.expandIn scope = .ok r → Expands o scope r :=
        fun o member _ _ => ih o member (typed o member)
      clear ih
      cases types with
      | conditional =>
          rw [expandIn] at run
          simp only [except_bind_ok] at run
          obtain ⟨_, _, test', first, a', second, b', third, run⟩ := run
          exact .conditional (expands _ (by simp) first) (expands _ (by simp) second)
            (expands _ (by simp) third) run
      | division =>
          rw [expandIn] at run
          obtain ⟨_, run⟩ := except_if_ok (by simp) run
          simp only [except_bind_ok] at run
          obtain ⟨a', first, b', second, run⟩ := run
          exact operands_expand rfl (fun o member => expands o member)
            (.cons first (.cons second .nil)) run
      | indexSum scalar known =>
          rw [expandIn] at run
          obtain ⟨indices, bound, run⟩ := (except_bind_ok _ _ _).mp run
          cases bound
          simp only [IndexItem.free?, List.filterMap_cons, List.filterMap_nil] at run
          split at run
          · simp at run
          · rename_i dim found
            obtain ⟨terms, runs, total⟩ := sum_terms_ok run
            refine .indexSum found runs.length_eq (fun position term member => ?_) total
            exact expands _ (by simp) (List.forall₂_zip runs member)
      | indexed nonempty subscribed =>
          rw [expandIn] at run
          obtain ⟨fixed, assigned, run⟩ := (except_bind_ok _ _ _).mp run
          rw [Expr.multiIndex, expandIn] at assigned
          simp only [Terminal.expandIn, except_bind_ok, except_pure_ok] at assigned
          obtain ⟨_, assigned, rfl⟩ := assigned
          exact .indexed (assigns_ok assigned) (expands _ (by simp) run)
      | componentTensor scalar nonempty binds =>
          rw [expandIn] at run
          simp only [except_bind_ok] at run
          obtain ⟨_, _, indices, bound, run⟩ := run
          simp only [boundIndices, Expr.multiIndex, multiIndex?, free_items, Except.ok.injEq] at bound
          subst bound
          obtain ⟨length, run⟩ := except_if_ok (by simp) run
          exact .componentTensor (not_not.mp length) (expands _ (by simp) run)
      | listTensor =>
          rw [expandIn] at run
          split at run
          · simp at run
          · rename_i position rest selected
            obtain ⟨entry, found, run⟩ := expand_entry_ok run
            exact .listTensor selected found (expands _ (List.mem_of_getElem? found) run)
      | grad nonzero =>
          rw [expandIn] at run
          obtain ⟨known, run⟩ := except_if_ok (by simp) run
          simp only [except_bind_ok] at run
          obtain ⟨_, fits, run⟩ := run
          simp only [Bool.not_eq_true', Bool.not_eq_false, Bool.or_eq_true, decide_eq_true_eq] at known
          exact .grad known (fits_ok fits) run
      | sum | product | power | sqrt | condition | spatialDerivative | restricted =>
          obtain ⟨_, _, results, runs, run⟩ := expand_operands_ok (by simp) run
          exact operands_expand rfl (fun o member => expands o member) (expand_all_ok runs) run
      | variableDerivative =>
          exact absurd rfl (expand_operands_ok (by simp) run).1
      | div | curl | rot | transposed | inner | outer | dot | cross | trace | skew | determinant
      | inverse | cofactor | deviatoric =>
          exact absurd (expand_operands_ok (by simp) run).2.1 (by decide)

end Expr

end FormCalculus
