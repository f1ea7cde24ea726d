import FormCalculus.Proofs.ExpandedForms
import FormCalculus.Proofs.ExpandingAssembled

/-!
Expanding a tensor is expanding its components. A component expands to what the tensor expands to there,
and the components of the expansion are these.
-/
set_option autoImplicit false

namespace FormCalculus.Expr

variable {e r v x : Expr} {component : Component}

section Components

variable {positions : List (Index × Nat)}

theorem zeros_expand {shape : Shape} {free : FreeIndices} {scope : Scope}
    (fits : scope.component.length = shape.length) :
    (zeros shape free).expandIn scope = .ok v ↔ scope.unassigned free.indices = [] ∧ v = zero := by
  have fits : scope.fits (zeros shape free) = .ok () := if_pos fits
  rw [zeros, expandIn, Terminal.expandIn]
  constructor
  · intro run
    simp only [except_bind_ok, except_pure_ok] at run
    obtain ⟨_, _, _, assigned, rfl⟩ := run
    exact ⟨assigns_ok assigned, rfl⟩
  · rintro ⟨assigned, rfl⟩
    have assigned : scope.assigns free.indices (zeros shape free) = .ok () := by
      rw [Scope.assigns, assigned]
    simp only [zeros] at fits assigned ⊢
    rw [fits, assigned]
    rfl

theorem int_expand (value : Int64) {scope : Scope} (here : scope.component = []) :
    (int value).expandIn scope = .ok (int value) := by
  obtain ⟨component, positions⟩ := scope
  cases here
  unfold int
  by_cases zero : value = 0
  · rw [if_pos zero]
    rfl
  · rw [if_neg zero]
    rfl

/-- A component expands to what its tensor expands to at the component. -/
theorem component_expands (run : e.component component = .ok x) :
    e.expandIn ⟨component, positions⟩ = .ok v ↔ x.expandIn ⟨[], positions⟩ = .ok v := by
  have made := subscript_cases run
  generalize same : component.map IndexItem.fixed = items at made
  clear run
  induction made generalizing component with
  | whole =>
      obtain rfl := List.map_eq_nil_iff.mp same
      exact Iff.rfl
  | @zero shape set items free subscribes =>
      subst same
      have fits : component.length = shape.length := by simpa using subscribes.length
      obtain rfl := subscribes.fixed (by simp)
      have tensor : (zeros shape free).expandIn ⟨component, positions⟩ = .ok v ↔ _ := zeros_expand fits
      have scalar : (zeros [] free).expandIn ⟨[], positions⟩ = .ok v ↔ _ := zeros_expand rfl
      exact tensor.trans scalar.symm
  | @identity dim row column inside inside' =>
      obtain rfl : component = [row, column] := by
        rw [← fixed_items component, same]
        rfl
      have tensor : (identity dim).expandIn ⟨[row, column], positions⟩ =
          .ok (int (if row = column then 1 else 0)) := identity_selected inside inside'
      rw [tensor, int_expand _ rfl]
  | @entry entries shape free position items entry r found _ ih =>
      obtain _ | ⟨p, rest⟩ := component
      · cases same
      obtain ⟨here, below⟩ := List.cons.inj same
      cases here
      -- The first position selects the entry in both.
      refine Iff.trans ?_ (ih below)
      rw [expandIn]
      constructor
      · intro run
        obtain ⟨entry', found', run⟩ := expand_entry_ok run
        obtain rfl := Option.some.inj (found.symm.trans found')
        exact run
      · exact expand_entry_runs found
  | node some subscribes =>
      -- Expanding the subscripts selects the component.
      subst same
      conv_rhs => rw [expandIn, expand_in_fixed]
      simp only [except_ok_bind, Expr.multiIndex, multiIndex?, Option.getD_some, fixed_items]
      exact Iff.rfl

end Components

section Tables

/-- Every component of a zero tensor is zero. -/
theorem zeros_component {shape : Shape} (free : FreeIndices) (lies : component.Lies shape) :
    (zeros shape free).component component = .ok (zeros [] free) := by
  have typed : WellTyped (zeros shape free) := .terminal _
  obtain ⟨r, run⟩ := typed_component_total typed lies
  have made := subscript_cases run
  generalize same : component.map IndexItem.fixed = items at made
  cases made with
  | whole scalar =>
      obtain rfl : shape = [] := scalar
      exact run
  | zero subscribes =>
      obtain rfl := subscribes.fixed (by simp [← same])
      exact run
  | node =>
      subst same
      obtain ⟨_, nonzero, _⟩ := subscript_stays run
      cases nonzero

/-- The components of a list are those of its entries. -/
theorem list_component {entries : List Expr} {shape : Shape} {free : FreeIndices} {position : Nat}
    {rest : Component} (inside : position < entries.length) (lies : Component.Lies rest shape) :
    (Expr.node .listTensor entries (entries.length :: shape) free).component (position :: rest) =
      entries[position].component rest := by
  have whole : Component.Lies (position :: rest) (entries.length :: shape) := .cons inside lies
  have subscribed :
      free.subscribe (.node .listTensor entries (entries.length :: shape) free)
        ((position :: rest).map .fixed) (entries.length :: shape) = .ok free :=
    (lies_subscribes free whole).runs
  have length : (rest.map IndexItem.fixed).length = shape.length := by simpa using lies.length_eq
  unfold component
  rw [List.map_cons] at subscribed ⊢
  rw [subscript]
  simp only [rank, Expr.shape, Expr.free, List.length_cons, length, ne_eq, not_true_eq_false, if_false,
    List.isEmpty_cons, Bool.false_eq_true, subscribed, except_ok_bind, subscript_entry_at inside]

/-- The components of a table are its entries. -/
theorem tabulate_component {entry : Component → Except TransformError Expr} {shape : Shape}
    {position : Component} (scalar : ∀ component v, entry component = .ok v → v.shape = [])
    (run : tabulate entry shape position = .ok r) :
    r.shape = shape ∧ ∀ component, Component.Lies component shape →
      ∃ v, entry (position ++ component) = .ok v ∧ r.component component = .ok v := by
  induction shape generalizing position r with
  | nil =>
      rw [tabulate] at run
      have whole := scalar position r run
      refine ⟨whole, fun component lies => ?_⟩
      cases lies
      exact ⟨r, by rwa [List.append_nil], component_whole whole⟩
  | cons dim shape ih =>
      simp only [tabulate, except_bind_ok, except_map_error_ok] at run
      obtain ⟨entries, runs, list⟩ := run
      have pairs := mapM_ok runs
      obtain rfl : entries.length = dim := by simpa using pairs.length_eq.symm
      have tables (next : Nat) (inside : next < entries.length) :
          tabulate entry shape (position ++ [next]) = .ok entries[next] := by
        simpa using pairs.get (i := next) (by simpa using inside) inside
      obtain ⟨inner, free, some, same, made⟩ := list_tensor_cases list
      have inhabited : 0 < entries.length := List.length_pos_iff.mpr some
      obtain rfl : inner = shape :=
        (same _ (List.getElem_mem inhabited)).1.symm.trans (ih (tables 0 inhabited)).1
      refine ⟨?_, fun component lies => ?_⟩
      · obtain ⟨_, rfl⟩ | rfl := made <;> rfl
      cases lies with
      | @cons next _ rest _ inside lies =>
          obtain ⟨v, found, selected⟩ := (ih (tables next inside)).2 rest lies
          refine ⟨v, by simpa using found, ?_⟩
          obtain ⟨zero, rfl⟩ | rfl := made
          · -- The list of zero tensors is one of them, and so is each of its components.
            have member := List.getElem_mem inside
            obtain ⟨axes, set, isZero⟩ := is_zero_iff.mp (zero _ member)
            have type := same _ member
            rw [isZero] at type selected
            obtain ⟨rfl, rfl⟩ : axes = inner ∧ set = free := type
            rw [zeros_component _ (.cons inside lies), ← selected, zeros_component _ lies]
          · rw [list_component inside lies, selected]

end Tables

/-- The components of an expansion are what the tensor expands to there. -/
theorem expand_entries (typed : WellTyped e) (run : e.expand = .ok r) :
    r.shape = e.shape ∧ ∀ component, Component.Lies component e.shape →
      ∃ v, e.expandIn ⟨component, []⟩ = .ok v ∧ Expanded v ∧ r.component component = .ok v := by
  have expanded (component : Component) (v : Expr) (found : e.expandIn ⟨component, []⟩ = .ok v) :
      Expanded v := expands_expanded (expand_in_expands typed found) typed
  obtain ⟨shape, entries⟩ := tabulate_component (fun c v found => (expanded c v found).scalar) run
  refine ⟨shape, fun component lies => ?_⟩
  obtain ⟨v, found, selected⟩ := entries component lies
  exact ⟨v, found, expanded component v found, selected⟩

/-- The expansion of a tensor has its shape, and the components of the expansion are the expansions of the
components. -/
theorem expand_components (made : Constructible e) (run : e.expand = .ok r) :
    r.shape = e.shape ∧ ∀ component, Component.Lies component e.shape →
      ∃ x y, e.component component = .ok x ∧ r.component component = .ok y ∧ x.expand = .ok y := by
  have typed : WellTyped e := made.well_typed
  obtain ⟨shape, entries⟩ := expand_entries typed run
  refine ⟨shape, fun component lies => ?_⟩
  obtain ⟨y, found, _, selected⟩ := entries component lies
  obtain ⟨x, here⟩ := typed_component_total typed lies
  refine ⟨x, y, here, selected, ?_⟩
  have whole : x.shape = [] := (subscript_type typed here).1
  unfold expand
  rw [whole]
  exact (component_expands here).mp found

section Sample

/-- A symmetric matrix of coefficients, and its components. -/
def symmetricField : Expr := .terminal (.coefficient ⟨0, .symmetric 2 2⟩)

def symmetricEntry (row column : Nat) : Expr :=
  .node .indexed [symmetricField, multiIndex [.fixed row, .fixed column]] [] ∅

/-- The component below the diagonal is another expression than the one above it, to which it expands. -/
theorem expand_symmetric_components : ∃ r, symmetricField.expand = .ok r ∧
    symmetricField.component [1, 0] = .ok (symmetricEntry 1 0) ∧
    r.component [1, 0] = .ok (symmetricEntry 0 1) ∧
    (symmetricEntry 1 0).expand = .ok (symmetricEntry 0 1) := by
  have expanded : symmetricField.expand = .ok (.node .listTensor
      [.node .listTensor [symmetricEntry 0 0, symmetricEntry 0 1] [2] ∅,
        .node .listTensor [symmetricEntry 0 1, symmetricEntry 1 1] [2] ∅] [2, 2] ∅) := by rfl
  have below : symmetricField.component [1, 0] = .ok (symmetricEntry 1 0) := by rfl
  have lies : Component.Lies [1, 0] symmetricField.shape := .cons (by decide) (.cons (by decide) .nil)
  obtain ⟨_, components⟩ := expand_components (.terminal _) expanded
  obtain ⟨x, y, component, selected, runs⟩ := components [1, 0] lies
  obtain rfl := Except.ok.inj (component.symm.trans below)
  have above : y = symmetricEntry 0 1 := Except.ok.inj (selected.symm.trans rfl)
  exact ⟨_, expanded, below, above ▸ selected, above ▸ runs⟩

end Sample

end FormCalculus.Expr
