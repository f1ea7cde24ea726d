import FormCalculus.Proofs.Expanding
import FormCalculus.Proofs.Making
import FormCalculus.Proofs.Transforming

/-!
Where the parts of an expansion come from. Whatever is labelled in it, and every list tensor but
those that the components of the whole are listed in, stands in the expression as it is; and it has
conditionals only where the expression has some.
-/
set_option autoImplicit false

namespace FormCalculus.Expr

/-- `x` stands in `e`, or its kind is one that expansion may make of `e`. -/
def Inherited (e x : Expr) : Prop :=
  Within x e ∨ x.kind ≠ .labelled ∧ x.kind ≠ .listTensor ∧
    (x.kind = .conditional → ∃ y, Within y e ∧ y.kind = .conditional)

/-- Every part of `r` is inherited from `e`. -/
def Descends (e r : Expr) : Prop := ∀ x, Within x r → Inherited e x

section

variable {e o r x : Expr}

theorem Inherited.operand (inherited : Inherited o x) (member : o ∈ e.operands) : Inherited e x := by
  rcases inherited with inside | ⟨label, list, choice⟩
  · exact .inl (inside.trans (Within.operand member))
  · refine .inr ⟨label, list, fun kind => ?_⟩
    obtain ⟨y, inside, same⟩ := choice kind
    exact ⟨y, inside.trans (Within.operand member), same⟩

theorem Descends.operand (descends : Descends o r) (member : o ∈ e.operands) : Descends e r :=
  fun x inside => (descends x inside).operand member

theorem descends_within (inside : Within r e) : Descends e r := fun _ below => .inl (below.trans inside)

theorem descends_of_operands (root : Inherited e r) (below : ∀ v ∈ r.operands, Descends e v) :
    Descends e r := by
  intro x inside
  cases inside with
  | refl => exact root
  | step member inside => exact below _ member x inside

theorem descends_terminal (e : Expr) (data : Terminal) : Descends e (.terminal data) :=
  descends_of_operands (.inr (by cases data <;> exact ⟨nofun, nofun, nofun⟩)) nofun

theorem descends_constant [Folding] (c : Constant) : Descends e c.toExpr := by
  obtain ⟨data, same⟩ : ∃ data, c.toExpr = .terminal data := by cases c <;> exact ⟨_, rfl⟩
  exact same ▸ descends_terminal e data

theorem descends_assembled [Folding] {op : Operator} {results : List Expr}
    (elementary : op.isElementary = true)
    (choice : op = .conditional → ∃ y, Within y e ∧ y.kind = .conditional)
    (below : ∀ v ∈ results, Descends e v) (assembled : Assembled op results r) : Descends e r := by
  cases assembled with
  | operand member => exact below _ member
  | constant c => exact descends_constant c
  | zeros => exact descends_terminal e _
  | node inside =>
      refine descends_of_operands (.inr ?_) fun v member => below v (inside v member)
      by_cases same : op = .conditional
      · subst same
        exact ⟨nofun, nofun, fun _ => choice rfl⟩
      · cases op <;>
          first | (cases elementary; done) | exact absurd rfl same | exact ⟨nofun, nofun, nofun⟩

/-- An expression stays as it is, or its operator makes something of the results. -/
theorem reassemble_cases [Folding] {op : Operator} {results : List Expr}
    (run : e.reassemble op results = .ok r) : r = e ∨ op.assemble results = .ok r := by
  unfold reassemble reuseOr at run
  by_cases same : e.hasOperands results = true
  · rw [if_pos same] at run
    exact .inl (Except.ok.inj run).symm
  · rw [if_neg same] at run
    exact .inr ((except_map_error_ok _ _ _).mp run)

theorem descends_reassembled [Folding] {op : Operator} {operands results : List Expr} {shape : Shape}
    {free : FreeIndices} (elementary : op.isElementary = true)
    (below : ∀ v ∈ results, Descends (.node op operands shape free) v)
    (run : (node op operands shape free).reassemble op results = .ok r) :
    Descends (.node op operands shape free) r := by
  obtain rfl | run := reassemble_cases run
  · exact descends_within (.refl _)
  · refine descends_assembled elementary (fun same => ⟨_, .refl _, ?_⟩) below
      (assemble_elementary elementary run)
    rw [same]
    rfl

/-- What can be selected from a terminal or a gradient. -/
theorem selected_cases {component : Component} (plain : e.kind ≠ .listTensor)
    (run : e.selectAt component = .ok r) :
    r = e ∨ (∃ data, r = .terminal data ∧ data.kind ≠ .argument) ∨
      ∃ items free, r = .node .indexed [e, multiIndex items] [] free := by
  unfold selectAt at run
  by_cases scalar : e.isScalar = true
  · rw [if_pos scalar] at run
    exact .inl (Except.ok.inj run).symm
  · rw [if_neg scalar] at run
    have cases := subscript_cases ((except_map_error_ok _ _ _).mp run)
    generalize component.map IndexItem.fixed = items at cases
    cases cases with
    | whole => exact .inl rfl
    | zero => exact .inr (.inl ⟨_, rfl, nofun⟩)
    | @identity _ row column =>
        refine .inr (.inl ?_)
        by_cases same : row = column
        · rw [if_pos same]
          exact ⟨.int 1, rfl, nofun⟩
        · rw [if_neg same]
          exact ⟨.zero [] ∅, rfl, nofun⟩
    | entry => exact absurd rfl plain
    | node => exact .inr (.inr ⟨_, _, rfl⟩)

theorem descends_selected {component : Component} (plain : e.kind ≠ .listTensor)
    (run : e.selectAt component = .ok r) : Descends e r := by
  obtain rfl | ⟨data, rfl, _⟩ | ⟨items, free, rfl⟩ := selected_cases plain run
  · exact descends_within (.refl _)
  · exact descends_terminal e data
  · exact descends_of_operands (.inr ⟨nofun, nofun, nofun⟩)
      (operands_pair (descends_within (.refl _)) (descends_terminal e _))

end

section

variable [Folding] {e r : Expr} {scope : Scope}

theorem expands_descends (expands : Expands e scope r) : Descends e r := by
  induction expands with
  | zero | multiIndex => exact descends_terminal _ _
  | terminal _ _ _ selected => exact descends_selected (by cases ‹Terminal› <;> rintro ⟨⟩) selected
  | labelled _ ih => exact ih.operand List.mem_cons_self
  | conditional _ _ _ run test first second =>
      refine descends_reassembled rfl (fun v member => ?_) run
      simp only [List.mem_cons, List.not_mem_nil, or_false] at member
      obtain rfl | rfl | rfl := member
      · exact test.operand (by simp [operands])
      · exact first.operand (by simp [operands])
      · exact second.operand (by simp [operands])
  | @indexSum summand _ index _ shape free _ terms _ length _ total ih =>
      -- A partial sum only has parts of the terms so far, and of sums of them.
      have start : Descends (node .indexSum [summand, multiIndex [.free index]] shape free) zero :=
        descends_terminal _ _
      refine foldlM_keeps start ?_ total
      intro sum term next member kept step
      obtain ⟨position, pair⟩ := partner_left length member
      have added := (ih position term pair).operand (e := node .indexSum
        [summand, multiIndex [.free index]] shape free) List.mem_cons_self
      have run : Operator.assemble .sum [sum, term] = .ok next := step
      have elementary : Operator.isElementary .sum = true := rfl
      exact descends_assembled elementary (by simp) (operands_pair kept added)
        (assemble_elementary elementary run)
  | indexed _ _ ih => exact ih.operand List.mem_cons_self
  | componentTensor _ _ ih => exact ih.operand List.mem_cons_self
  | listTensor _ found _ ih => exact ih.operand (List.mem_of_getElem? found)
  | grad _ _ selected => exact descends_selected (by rintro ⟨⟩) selected
  | @pointwise op operands results _ _ _ _ pointwise length _ run ih =>
      refine descends_reassembled (by simp [Operator.isElementary, pointwise]) (fun v member => ?_) run
      obtain ⟨o, pair⟩ := partner_left length member
      exact (ih o v pair).operand (List.of_mem_zip pair).1

omit [Folding] in
theorem tabulate_descends {entry : Component → Except TransformError Expr} {shape : Shape}
    {position : Component} (descends : ∀ component v, entry component = .ok v → Descends e v)
    (run : tabulate entry shape position = .ok r) :
    ∀ x, Within x r → Inherited e x ∨ x.kind = .listTensor := by
  induction shape generalizing position r with
  | nil => exact fun x inside => .inl (descends position r run x inside)
  | cons dim shape ih =>
      simp only [tabulate, except_bind_ok, except_map_error_ok] at run
      obtain ⟨entries, runs, list⟩ := run
      have pairs := mapM_ok runs
      obtain ⟨_, _, _, _, ⟨_, rfl⟩ | rfl⟩ := list_tensor_cases list
      · exact fun x inside => .inl (descends_terminal e _ x inside)
      · intro x inside
        cases inside with
        | refl => exact .inr rfl
        | step member inside =>
            obtain ⟨place, _, found⟩ := pairs_member pairs member
            exact ih found x inside

/-- The parts of a whole expansion: list tensors may be those of a tensor's components. -/
theorem expand_parts (typed : WellTyped e) (run : e.expand = .ok r) :
    ∀ x, Within x r → Inherited e x ∨ x.kind = .listTensor :=
  tabulate_descends (fun _ _ found => expands_descends (expand_in_expands typed found)) run

omit [Folding] in
theorem Inherited.labelled {label : Label} {body : Expr} (inherited : Inherited e (.labelled label body)) :
    Within (.labelled label body) e :=
  inherited.resolve_right fun made => made.1 rfl

omit [Folding] in
theorem descends_consistent (consistent : Consistent e) (descends : Descends e r) : Consistent r :=
  consistent.of_labels fun _ _ inside => (descends _ inside).labelled

/-- Labels of an expansion are labels of the expression, for the same bodies. -/
theorem expand_consistent (typed : WellTyped e) (consistent : Consistent e) (run : e.expand = .ok r) :
    Consistent r :=
  consistent.of_labels fun _ _ inside =>
    ((expand_parts typed run _ inside).resolve_right nofun).labelled

end

/-! Expansion makes its results with the constructors of what stands in the expression. -/

section

variable {given : Expr → Prop} {e r : Expr} {scope : Scope}

theorem select_made {component : Component} (known : given e) (run : e.selectAt component = .ok r) :
    Made given r := by
  unfold selectAt at run
  by_cases scalar : e.isScalar = true
  · rw [if_pos scalar] at run
    exact Except.ok.inj run ▸ .given known
  · rw [if_neg scalar] at run
    exact Made.subscript (.given known) ((except_map_error_ok _ _ _).mp run)

theorem reassemble_made {op : Operator} {results : List Expr} (known : given e)
    (other : op ∉ [.inner, .outer, .dot]) (below : ∀ v ∈ results, Made given v)
    (run : e.reassemble op results = .ok r) : Made given r := by
  obtain rfl | run := reassemble_cases run
  · exact .given known
  · exact .assemble (spreads_other other) below run

theorem expands_made (below : ∀ {x o}, given x → o ∈ x.operands → given o)
    (expands : Expands e scope r) (known : given e) : Made given r := by
  induction expands with
  | zero | multiIndex => exact .constant rfl
  | terminal _ _ _ selected => exact select_made known selected
  | labelled _ ih => exact ih (below known List.mem_cons_self)
  | conditional _ _ _ run test first second =>
      refine reassemble_made known (by decide) (fun v member => ?_) run
      simp only [List.mem_cons, List.not_mem_nil, or_false] at member
      rcases member with rfl | rfl | rfl
      · exact test (below known (by simp [operands]))
      · exact first (below known (by simp [operands]))
      · exact second (below known (by simp [operands]))
  | indexSum _ length _ total ih =>
      refine foldlM_keeps (.constant rfl) (fun sum t next member kept added => ?_) total
      obtain ⟨position, pair⟩ := partner_left length member
      exact .add kept (ih position t pair (below known List.mem_cons_self)) added
  | indexed _ _ ih => exact ih (below known List.mem_cons_self)
  | componentTensor _ _ ih => exact ih (below known List.mem_cons_self)
  | listTensor _ found _ ih => exact ih (below known (List.mem_of_getElem? found))
  | grad _ _ selected => exact select_made known selected
  | @pointwise op operands results _ _ _ _ pointwise length _ run ih =>
      have other : op ∉ [.inner, .outer, .dot] := by
        cases op <;> first | (cases pointwise; done) | simp
      refine reassemble_made known other (fun v member => ?_) run
      obtain ⟨o, pair⟩ := partner_left length member
      exact ih o v pair (below known (List.of_mem_zip pair).1)

theorem tabulate_made {entry : Component → Except TransformError Expr} {shape : Shape}
    {position : Component} (made : ∀ component v, entry component = .ok v → Made given v)
    (run : tabulate entry shape position = .ok r) : Made given r := by
  induction shape generalizing position r with
  | nil => exact made position r run
  | cons dim shape ih =>
      simp only [tabulate, except_bind_ok, except_map_error_ok] at run
      obtain ⟨entries, runs, listed⟩ := run
      have below : ∀ v ∈ entries, Made given v := fun v member => by
        obtain ⟨place, _, found⟩ := pairs_member (mapM_ok runs) member
        exact ih found
      exact .list_tensor below listed

theorem expand_in_formed (formed : Formed e) (run : e.expandIn scope = .ok r) : Formed r := by
  have made := expands_made Formed.operand (expand_in_expands formed.well_typed run) formed
  exact made.formed fun _ known => known

theorem expand_formed (formed : Formed e) (run : e.expand = .ok r) : Formed r := by
  have made := tabulate_made (fun _ _ found =>
    expands_made Formed.operand (expand_in_expands formed.well_typed found) formed) run
  exact made.formed fun _ known => known

end

end FormCalculus.Expr
