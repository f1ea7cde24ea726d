import FormCalculus.Proofs.ExpandingComponents
import FormCalculus.Proofs.ExpandingStripped

/-!
Expanding what has been expanded. What an expansion leaves expands to itself, unless an index is still
looked up in it: a gradient that is kept as it stands may leave one behind, and a zero that takes it on is
refused the next time.
-/
set_option autoImplicit false

namespace FormCalculus

section Aliases

variable {map : SymmetryMap} {entry : Component × Component} {component target : Component}

theorem SymmetryMap.mem_insert (member : entry ∈ map.insert component target) :
    entry = (component, target) ∨ entry ∈ map := by
  induction map with
  | nil => exact .inl (List.mem_singleton.mp member)
  | cons first rest ih =>
      rw [insert] at member
      by_cases before : component.precedes first.1 = true
      · rw [if_pos before] at member
        exact List.mem_cons.mp member
      rw [if_neg before] at member
      by_cases same : component = first.1
      · rw [if_pos same] at member
        rcases List.mem_cons.mp member with rfl | later
        · exact .inl rfl
        · exact .inr (List.mem_cons_of_mem _ later)
      rw [if_neg same] at member
      rcases List.mem_cons.mp member with rfl | later
      · exact .inr List.mem_cons_self
      · exact (ih later).imp_right (List.mem_cons_of_mem _)

theorem SymmetryMap.mem_of_list {aliases : List (Component × Component)}
    (member : entry ∈ SymmetryMap.ofList aliases) : entry ∈ aliases := by
  have added (map : SymmetryMap)
      (member : entry ∈ aliases.foldl (fun map entry => SymmetryMap.insert entry.1 entry.2 map) map) :
      entry ∈ map ∨ entry ∈ aliases := by
    clear * - member
    induction aliases generalizing map with
    | nil => exact .inl member
    | cons first rest ih =>
        rcases ih _ member with inserted | later
        · rcases SymmetryMap.mem_insert inserted with rfl | old
          · exact .inr List.mem_cons_self
          · exact .inl old
        · exact .inr (List.mem_cons_of_mem _ later)
  exact (added [] member).resolve_left List.not_mem_nil

namespace FunctionSpace

variable {space : FunctionSpace}

/-- What aliased components stand for stands for itself. -/
def Canonical (space : FunctionSpace) : Prop :=
  ∀ entry ∈ space.symmetry.getD [], space.canonicalComponent entry.2 = entry.2

theorem canonical_once (canonical : space.Canonical) (component : Component) :
    space.canonicalComponent (space.canonicalComponent component) = space.canonicalComponent component := by
  cases found : (space.symmetry.getD []).lookup component with
  | none =>
      have itself : space.canonicalComponent component = component := by
        rw [canonicalComponent, found]
        rfl
      rw [itself, itself]
  | some target =>
      have stands : space.canonicalComponent component = target := by
        rw [canonicalComponent, found]
        rfl
      obtain ⟨before, after, split, _⟩ := List.lookup_eq_some_iff.mp found
      rw [stands]
      exact canonical (component, target) (split ▸ by simp)

theorem symmetric_aliases {dim gdim : Nat} (member : entry ∈ (symmetric dim gdim).symmetry.getD []) :
    ∃ row column, column < row ∧ row < dim ∧ entry = ([row, column], [column, row]) := by
  have member := SymmetryMap.mem_of_list member
  simp only [List.mem_flatMap, List.mem_map, List.mem_range] at member
  obtain ⟨row, inside, column, below, rfl⟩ := member
  exact ⟨row, column, below, inside, rfl⟩

/-- Entries of symmetric matrices stand for entries above the diagonal, which are not aliased. -/
theorem symmetric_canonical (dim gdim : Nat) : (symmetric dim gdim).Canonical := by
  intro entry member
  obtain ⟨row, column, below, _, rfl⟩ := symmetric_aliases member
  have free : ((symmetric dim gdim).symmetry.getD []).lookup [column, row] = none := by
    refine List.lookup_eq_none_iff.mpr fun entry member => ?_
    obtain ⟨row', column', below', _, rfl⟩ := symmetric_aliases member
    simp only [bne_iff_ne, ne_eq, List.cons.injEq, and_true]
    omega
  rw [canonicalComponent, free]
  rfl

theorem symmetric_ranged (dim gdim : Nat) : (symmetric dim gdim).Ranged := by
  intro entry member
  obtain ⟨row, column, below, inside, rfl⟩ := symmetric_aliases member
  exact .cons (below.trans inside) (.cons inside .nil)

end FunctionSpace

end Aliases

namespace Expr

variable {e o r v x : Expr} {scope : Scope} {positions : List (Index × Nat)} {component : Component}
  {i : Index}

/-- The functions in it are of spaces where what aliased components stand for stands for itself. -/
def Canonical (e : Expr) : Prop := ∀ x space, Within x e → x.space? = some space → space.Canonical

theorem Canonical.operand (canonical : Canonical e) (member : o ∈ e.operands) : Canonical o :=
  fun x space inside => canonical x space (.step member inside)

theorem expand_in_canonical (typed : WellTyped e) (canonical : Canonical e)
    (run : e.expandIn scope = .ok r) : Canonical r := by
  have holds : OnTerminals (fun data => ∀ space, (terminal data).space? = some space → space.Canonical) e :=
    fun data inside space => canonical (.terminal data) space inside
  have made := expands_made OnTerminals.operand (expand_in_expands typed run) holds
  have kept := made_on_terminals
    (fun data none space known => by cases data <;> cases none <;> cases known) made
  intro x space inside known
  cases x with
  | terminal data => exact kept data inside space known
  | node | labelled => cases known

theorem aliased_once (canonical : Canonical e) (component : Component) :
    e.aliased (e.aliased component) = e.aliased component := by
  unfold aliased
  cases known : e.space? with
  | none => rfl
  | some space => exact FunctionSpace.canonical_once (canonical e space (.refl e) known) component

section Unsought

variable {op : Operator} {operands : List Expr} {shape : Shape} {free : FreeIndices}

theorem sought_in_operand (seeks : Seeks i (.node op operands shape free)) :
    ∃ o ∈ operands, Seeks i o := by
  cases seeks with
  | binder _ _ seeks => exact ⟨_, List.mem_cons_self, seeks⟩
  | operand _ member seeks => exact ⟨_, member, seeks⟩

theorem sought_by_node (elementary : op.isElementary = true) (member : o ∈ operands)
    (seeks : Seeks i o) : Seeks i (.node op operands shape free) := by
  refine .operand ?_ member seeks
  cases op <;> first | (cases elementary; done) | simp

theorem items_unsought (component : Component) : ¬ Seeks i (multiIndex (component.map .fixed)) := by
  intro seeks
  cases seeks with
  | items member => simp at member

theorem Leaf.unsought (leaf : Leaf e) : ¬ Seeks i e := by
  intro seeks
  cases leaf with
  | terminal nonzero notItems =>
      cases seeks with
      | zeros => exact nonzero rfl
      | items => exact notItems rfl
  | grad =>
      -- Expansion does not look into gradients.
      cases seeks with
      | operand other => simp at other

theorem entry_unsought (leaf : Leaf e) :
    ¬ Seeks i (.node .indexed [e, multiIndex (component.map .fixed)] [] free) := by
  intro seeks
  obtain ⟨o, member, sought⟩ := sought_in_operand seeks
  rcases List.mem_pair.mp member with rfl | rfl
  · exact leaf.unsought sought
  · exact items_unsought component sought

/-- Nothing is looked up in a form without free indices: no operator of forms binds an index. -/
theorem expanded_closed (expanded : Expanded e) (closed : e.free = ∅) : ¬ Seeks i e := by
  induction expanded with
  | @zeros free =>
      have none : free = ∅ := closed
      intro seeks
      cases seeks with
      | zeros known => simp [none] at known
  | items => exact items_unsought _
  | leaf leaf => exact leaf.unsought
  | entry leaf => exact entry_unsought leaf
  | @node op operands shape free elementary types _ ih =>
      have other : op ≠ .indexSum ∧ op ≠ .componentTensor := by
        cases op <;> first | (cases elementary; done) | exact ⟨nofun, nofun⟩
      intro seeks
      obtain ⟨o, member, sought⟩ := sought_in_operand seeks
      refine ih o member (FreeIndices.ext_dim fun i d => ⟨fun known => ?_, nofun⟩) sought
      have known := types_free types other.1 other.2 o member i d known
      rwa [show free = ∅ from closed] at known

end Unsought

theorem leaf_expands (leaf : Leaf e) (fits : scope.component.length = e.shape.length) :
    e.expandIn scope = e.selectAt (e.aliased scope.component) := by
  cases leaf with
  | @terminal data nonzero notItems =>
      have fits : scope.fits (.terminal data) = .ok () := if_pos fits
      rw [expandIn]
      unfold Terminal.expandIn
      split
      · exact absurd rfl nonzero
      · exact absurd rfl notItems
      · dsimp only
        rw [fits]
        rfl
  | grad kept => exact expand_in_gradient kept fits

/-- A subscripted leaf is read at the component where it was read before. -/
theorem entry_stays {free : FreeIndices} (leaf : Leaf e) (canonical : Canonical e)
    (run : e.component (e.aliased component) =
      .ok (.node .indexed [e, multiIndex ((e.aliased component).map .fixed)] [] free)) :
    (Expr.node .indexed [e, multiIndex ((e.aliased component).map .fixed)] [] free).expandIn
        ⟨[], positions⟩ =
      .ok (.node .indexed [e, multiIndex ((e.aliased component).map .fixed)] [] free) := by
  obtain ⟨⟨some, subscribes, _⟩, _⟩ := subscript_stays run
  have length : (e.aliased component).length = e.shape.length := by simpa using subscribes.length
  have tensor : e.isScalar ≠ true := fun scalar => some (by
    rw [is_scalar_iff.mp scalar] at length
    simpa using length)
  rw [expandIn, expand_in_fixed]
  simp only [except_ok_bind, Expr.multiIndex, multiIndex?, Option.getD_some, fixed_items]
  rw [leaf_expands leaf length]
  simp only [Scope.select, aliased_once canonical, selectAt, if_neg tensor, run]
  rfl

/-- A form in which nothing is looked up expands to itself. -/
theorem expanded_stays (expanded : Expanded e) (canonical : Canonical e)
    (unsought : ∀ i, ¬ Seeks i e) : e.expandIn ⟨[], positions⟩ = .ok e := by
  induction expanded with
  | @zeros free =>
      have none : free = ∅ := FreeIndices.ext_dim fun i d => by
        refine ⟨fun known => ?_, nofun⟩
        exact absurd (.zeros (FreeIndices.contains_iff.mpr ⟨d, known⟩)) (unsought i)
      subst none
      exact (zeros_expand rfl).mpr ⟨rfl, rfl⟩
  | items => exact expand_in_fixed _ _
  | leaf leaf scalar =>
      have fits : ([] : Component).length = _ := (congrArg List.length scalar).symm
      rw [leaf_expands leaf fits, selectAt, if_pos (is_scalar_iff.mpr scalar)]
  | entry leaf run => exact entry_stays leaf (canonical.operand List.mem_cons_self) run
  | @node op operands shape free elementary types below ih =>
      have stays : ∀ o ∈ operands, o.expandIn ⟨[], positions⟩ = .ok o := fun o member =>
        ih o member (canonical.operand member) fun i seeks =>
          unsought i (sought_by_node elementary member seeks)
      have all : expandAll operands ⟨[], positions⟩ = .ok operands :=
        expand_all_runs (List.forall₂_same.mpr stays)
      -- The operands stay, so that the node is kept as well and not made anew.
      have kept : (Expr.node op operands shape free).reassemble op operands =
          .ok (.node op operands shape free) := if_pos (has_own_operands _)
      by_cases choice : op = .conditional
      · subst choice
        cases types with
        | @conditional test a b =>
            rw [expandIn, require_scalar_runs (below test (by simp)).scalar]
            simp only [Scope.select, stays test (by simp), stays a (by simp), stays b (by simp),
              except_ok_bind]
            exact kept
      by_cases quotient : op = .division
      · subst quotient
        cases types with
        | @division a b =>
            rw [expandIn]
            simp only [List.isEmpty_nil, Bool.not_true, Bool.false_eq_true, if_false,
              stays a (by simp), stays b (by simp), except_ok_bind]
            exact kept
      refine expand_operands_runs ?_ ?_ ?_ all kept
      all_goals cases op <;> first | (cases elementary; done) | rfl | simp_all

/-- A form that expands outside all binders has nothing in it to be looked up. -/
theorem expanded_assigned (expanded : Expanded e) (expands : Expands e ⟨[], []⟩ v) : ¬ Seeks i e := by
  induction expanded generalizing v with
  | zeros =>
      intro seeks
      cases seeks with
      | zeros known =>
          cases expands with
          | zero _ assigned =>
              obtain ⟨_, found⟩ := unassigned_none assigned (FreeIndices.mem_indices_iff.mpr known)
              cases found
          | terminal nonzero => exact nonzero rfl
  | items => exact items_unsought _
  | leaf leaf => exact leaf.unsought
  | entry leaf => exact entry_unsought leaf
  | node elementary _ _ ih =>
      intro seeks
      obtain ⟨o, member, sought⟩ := sought_in_operand seeks
      cases expands with
      | conditional test first second =>
          simp only [List.mem_cons, List.not_mem_nil, or_false] at member
          rcases member with rfl | rfl | rfl
          · exact ih _ (by simp) test sought
          · exact ih _ (by simp) first sought
          · exact ih _ (by simp) second sought
      | pointwise _ length each =>
          obtain ⟨w, pair⟩ := partner_right length member
          exact ih o member (each o w pair) sought
      | indexSum | indexed | componentTensor | listTensor | grad => cases elementary

/-- What is looked up in a component is looked up in the tensor. -/
theorem component_sought (run : e.component component = .ok x) (seeks : Seeks i x) : Seeks i e := by
  have made := subscript_cases run
  have fixed : ∀ i, .free i ∉ component.map IndexItem.fixed := by simp
  revert fixed
  generalize component.map IndexItem.fixed = items at made
  clear run
  induction made with
  | whole => exact fun _ => seeks
  | zero subscribes =>
      intro fixed
      obtain rfl := subscribes.fixed fixed
      cases seeks with
      | zeros known => exact .zeros known
  | identity => exact absurd seeks (expanded_closed (expanded_int _) (settled_int _).bare.free)
  | entry found _ ih =>
      intro fixed
      exact .operand (by simp) (List.mem_of_getElem? found)
        (ih seeks fun i member => fixed i (List.mem_cons_of_mem _ member))
  | node =>
      intro fixed
      obtain ⟨o, member, sought⟩ := sought_in_operand seeks
      rcases List.mem_pair.mp member with rfl | rfl
      · exact sought
      · cases sought with
        | items member => exact absurd member (fixed _)

/-- What is looked up in a table is looked up in one of its entries. -/
theorem tabulate_sought {entry : Component → Except TransformError Expr} {shape : Shape}
    {position : Component} (run : tabulate entry shape position = .ok r) (seeks : Seeks i r) :
    ∃ component v, Component.Lies component shape ∧ entry (position ++ component) = .ok v ∧ Seeks i v := by
  induction shape generalizing position r with
  | nil =>
      rw [tabulate] at run
      exact ⟨[], r, .nil, by rwa [List.append_nil], seeks⟩
  | cons dim shape ih =>
      simp only [tabulate, except_bind_ok, except_map_error_ok] at run
      obtain ⟨entries, runs, list⟩ := run
      obtain ⟨inner, free, some, same, made⟩ := list_tensor_cases list
      obtain ⟨below, inside, sought⟩ : ∃ below ∈ entries, Seeks i below := by
        obtain ⟨zero, rfl⟩ | rfl := made
        · obtain ⟨first, member⟩ := List.exists_mem_of_ne_nil _ some
          obtain ⟨axes, set, isZero⟩ := is_zero_iff.mp (zero _ member)
          obtain ⟨_, set⟩ := same _ member
          refine ⟨first, member, ?_⟩
          subst isZero
          obtain rfl : _ = free := set
          cases seeks with
          | zeros known => exact .zeros known
        · exact sought_in_operand seeks
      obtain ⟨next, member, run⟩ := pairs_member (mapM_ok runs) inside
      obtain ⟨component, v, lies, found, sought⟩ := ih run sought
      exact ⟨next :: component, v, .cons (List.mem_range.mp member) lies, by simpa using found, sought⟩

/-- An expansion in which nothing is looked up expands to itself: each component does. -/
theorem expansion_stays (formed : Formed e) (canonical : Canonical e) (run : e.expand = .ok r)
    (unsought : ∀ i, ¬ Seeks i r) : r.expand = .ok r := by
  obtain ⟨shape, entries⟩ := expand_entries formed.well_typed run
  unfold expand
  rw [shape]
  refine tabulate_imp (fun component v lies found => ?_) run
  obtain ⟨v', found', expanded, selected⟩ := entries component lies
  obtain rfl : v = v' := Except.ok.inj (found.symm.trans found')
  refine (component_expands selected).mpr (expanded_stays expanded ?_ fun i sought => ?_)
  · exact expand_in_canonical formed.well_typed canonical found
  · exact unsought i (component_sought selected sought)

/-- Nothing is looked up in an expansion that expands: not in any component. -/
theorem expansion_assigned (formed : Formed e) (run : e.expand = .ok r) (again : r.expand = .ok v) :
    ¬ Seeks i r := by
  intro seeks
  obtain ⟨shape, entries⟩ := expand_entries formed.well_typed run
  obtain ⟨component, entry, lies, found, sought⟩ := tabulate_sought run seeks
  obtain ⟨entry', found', expanded, selected⟩ := entries component lies
  obtain rfl : entry = entry' := Except.ok.inj (found.symm.trans found')
  have typed : WellTyped r := (expand_formed formed run).well_typed
  have typed' : WellTyped entry := (expand_in_formed formed found).well_typed
  obtain ⟨w, ran, _⟩ := (expand_entries typed again).2 component (shape ▸ lies)
  have expands : Expands entry ⟨[], []⟩ w := expand_in_expands typed' ((component_expands selected).mp ran)
  exact expanded_assigned expanded expands sought

/-- An expansion expands to itself or, if an index is looked up in it, not at all. -/
theorem expand_again (formed : Formed e) (canonical : Canonical e) (run : e.expand = .ok r) :
    r.expand = .ok v ↔ v = r ∧ ∀ i, ¬ Seeks i r := by
  constructor
  · intro again
    have unsought (i : Index) : ¬ Seeks i r := expansion_assigned formed run again
    have stays := expansion_stays formed canonical run unsought
    exact ⟨Except.ok.inj (again.symm.trans stays), unsought⟩
  · rintro ⟨rfl, unsought⟩
    exact expansion_stays formed canonical run unsought

/-- Nothing is looked up in an expansion without free indices: the components have none either. -/
theorem expansion_closed (formed : Formed e) (run : e.expand = .ok r) (closed : r.free = ∅) :
    ¬ Seeks i r := by
  intro seeks
  obtain ⟨_, entries⟩ := expand_entries formed.well_typed run
  obtain ⟨component, v, lies, found, sought⟩ := tabulate_sought run seeks
  obtain ⟨v', found', expanded, selected⟩ := entries component lies
  obtain rfl : v = v' := Except.ok.inj (found.symm.trans found')
  have subscribes := (subscript_type (expand_formed formed run).well_typed selected).2
  exact expanded_closed expanded (subscribes_fixed subscribes closed (by simp)) sought

/-- Over bare gradients an expansion has no free indices. -/
theorem expand_closed (typed : WellTyped e) (grads : GradsBare e) (run : e.expand = .ok r) :
    r.free = ∅ := by
  refine (tabulate_spelled (fun component v found => ?_) run).1.stored.2
  exact expands_settled (expand_in_expands typed found) typed grads

/-- The walk over its nodes meets a list tensor. -/
def MeetsList (e : Expr) : Prop := ∃ x ∈ e.distinctNodes, x.kind = .listTensor

theorem purge_meets (meets : MeetsList e) : e.purgeListTensors = e.expand :=
  if_pos (by simpa [MeetsList] using meets)

theorem purge_keeps (meets : ¬ MeetsList e) : e.purgeListTensors = .ok e :=
  if_neg (by simpa [MeetsList] using meets)

/-- The walk starts at the root. -/
theorem list_meets (list : e.kind = .listTensor) : MeetsList e := by
  refine ⟨e, ?_, list⟩
  rw [distinctNodes, Distinct.start, Distinct.to_list_cons]
  exact List.mem_cons_self

/-- List tensors are left by the expansion of an expression only. -/
theorem purge_expands (run : e.purgeListTensors = .ok r) (meets : MeetsList r) : e.expand = .ok r := by
  by_cases before : MeetsList e
  · rwa [purge_meets before] at run
  · rw [purge_keeps before] at run
    cases run
    exact absurd meets before

theorem purge_again (formed : Formed e) (canonical : Canonical e) (run : e.purgeListTensors = .ok r) :
    r.purgeListTensors = .ok v ↔ v = r ∧ (MeetsList r → ∀ i, ¬ Seeks i r) := by
  by_cases meets : MeetsList r
  · rw [purge_meets meets, expand_again formed canonical (purge_expands run meets)]
    simp [meets]
  · rw [purge_keeps meets]
    simp [meets, eq_comm]

/-- Expanding again gives the same, or is refused if an index is looked up in the expansion; so does
purging again, where there still are list tensors. It is the same if there are no free indices left, and
with bare gradients in the expression there are none. -/
theorem expand_twice (made : Constructible e) (canonical : Canonical e) :
    (∀ r v, e.expand = .ok r →
      (r.expand = .ok v ↔ v = r ∧ ∀ i, ¬ Seeks i r) ∧
        (GradsBare e ∨ r.free = ∅ → r.expand = .ok r)) ∧
    (∀ p v, e.purgeListTensors = .ok p →
      (p.purgeListTensors = .ok v ↔ v = p ∧ (MeetsList p → ∀ i, ¬ Seeks i p)) ∧
        (GradsBare e ∨ p.free = ∅ → p.purgeListTensors = .ok p)) ∧
    ∀ dim gdim, (FunctionSpace.symmetric dim gdim).Ranged ∧
      (FunctionSpace.symmetric dim gdim).Canonical := by
  have formed : Formed e := made.formed
  have unsought (r : Expr) (run : e.expand = .ok r) (closed : GradsBare e ∨ r.free = ∅) (i : Index) :
      ¬ Seeks i r := by
    rcases closed with grads | closed
    · exact expansion_closed formed run (expand_closed formed.well_typed grads run)
    · exact expansion_closed formed run closed
  refine ⟨fun r v run => ⟨expand_again formed canonical run, fun closed => ?_⟩,
    fun p v run => ⟨purge_again formed canonical run, fun closed => ?_⟩, fun dim gdim => ?_⟩
  · exact (expand_again formed canonical run).mpr ⟨rfl, unsought r run closed⟩
  · refine (purge_again formed canonical run).mpr ⟨rfl, fun meets => ?_⟩
    exact unsought p (purge_expands run meets) closed
  · exact ⟨FunctionSpace.symmetric_ranged dim gdim, FunctionSpace.symmetric_canonical dim gdim⟩

section Sample

/-- A component of a second gradient in which an index is free, its product with a zero that has a name,
and the list of the two. -/
def sampleCurvature : Expr :=
  .node .indexed [sampleHessian, multiIndex [.fixed 0, .fixed 0]] [] (.single sampleIndex 2)

def sampleVanished : Expr :=
  .node .product [sampleCurvature, .labelled ⟨0⟩ zero] [] (.single sampleIndex 2)

def sampleCurvatures (first : Expr) : Expr :=
  .node .listTensor [first, sampleCurvature] [2] (.single sampleIndex 2)

theorem sample_curvature_constructible : Constructible sampleCurvature := by
  have at_made : Operator.assemble .indexed [sampleField, multiIndex [.free sampleIndex]] =
      .ok sampleAt := by cbv
  have slope_made : Operator.assemble .grad [sampleAt] =
      .ok (.node .grad [sampleAt] [2] (.single sampleIndex 2)) := by cbv
  have hessian_made : Operator.assemble .grad [.node .grad [sampleAt] [2] (.single sampleIndex 2)] =
      .ok sampleHessian := by cbv
  have curvature_made : Operator.assemble .indexed [sampleHessian, multiIndex [.fixed 0, .fixed 0]] =
      .ok sampleCurvature := by cbv
  have component : Constructible sampleAt :=
    .assemble _ (by decide) (operands_pair (.terminal _) (.terminal _)) at_made
  have slope := Constructible.assemble _ (by decide) (List.forall_mem_singleton.mpr component) slope_made
  have hessian := Constructible.assemble _ (by decide) (List.forall_mem_singleton.mpr slope) hessian_made
  exact .assemble _ (by decide) (operands_pair hessian (.terminal _)) curvature_made

theorem sample_vanished_constructible : Constructible sampleVanished := by
  have made : Operator.assemble .product [sampleCurvature, .labelled ⟨0⟩ zero] = .ok sampleVanished := by cbv
  have vanishes : Constructible zero := .terminal _
  have named : Constructible (.labelled ⟨0⟩ zero) := .labelled vanishes rfl
  exact .assemble _ (by decide) (operands_pair sample_curvature_constructible named) made

theorem sample_curvatures_constructible : Constructible (sampleCurvatures sampleVanished) := by
  have made : Operator.assemble .listTensor [sampleVanished, sampleCurvature] =
      .ok (sampleCurvatures sampleVanished) := by cbv
  exact .assemble _ (by decide)
    (operands_pair sample_vanished_constructible sample_curvature_constructible) made

theorem sample_curvatures_canonical : Canonical (sampleCurvatures sampleVanished) := by
  have plain : ∀ x ∈ parts (sampleCurvatures sampleVanished), ∀ space ∈ x.space?,
      space.symmetry = none := by decide
  intro x space inside known entry member
  rw [plain x (mem_parts.mpr inside) space known] at member
  cases member

theorem symmetric_field_canonical : Canonical symmetricField := by
  intro x space inside known
  cases inside with
  | refl =>
      cases known
      exact FunctionSpace.symmetric_canonical 2 2
  | step member => cases member

/-- A symmetric matrix is expanded once. The product vanishes to a zero that has the free index of the
gradient, and this is refused, alone as in the list. -/
theorem expand_twice_samples :
    (∃ r, symmetricField.expand = .ok r ∧ r.expand = .ok r) ∧
    (sampleVanished.expand = .ok (zeros [] (.single sampleIndex 2)) ∧
      ∀ v, (zeros [] (.single sampleIndex 2)).expand ≠ .ok v) ∧
    ∃ p, (sampleCurvatures sampleVanished).purgeListTensors = .ok p ∧
      ∀ v, p.purgeListTensors ≠ .ok v := by
  have matrix : ∃ r, symmetricField.expand = .ok r := ⟨_, by rfl⟩
  have grads : GradsBare symmetricField := grads_bare_of_operands (by nofun) nofun
  have vanished : sampleVanished.expand = .ok (zeros [] (.single sampleIndex 2)) := by cbv
  have listed : (sampleCurvatures sampleVanished).expand =
      .ok (sampleCurvatures (zeros [] (.single sampleIndex 2))) := by cbv
  have purged : (sampleCurvatures sampleVanished).purgeListTensors = _ :=
    (purge_meets (list_meets rfl)).trans listed
  have sought : Seeks sampleIndex (zeros [] (.single sampleIndex 2)) := .zeros rfl
  have canonical : Canonical sampleVanished := sample_curvatures_canonical.operand List.mem_cons_self
  obtain ⟨r, expanded⟩ := matrix
  obtain ⟨again, _⟩ := expand_twice (.terminal _) symmetric_field_canonical
  obtain ⟨expands, _⟩ := expand_twice sample_vanished_constructible canonical
  obtain ⟨_, purges, _⟩ := expand_twice sample_curvatures_constructible sample_curvatures_canonical
  refine ⟨⟨r, expanded, (again r r expanded).2 (.inl grads)⟩, ⟨vanished, fun v run => ?_⟩, _, purged, fun v run => ?_⟩
  · exact ((expands _ v vanished).1.mp run).2 sampleIndex sought
  · have unsought := ((purges _ v purged).1.mp run).2 (list_meets rfl) sampleIndex
    exact unsought (.operand (by simp) List.mem_cons_self sought)

end Sample

end Expr

end FormCalculus
