import FormCalculus.Proofs.Depending
import FormCalculus.Proofs.ExpandingParts
import FormCalculus.Proofs.Obtainable
import FormCalculus.Proofs.Occurring

/-!
Expansion and the multilinearity analysis. Expanding an accepted expression makes no product
nonlinear: its dependencies only shrink, as components turn out to be zero. But that can leave the
entries of a list tensor or the branches of a conditional with different dependencies, and this,
which the analysis does not admit, is the only way in which an expansion is refused.
-/
set_option autoImplicit false

namespace FormCalculus

open Expr Dependency DependencySet OrderedSet

namespace Expr

/-- Where the analysis compares operands: the entries of a list tensor and the branches of a
conditional have the same dependencies. -/
def Aligned : Expr → Prop
  | .node .listTensor entries _ _ => ∀ a ∈ entries, ∀ b ∈ entries, a.dependencies = b.dependencies
  | .node .conditional [_, a, b] _ _ => a.dependencies = b.dependencies
  | _ => True

def AlignedThroughout (e : Expr) : Prop := ∀ x, Within x e → Aligned x

variable {e o x : Expr}

theorem AlignedThroughout.operand (aligned : AlignedThroughout e) (member : o ∈ e.operands) :
    AlignedThroughout o :=
  fun x inside => aligned x (.step member inside)

end Expr

section

variable {e x : Expr} {D : DependencySet}

theorem Depends.accepted (depends : Depends e D) (consistent : Consistent e) :
    e.dependencies = .ok D := (transform_revisits consistent).trans depends.revisits

theorem Depends.operand (depends : Depends e D) {o : Expr} (member : o ∈ e.operands) :
    ∃ D', Depends o D' := by
  cases depends with
  | argument | terminal => cases member
  | labelled body => exact List.mem_singleton.mp member ▸ ⟨_, body⟩
  | linear _ first others =>
      rcases List.mem_cons.mp member with rfl | member
      · exact ⟨_, first⟩
      · exact ⟨_, others o member⟩
  | nonlinear _ each | listTensor _ each => exact ⟨_, each o member⟩
  | sum left right | product _ left right =>
      obtain rfl | rfl : o = _ ∨ o = _ := by simpa [operands] using member
      · exact ⟨_, left⟩
      · exact ⟨_, right⟩
  | conditional test left right =>
      obtain rfl | rfl | rfl : o = _ ∨ o = _ ∨ o = _ := by simpa [operands] using member
      · exact ⟨_, test⟩
      · exact ⟨_, left⟩
      · exact ⟨_, right⟩

theorem Depends.within (depends : Depends e D) (inside : Within x e) : ∃ D', Depends x D' := by
  induction inside generalizing D with
  | refl => exact ⟨D, depends⟩
  | step member _ ih =>
      obtain ⟨D', below⟩ := depends.operand member
      exact ih below

theorem Depends.same {a b : Expr} {A B : DependencySet} (left : Depends a A) (right : Depends b B)
    (consistent : Consistent a) (consistent' : Consistent b) (alike : a.dependencies = b.dependencies) :
    A = B := by
  rw [left.accepted consistent, right.accepted consistent'] at alike
  exact Except.ok.inj alike

/-- What is accepted is aligned. -/
theorem Depends.aligned (depends : Depends e D) (consistent : Consistent e) : AlignedThroughout e := by
  intro x inside
  obtain ⟨D', depends⟩ := depends.within inside
  have consistent := consistent.within inside
  have same {a b : Expr} {E : DependencySet} (left : Depends a E) (right : Depends b E)
      (member : a ∈ x.operands) (member' : b ∈ x.operands) : a.dependencies = b.dependencies :=
    (left.accepted (consistent.operand member)).trans (right.accepted (consistent.operand member')).symm
  unfold Aligned
  split
  · cases depends with
    | listTensor _ each => exact fun a first b second => same (each a first) (each b second) first second
    | linear kind | nonlinear kind | product kind => exact absurd kind (by decide)
  · cases depends with
    | conditional _ left right => exact same left right (by simp [operands]) (by simp [operands])
    | linear kind | nonlinear kind => exact absurd kind (by decide)
  · trivial

end

/-- If it is aligned, `r` is accepted, with dependencies under `D`. -/
def Shrinks (D : DependencySet) (r : Expr) : Prop :=
  AlignedThroughout r → Consistent r → ∃ D', Depends r D' ∧ D'.Under D

section

variable {a b r : Expr} {A B D E : DependencySet} {op : Operator} {shape : Shape} {free : FreeIndices}

theorem Shrinks.under (shrinks : Shrinks D r) (under : D.Under E) : Shrinks E r := by
  intro aligned consistent
  obtain ⟨D', depends, below⟩ := shrinks aligned consistent
  exact ⟨D', depends, below.trans under⟩

theorem Shrinks.none (shrinks : Shrinks ∅ r) (aligned : AlignedThroughout r) (consistent : Consistent r) :
    Depends r ∅ := by
  obtain ⟨D', depends, under⟩ := shrinks aligned consistent
  exact eq_empty (under.empty rfl) ▸ depends

theorem shrinks_self (depends : Depends r D) : Shrinks D r := fun _ _ => ⟨D, depends, .refl D⟩

theorem shrinks_terminal {data : Terminal} (plain : data.kind ≠ .argument) :
    Shrinks D (.terminal data) := by
  refine fun _ _ => ⟨∅, .terminal ?_, empty_under D⟩
  cases data <;> first | rfl | exact absurd rfl plain

theorem shrinks_zero (shape : Shape) (free : FreeIndices) : Shrinks D (zeros shape free) :=
  shrinks_terminal nofun

theorem shrinks_constant (c : Constant) : Shrinks D c.toExpr := by
  cases c <;> exact shrinks_terminal nofun

theorem shrinks_linear {rest : List Expr} (kind : op.kind ∈ linearKinds ++ linearInFirstKinds)
    (first : Shrinks D a) (others : ∀ o ∈ rest, Shrinks ∅ o) :
    Shrinks D (.node op (a :: rest) shape free) := by
  intro aligned consistent
  obtain ⟨A, depends, under⟩ := first (aligned.operand List.mem_cons_self)
    (consistent.operand List.mem_cons_self)
  refine ⟨A, .linear kind depends fun o member => ?_, under⟩
  have inside := List.mem_cons_of_mem a member
  exact (others o member).none (aligned.operand inside) (consistent.operand inside)

theorem shrinks_nonlinear {operands : List Expr} (kind : op.kind ∈ nonlinearKinds)
    (each : ∀ o ∈ operands, Shrinks ∅ o) : Shrinks ∅ (.node op operands shape free) := by
  refine fun aligned consistent => ⟨∅, .nonlinear kind fun o member => ?_, .refl ∅⟩
  exact (each o member).none (aligned.operand member) (consistent.operand member)

theorem shrinks_sum_node (left : Shrinks D a) (right : Shrinks D b) :
    Shrinks D (.node .sum [a, b] shape free) := by
  intro aligned consistent
  have inside : b ∈ (node .sum [a, b] shape free).operands := List.mem_cons_of_mem a List.mem_cons_self
  obtain ⟨A, first, under⟩ := left (aligned.operand List.mem_cons_self)
    (consistent.operand List.mem_cons_self)
  obtain ⟨B, second, under'⟩ := right (aligned.operand inside) (consistent.operand inside)
  exact ⟨A.union B, .sum first second, union_under under under'⟩

theorem shrinks_product_node (both : A.combine? B = some D) (left : Shrinks A a) (right : Shrinks B b) :
    Shrinks D (.node .product [a, b] shape free) := by
  intro aligned consistent
  have inside : b ∈ (node .product [a, b] shape free).operands :=
    List.mem_cons_of_mem a List.mem_cons_self
  obtain ⟨A', first, under⟩ := left (aligned.operand List.mem_cons_self)
    (consistent.operand List.mem_cons_self)
  obtain ⟨B', second, under'⟩ := right (aligned.operand inside) (consistent.operand inside)
  obtain ⟨D', run, below⟩ := combine_under both under under'
  exact ⟨D', .product (by decide) first second run, below⟩

variable [Folding]

theorem shrinks_sum (run : a.add b = .ok r) (left : Shrinks D a) (right : Shrinks D b) :
    Shrinks D r := by
  obtain ⟨_, _, ⟨_, rfl⟩ | ⟨_, rfl⟩ | folded | rfl⟩ := add_cases run
  · exact right
  · exact left
  · obtain ⟨_, _, c, _, _, _, rfl⟩ := fold_some folded
    exact shrinks_constant c
  · obtain sorted | sorted := sorted_pair_cases a b
    · rw [sorted]
      exact shrinks_sum_node left right
    · rw [sorted]
      exact shrinks_sum_node right left

theorem shrinks_product (run : a.scalarProduct b = .ok r) (both : A.combine? B = some D)
    (left : Shrinks A a) (right : Shrinks B b) : Shrinks D r := by
  obtain ⟨_, _, free, _, ⟨_, rfl⟩ | folded | ⟨_, rfl⟩ | ⟨_, rfl⟩ | rfl⟩ := scalar_product_cases run
  · exact shrinks_zero [] free
  · obtain ⟨_, _, c, _, _, _, rfl⟩ := fold_some folded
    exact shrinks_constant c
  · exact right.under (under_combine_right both)
  · exact left.under (under_combine_left both)
  · obtain sorted | sorted := sorted_pair_cases a b
    · rw [sorted]
      exact shrinks_product_node both left right
    · rw [sorted]
      exact shrinks_product_node (combine_swap both) right left

theorem shrinks_quotient (run : a.scalarQuotient b = .ok r) (left : Shrinks D a)
    (right : Shrinks ∅ b) : Shrinks D r := by
  obtain ⟨_, _, free, _, ⟨_, rfl⟩ | folded | ⟨_, rfl⟩ | rfl⟩ := scalar_quotient_cases run
  · exact shrinks_zero [] free
  · obtain ⟨_, _, c, _, _, _, rfl⟩ := fold_some folded
    exact shrinks_constant c
  · exact left
  · exact shrinks_linear (by decide) left (List.forall_mem_singleton.mpr right)

omit [Folding] in
/-- Operators that no argument passes make nothing of operands without arguments. -/
theorem shrinks_opaque {operands : List Expr} (kind : op.kind ∈ nonlinearKinds)
    (each : ∀ o ∈ operands, Shrinks ∅ o) (assembled : Assembled op operands r) : Shrinks ∅ r := by
  cases assembled with
  | operand member => exact each _ member
  | constant c => exact shrinks_constant c
  | zeros => exact shrinks_zero [] _
  | node inside => exact shrinks_nonlinear kind fun o member => each o (inside o member)

omit [Folding] in
theorem shrinks_conditional {test : Expr} (run : test.conditional a b = .ok r)
    (condition : Shrinks ∅ test) (left : Shrinks D a) (right : Shrinks D b) : Shrinks D r := by
  obtain ⟨free, _, rfl⟩ := conditional_cases run
  intro aligned consistent
  have inside : a ∈ [test, a, b] := List.mem_cons_of_mem _ List.mem_cons_self
  have inside' : b ∈ [test, a, b] := List.mem_cons_of_mem _ (List.mem_cons_of_mem _ List.mem_cons_self)
  have chosen := condition.none (aligned.operand List.mem_cons_self)
    (consistent.operand List.mem_cons_self)
  obtain ⟨A, first, under⟩ := left (aligned.operand inside) (consistent.operand inside)
  obtain ⟨B, second, _⟩ := right (aligned.operand inside') (consistent.operand inside')
  -- Both branches are accepted, and what the analysis finds for them is one set.
  have alike : a.dependencies = b.dependencies := aligned _ (.refl _)
  have same : A = B := first.same second (consistent.operand inside) (consistent.operand inside') alike
  exact ⟨A, .conditional chosen first (same ▸ second), under⟩

omit [Folding] in
theorem shrinks_selected {e : Expr} {component : Component} (plain : e.kind ≠ .listTensor)
    (depends : Depends e D) (run : e.selectAt component = .ok r) : Shrinks D r := by
  obtain rfl | ⟨data, rfl, other⟩ | ⟨items, free, rfl⟩ := selected_cases plain run
  · exact shrinks_self depends
  · exact shrinks_terminal other
  · exact shrinks_linear (by decide) (shrinks_self depends)
      (List.forall_mem_singleton.mpr (shrinks_terminal nofun))

/-- What an operator makes of operands that have shrunk. -/
theorem shrinks_assembled {operands results : List Expr} (pointwise : op.isPointwise = true)
    (types : op.Types operands shape free) (depends : Depends (.node op operands shape free) D)
    (pairs : List.Forall₂ (fun o v => ∀ E, Depends o E → Shrinks E v) operands results)
    (run : op.assemble results = .ok r) : Shrinks D r := by
  cases depends with
  | linear kind first others =>
      cases types with
      | division =>
          obtain ⟨x, y, rfl, left, right⟩ := pairs_two pairs
          exact shrinks_quotient run (left _ first) (right _ (others _ List.mem_cons_self))
      | spatialDerivative =>
          obtain ⟨f, subscripts, rfl, left, _⟩ := pairs_two pairs
          obtain ⟨items, _, run⟩ := (except_bind_ok _ _ _).mp run
          obtain ⟨_, rfl⟩ | ⟨_, gdim, free, _, _, rfl⟩ := spatial_derivative_cases run
          · exact left _ first
          · exact shrinks_linear (by decide) (left _ first)
              (List.forall_mem_singleton.mpr (shrinks_terminal nofun))
      | restricted =>
          obtain ⟨f, rfl, only⟩ := pairs_one pairs
          cases run
          exact shrinks_linear kind (only _ first) nofun
      | _ =>
          first
          | (cases pointwise; done)
          | exact absurd kind (by simp [linearKinds, linearInFirstKinds, Operator.kind])
  | nonlinear kind each =>
      refine shrinks_opaque kind (fun v member => ?_)
        (assemble_elementary (by simp [Operator.isElementary, pointwise]) run)
      obtain ⟨o, inside, shrinks⟩ := pairs_member pairs member
      exact shrinks ∅ (each o inside)
  | sum left right =>
      obtain ⟨x, y, rfl, first, second⟩ := pairs_two pairs
      exact shrinks_sum run ((first _ left).under (under_union_left _ _))
        ((second _ right).under (under_union_right _ _))
  | product kind left right both =>
      obtain ⟨x, y, rfl, first, second⟩ := pairs_two pairs
      cases op with
      | product => exact shrinks_product run both (first _ left) (second _ right)
      | _ => first | (cases pointwise; done) | exact absurd kind (by simp [productKinds, Operator.kind])
  | listTensor | conditional => cases pointwise

/-- Expanding shrinks the dependencies. -/
theorem expands_shrinks {e : Expr} {scope : Scope} (expands : Expands e scope r) (typed : WellTyped e)
    (depends : Depends e D) : Shrinks D r := by
  induction expands generalizing D with
  | zero => exact shrinks_zero [] ∅
  | multiIndex => exact shrinks_terminal (by rintro ⟨⟩)
  | @terminal data _ _ _ _ _ selected => exact shrinks_selected (by cases data <;> rintro ⟨⟩) depends selected
  | labelled _ ih =>
      cases depends with
      | labelled body => exact ih (typed.operand List.mem_cons_self) body
  | @conditional test a b test' a' b' r shape free scope _ _ _ run condition left right =>
      obtain rfl | run := reassemble_cases run
      · exact shrinks_self depends
      cases depends with
      | conditional chosen first second =>
          exact shrinks_conditional run (condition (typed.operand List.mem_cons_self) chosen)
            (left (typed.operand (by simp [operands])) first)
            (right (typed.operand (by simp [operands])) second)
      | linear kind | nonlinear kind => exact absurd kind (by decide)
  | @indexSum summand _ _ _ _ _ _ terms _ length _ total ih =>
      have typed := typed.operand List.mem_cons_self
      have first : Depends summand D := by
        cases depends with
        | linear _ first => exact first
        | nonlinear kind | product kind => exact absurd kind (by decide)
      refine foldlM_keeps (shrinks_zero [] ∅) (fun sum term next member kept step => ?_) total
      obtain ⟨position, pair⟩ := partner_left length member
      exact shrinks_sum step kept (ih position term pair typed first)
  | indexed _ _ ih =>
      cases depends with
      | linear _ first => exact ih (typed.operand List.mem_cons_self) first
      | nonlinear kind | product kind => exact absurd kind (by decide)
  | componentTensor _ _ ih =>
      cases depends with
      | linear _ first => exact ih (typed.operand List.mem_cons_self) first
      | nonlinear kind | product kind => exact absurd kind (by decide)
  | listTensor _ found _ ih =>
      have member := List.mem_of_getElem? found
      cases depends with
      | listTensor _ each => exact ih (typed.operand member) (each _ member)
      | linear kind | nonlinear kind | product kind => exact absurd kind (by decide)
  | grad _ _ selected => exact shrinks_selected (by rintro ⟨⟩) depends selected
  | @pointwise op operands results _ _ _ _ pointwise length _ run ih =>
      obtain rfl | run := reassemble_cases run
      · exact shrinks_self depends
      cases typed with
      | node types below =>
          refine shrinks_assembled pointwise types depends (List.forall₂_iff_zip.mpr ⟨length, ?_⟩) run
          exact fun {o v} pair E => ih o v pair (below o (List.of_mem_zip pair).1)

omit [Folding] in
theorem tabulate_shrinks {entry : Component → Except TransformError Expr} {position : Component}
    (shrinks : ∀ component v, entry component = .ok v → Shrinks D v)
    (run : tabulate entry shape position = .ok r) : Shrinks D r := by
  induction shape generalizing position r with
  | nil => exact shrinks position r run
  | cons dim shape ih =>
      simp only [tabulate, except_bind_ok, except_map_error_ok] at run
      obtain ⟨entries, runs, list⟩ := run
      have pairs := mapM_ok runs
      obtain ⟨shape', free', some, _, ⟨_, rfl⟩ | rfl⟩ := list_tensor_cases list
      · exact shrinks_zero _ _
      · intro aligned consistent
        have each (v : Expr) (member : v ∈ entries) : ∃ E, Depends v E ∧ E.Under D := by
          obtain ⟨place, _, found⟩ := pairs_member pairs member
          exact ih found (aligned.operand member) (consistent.operand member)
        obtain ⟨first, member⟩ := List.exists_mem_of_ne_nil entries some
        obtain ⟨A, depends, under⟩ := each first member
        refine ⟨A, .listTensor some fun v member' => ?_, under⟩
        obtain ⟨B, depends', _⟩ := each v member'
        have alike : first.dependencies = v.dependencies := aligned _ (.refl _) first member v member'
        have same : A = B :=
          depends.same depends' (consistent.operand member) (consistent.operand member') alike
        exact same ▸ depends'

end

section

variable {e r : Expr} {D : DependencySet}

/-- Without conditionals what descends from an accepted expression is aligned: its list tensors are
those of the gradients that expansion leaves as they stand. -/
theorem descends_aligned (consistent : Consistent e) (depends : Depends e D) (descends : Descends e r)
    (plain : ∀ x, Within x e → x.kind ≠ .conditional) : AlignedThroughout r := by
  intro x inside
  rcases descends x inside with within | ⟨_, list, choice⟩
  · exact depends.aligned consistent x within
  · unfold Aligned
    split
    · exact absurd rfl list
    · obtain ⟨y, within, kind⟩ := choice rfl
      exact absurd kind (plain y within)
    · trivial

/-- The expansion of an accepted expression is accepted exactly if it is aligned, and then each of
its terms has arguments of one term of the expression. Without conditionals every single component
is accepted, and so is the expansion of a scalar. -/
theorem expand_accepted_iff (made : Constructible e) (consistent : Consistent e)
    (run : e.dependencies = .ok D) (expanded : e.expand = .ok r) :
    ((∃ D', r.dependencies = .ok D') ↔ AlignedThroughout r) ∧
    (∀ D', r.dependencies = .ok D' → ∀ t ∈ D', ∃ s ∈ D, ∀ a ∈ t, a ∈ s) ∧
    ((∀ x, Within x e → x.kind ≠ .conditional) →
      (∀ component v, e.expandIn ⟨component, []⟩ = .ok v → ∃ D', v.dependencies = .ok D') ∧
      (e.shape = [] → ∃ D', r.dependencies = .ok D')) := by
  have typed := made.well_typed
  have depends := (dependencies_ok typed consistent).mp run
  have kept := expand_consistent typed consistent expanded
  have formed := expand_formed made.formed expanded
  have component (c : Component) (v : Expr) (found : e.expandIn ⟨c, []⟩ = .ok v) : Shrinks D v :=
    expands_shrinks (expand_in_expands typed found) typed depends
  have shrinks : Shrinks D r := tabulate_shrinks component expanded
  have accepted (aligned : AlignedThroughout r) : ∃ D', r.dependencies = .ok D' := by
    obtain ⟨D', below, _⟩ := shrinks aligned kept
    exact ⟨D', below.accepted kept⟩
  have aligned {D' : DependencySet} (found : r.dependencies = .ok D') : AlignedThroughout r :=
    ((dependencies_ok formed.well_typed kept).mp found).aligned kept
  refine ⟨⟨fun ⟨D', found⟩ => aligned found, accepted⟩, fun D' found => ?_, fun plain => ?_⟩
  · obtain ⟨E, below, under⟩ := shrinks (aligned found) kept
    obtain rfl := Except.ok.inj (found.symm.trans (below.accepted kept))
    exact under
  · have each (c : Component) (v : Expr) (found : e.expandIn ⟨c, []⟩ = .ok v) :
        ∃ D', v.dependencies = .ok D' := by
      have descends := expands_descends (expand_in_expands typed found)
      have consistent' := descends_consistent consistent descends
      obtain ⟨D', below, _⟩ := component c v found
        (descends_aligned consistent depends descends plain) consistent'
      exact ⟨D', below.accepted consistent'⟩
    refine ⟨each, fun scalar => each [] r ?_⟩
    rwa [expand, scalar] at expanded

end

section Sample

/-- The first column of the unit matrix, by an index. -/
def unitColumn : Expr :=
  .node .indexed [identity 2, multiIndex [.free ⟨0⟩, .fixed 0]] [] (.single ⟨0⟩ 2)

/-- An argument times that column, as a vector: its second component is zero. -/
def scaledColumn : Expr :=
  .node .componentTensor [.node .product [.terminal (.argument testArgument), unitColumn] []
    (.single ⟨0⟩ 2), multiIndex [.free ⟨0⟩]] [2] ∅

def scaledEntries : Expr := .node .listTensor [.terminal (.argument testArgument), zero] [2] ∅

def vectorArgument : Argument := ⟨0, none, .vector 2 2⟩

def vectorAt (item : IndexItem) (free : FreeIndices) : Expr :=
  .node .indexed [.terminal (.argument vectorArgument), multiIndex [item]] [] free

/-- The sum of the components of an argument. -/
def componentSum : Expr :=
  .node .indexSum [vectorAt (.free ⟨0⟩) (.single ⟨0⟩ 2), multiIndex [.free ⟨0⟩]] [] ∅

def componentsAdded : Expr := .node .sum [vectorAt (.fixed 0) ∅, vectorAt (.fixed 1) ∅] [] ∅

def field : Expr := .terminal (.coefficient ⟨0, .scalar 2⟩)

/-- The condition that the field is below one. -/
def below : Expr := .node (.condition .lt) [field, .terminal (.int 1)] [] ∅

/-- One branch is a component of an argument, the other one times the unit column. -/
def choice : Expr :=
  .node .conditional [below, vectorAt (.free ⟨0⟩) (.single ⟨0⟩ 2),
    .node .product [vectorAt (.fixed 0) ∅, unitColumn] [] (.single ⟨0⟩ 2)] [] (.single ⟨0⟩ 2)

def choiceSum : Expr := .node .indexSum [choice, multiIndex [.free ⟨0⟩]] [] ∅

def zeroBranch : Expr := .node .conditional [below, vectorAt (.fixed 1) ∅, zero] [] ∅

def choicesAdded : Expr :=
  .node .sum [.node .conditional [below, vectorAt (.fixed 0) ∅, vectorAt (.fixed 0) ∅] [] ∅,
    zeroBranch] [] ∅

/-- One label for two bodies, of which the first has no argument and the second one twice. -/
def clash : Expr := .node .sum [.labelled ⟨0⟩ field, .labelled ⟨0⟩ testSquare] [] ∅

theorem unit_column_constructible : Constructible unitColumn := by
  have run : Operator.assemble .indexed [identity 2, multiIndex [.free ⟨0⟩, .fixed 0]] =
      .ok unitColumn := by cbv
  exact .assemble .indexed (by decide) (operands_pair (.terminal _) (.terminal _)) run

theorem scaled_column_constructible : Constructible scaledColumn := by
  have product : Operator.assemble .product [.terminal (.argument testArgument), unitColumn] =
      .ok (.node .product [.terminal (.argument testArgument), unitColumn] [] (.single ⟨0⟩ 2)) := by cbv
  have tensor : Operator.assemble .componentTensor
      [.node .product [.terminal (.argument testArgument), unitColumn] [] (.single ⟨0⟩ 2),
        multiIndex [.free ⟨0⟩]] = .ok scaledColumn := by cbv
  have scaled := Constructible.assemble .product (by decide)
    (operands_pair (.terminal _) unit_column_constructible) product
  exact .assemble .componentTensor (by decide) (operands_pair scaled (.terminal _)) tensor

theorem vector_at_constructible :
    Constructible (vectorAt (.free ⟨0⟩) (.single ⟨0⟩ 2)) ∧ Constructible (vectorAt (.fixed 0) ∅) := by
  have free : Operator.assemble .indexed [.terminal (.argument vectorArgument), multiIndex [.free ⟨0⟩]] =
      .ok (vectorAt (.free ⟨0⟩) (.single ⟨0⟩ 2)) := by cbv
  have fixed : Operator.assemble .indexed [.terminal (.argument vectorArgument), multiIndex [.fixed 0]] =
      .ok (vectorAt (.fixed 0) ∅) := by cbv
  exact ⟨.assemble .indexed (by decide) (operands_pair (.terminal _) (.terminal _)) free,
    .assemble .indexed (by decide) (operands_pair (.terminal _) (.terminal _)) fixed⟩

theorem choice_sum_constructible : Constructible choiceSum := by
  have test : Operator.assemble (.condition .lt) [field, .terminal (.int 1)] = .ok below := by cbv
  have product : Operator.assemble .product [vectorAt (.fixed 0) ∅, unitColumn] =
      .ok (.node .product [vectorAt (.fixed 0) ∅, unitColumn] [] (.single ⟨0⟩ 2)) := by cbv
  have branches : Operator.assemble .conditional [below, vectorAt (.free ⟨0⟩) (.single ⟨0⟩ 2),
      .node .product [vectorAt (.fixed 0) ∅, unitColumn] [] (.single ⟨0⟩ 2)] = .ok choice := by cbv
  have sum : Operator.assemble .indexSum [choice, multiIndex [.free ⟨0⟩]] = .ok choiceSum := by cbv
  obtain ⟨free, fixed⟩ := vector_at_constructible
  have condition := Constructible.assemble (.condition .lt) (by decide)
    (operands_pair (.terminal _) (.terminal _)) test
  have scaled := Constructible.assemble .product (by decide)
    (operands_pair fixed unit_column_constructible) product
  have summand := Constructible.assemble .conditional (by decide)
    (List.forall_mem_cons.mpr ⟨condition, operands_pair free scaled⟩) branches
  exact .assemble .indexSum (by decide) (operands_pair summand (.terminal _)) sum

theorem clash_constructible : Constructible clash := by
  have first : withLabel ⟨0⟩ field = .ok (.labelled ⟨0⟩ field) := rfl
  have second : withLabel ⟨0⟩ testSquare = .ok (.labelled ⟨0⟩ testSquare) := rfl
  have sum : Operator.assemble .sum [.labelled ⟨0⟩ field, .labelled ⟨0⟩ testSquare] = .ok clash := by
    cbv
  exact .assemble .sum (by decide)
    (operands_pair (.labelled (.terminal _) first) (.labelled test_square_constructible second)) sum

/-- The sum of the components stays accepted; the two components of the vector are not aligned. -/
theorem expand_accepted_samples :
    (∃ D', componentsAdded.dependencies = .ok D') ∧ ¬ AlignedThroughout scaledEntries := by
  have made : Constructible componentSum := by
    have run : Operator.assemble .indexSum [vectorAt (.free ⟨0⟩) (.single ⟨0⟩ 2),
        multiIndex [.free ⟨0⟩]] = .ok componentSum := by cbv
    exact .assemble .indexSum (by decide) (operands_pair vector_at_constructible.1 (.terminal _)) run
  have plain : ∀ x ∈ parts componentSum, x.kind ≠ .labelled ∧ x.kind ≠ .conditional := by decide
  have consistent : Consistent componentSum :=
    consistent_of_unlabelled fun x inside => (plain x (mem_parts.mpr inside)).1
  obtain ⟨_, _, kept⟩ := expand_accepted_iff made consistent
    (show componentSum.dependencies = .ok (.ofArgument vectorArgument) by cbv)
    (show componentSum.expand = .ok componentsAdded by cbv)
  obtain ⟨aligned, _⟩ := expand_accepted_iff scaled_column_constructible
    (consistent_of_unlabelled (by decide))
    (show scaledColumn.dependencies = .ok (.ofArgument testArgument) by cbv)
    (show scaledColumn.expand = .ok scaledEntries by cbv)
  have refused : scaledEntries.dependencies = .error (.notMultilinear scaledEntries) := by cbv
  refine ⟨(kept fun x inside => (plain x (mem_parts.mpr inside)).2).2 rfl, fun throughout => ?_⟩
  obtain ⟨D', found⟩ := aligned.mpr throughout
  cases found.symm.trans refused

/-- `e` is accepted, and its expansion is refused. -/
def LosesAcceptance (e : Expr) : Prop :=
  Constructible e ∧ (∃ D, e.dependencies = .ok D) ∧
    ∃ r x, e.expand = .ok r ∧ r.dependencies = .error (.notMultilinear x)

/-- Expansion can lose acceptance: at a list tensor with a component that is zero, at a conditional
with a branch that is, and where one label stands for different bodies. -/
theorem expand_loses_acceptance :
    LosesAcceptance scaledColumn ∧ (choiceSum.shape = [] ∧ LosesAcceptance choiceSum) ∧
      LosesAcceptance clash := by
  refine ⟨⟨scaled_column_constructible, ⟨.ofArgument testArgument, by cbv⟩, ?column⟩,
    ⟨rfl, choice_sum_constructible, ⟨.ofArgument vectorArgument, by cbv⟩, ?choice⟩,
    ⟨clash_constructible, ⟨∅, by cbv⟩, ?clash⟩⟩
  case column => exact ⟨scaledEntries, scaledEntries, by cbv, by cbv⟩
  case choice => exact ⟨choicesAdded, zeroBranch, by cbv, by cbv⟩
  case clash => exact ⟨.node .sum [field, testSquare] [] ∅, testSquare, by cbv, by cbv⟩

end Sample

end FormCalculus
