import FormCalculus.Proofs.ExpandingEchoes
import FormCalculus.Proofs.ExpandingParts
import FormCalculus.Proofs.Occurring
import FormCalculus.Proofs.Totality

/-!
What index expansion refuses. Each part is visited at a component of its shape, with every position
below the dimension of its index there, so no subscript, sum or list along the way can fail; what
can is a division by zero, a derivative of a constant, an operator that ought to be gone by then,
and an index that has no position.
-/
set_option autoImplicit false

namespace FormCalculus

/-- Aliases stand for components that functions of the space have. -/
def FunctionSpace.Ranged (space : FunctionSpace) : Prop :=
  ∀ entry ∈ space.symmetry.getD [], entry.2.Lies space.valueShape

theorem canonical_lies {space : FunctionSpace} {component : Component} (ranged : space.Ranged)
    (lies : component.Lies space.valueShape) :
    (space.canonicalComponent component).Lies space.valueShape := by
  unfold FunctionSpace.canonicalComponent
  cases found : (space.symmetry.getD []).lookup component with
  | none => exact lies
  | some target =>
      obtain ⟨before, after, split, _⟩ := List.lookup_eq_some_iff.mp found
      exact ranged (component, target) (split ▸ by simp)

theorem subscribed_lies {set free : FreeIndices} {component : Component} {shape : Shape}
    (subscribed : Subscribes set (component.map .fixed) shape free) : component.Lies shape := by
  refine List.forall₂_iff_zip.mpr ⟨by simpa using subscribed.length, fun {position dim} pair => ?_⟩
  refine subscribed.within position dim ?_
  rw [List.zip_map_left]
  exact List.mem_map.mpr ⟨(position, dim), pair, rfl⟩

namespace Scope

variable {scope : Scope} {items : List IndexItem} {shape : Shape}

/-- Subscripts that stand at positions on the axes select a component. -/
theorem resolved_lies (length : items.length = shape.length)
    (stands : ∀ item dim, (item, dim) ∈ items.zip shape → ∃ p, scope.resolve item = .fixed p ∧ p < dim) :
    ∃ component : Component, items.map scope.resolve = component.map .fixed ∧ component.Lies shape := by
  induction items generalizing shape with
  | nil =>
      obtain rfl := List.eq_nil_of_length_eq_zero length.symm
      exact ⟨[], rfl, .nil⟩
  | cons item items ih =>
      cases shape with
      | nil => cases length
      | cons dim shape =>
          obtain ⟨p, here, below⟩ := stands item dim (by simp)
          obtain ⟨component, others, lies⟩ := ih (Nat.succ.inj length)
            fun item dim member => stands item dim (List.mem_cons_of_mem _ member)
          exact ⟨p :: component, by rw [List.map_cons, List.map_cons, here, others], .cons below lies⟩

/-- Indices bound to a component stand on the axes they are bound along. -/
theorem bind_all_stands {indices : List Index} {component : Component} (distinct : indices.Nodup)
    (length : indices.length = shape.length) (lies : component.Lies shape) {i : Index} {d : Nat}
    (member : (i, d) ∈ indices.zip shape) :
    ∃ p, (scope.bindAll (indices.zip component)).position? i = some p ∧ p < d := by
  induction lies generalizing indices scope with
  | nil => simp at member
  | @cons p dim rest shape below others ih =>
      cases indices with
      | nil => cases length
      | cons j indices =>
          obtain ⟨absent, distinct⟩ := List.nodup_cons.mp distinct
          rcases List.mem_cons.mp member with same | member
          · cases same
            have kept : ((scope.bind i p).bindAll (indices.zip rest)).position? i = some p := by
              refine (Expr.bind_all_position fun binding inside same => absent ?_).trans ?_
              · exact same ▸ (List.of_mem_zip inside).1
              · simp [Scope.bind, Scope.position?]
            exact ⟨p, kept, below⟩
          · exact ih distinct (Nat.succ.inj length) member

end Scope

namespace Expr

theorem select_total [Folding] {e : Expr} {component : Component} (plain : e.kind ≠ .listTensor)
    (lies : component.Lies e.shape) : ∃ r, e.selectAt component = .ok r := by
  unfold selectAt
  split
  · exact ⟨e, rfl⟩
  · obtain ⟨r, run⟩ := subscript_total plain (lies_subscribes _ lies)
    exact ⟨r, (except_map_error_ok _ _ _).mpr run⟩

/-! What an expression has to be like. -/

/-- Multi-indices stand nowhere but where a node is subscripted, summed, bound or derived along one. -/
inductive Tidy : Expr → Prop
  | terminal {data : Terminal} : data.kind ≠ .multiIndex → Tidy (.terminal data)
  | labelled {label : Label} {body : Expr} : Tidy body → Tidy (.labelled label body)
  | along {op : Operator} {e : Expr} {items : List IndexItem} {shape : Shape} {free : FreeIndices} :
      op ∈ [.indexed, .indexSum, .componentTensor, .spatialDerivative] → Tidy e →
      Tidy (.node op [e, multiIndex items] shape free)
  | node {op : Operator} {operands : List Expr} {shape : Shape} {free : FreeIndices} :
      (∀ o ∈ operands, Tidy o) → Tidy (.node op operands shape free)

/-- Gradients are of terminals or of gradients. -/
def GradsDirect (e : Expr) : Prop :=
  ∀ g, Within g e → g.kind = .grad → ∀ f ∈ g.operands, f.isTerminal = true ∨ f.kind = .grad

/-- The symmetries of all spaces in it alias components to components. -/
def Ranged (e : Expr) : Prop :=
  ∀ x space, Within x e → x.space? = some space → space.Ranged

theorem Tidy.kind {e : Expr} (tidy : Tidy e) : e.kind ≠ .multiIndex := by
  cases tidy with
  | terminal kind => exact kind
  | labelled => nofun
  | @along op | @node op => cases op <;> nofun

theorem Tidy.operand {e o : Expr} (tidy : Tidy e) (member : o ∈ e.operands)
    (kind : o.kind ≠ .multiIndex) : Tidy o := by
  cases tidy with
  | terminal => cases member
  | labelled body => exact List.mem_singleton.mp member ▸ body
  | along _ first =>
      rcases List.mem_pair.mp member with rfl | rfl
      · exact first
      · exact absurd rfl kind
  | node operands => exact operands o member

theorem items_operands {e : Expr} (kind : e.kind = .multiIndex) : e.operands = [] := by
  cases e with
  | terminal data => rfl
  | node op => cases op <;> cases kind
  | labelled => cases kind

/-- What index expansion works for. All that is derived along coordinates lives on a domain of
dimension `g`. -/
structure Expandable (g : Nat) (e : Expr) : Prop where
  formed : Formed e
  domain : ∀ x, Within x e → x.kind = .spatialDerivative → OnDomain g x
  ranged : Ranged e
  direct : GradsDirect e
  tidy : Tidy e

namespace Expandable

variable {g : Nat} {e o : Expr}

theorem typed (expandable : Expandable g e) : WellTyped e := expandable.formed.well_typed

theorem operand (expandable : Expandable g e) (member : o ∈ e.operands)
    (kind : o.kind ≠ .multiIndex) : Expandable g o where
  formed := expandable.formed.operand member
  domain := fun x inside => expandable.domain x (.step member inside)
  ranged := fun x space inside => expandable.ranged x space (.step member inside)
  direct := fun x inside => expandable.direct x (.step member inside)
  tidy := expandable.tidy.operand member kind

/-- The first operand of a node along a multi-index. -/
theorem along {op : Operator} {items : List IndexItem} {shape : Shape} {free : FreeIndices}
    (expandable : Expandable g (.node op [e, multiIndex items] shape free)) : Expandable g e := by
  refine expandable.operand List.mem_cons_self ?_
  cases expandable.tidy with
  | along _ first => exact first.kind
  | node operands => exact (operands e List.mem_cons_self).kind

/-- The operands of any other node. -/
theorem pointwise {op : Operator} {operands : List Expr} {shape : Shape} {free : FreeIndices}
    (expandable : Expandable g (.node op operands shape free))
    (other : op ∉ [.indexed, .indexSum, .componentTensor, .spatialDerivative]) :
    ∀ o ∈ operands, Expandable g o := by
  intro o member
  refine expandable.operand member ?_
  cases expandable.tidy with
  | along among => exact absurd among other
  | node operands => exact (operands o member).kind

theorem within {x : Expr} (expandable : Expandable g e) (inside : Within x e)
    (kind : x.kind ≠ .multiIndex) : Expandable g x := by
  induction inside with
  | refl => exact expandable
  | @step o e member below ih =>
      refine ih (expandable.operand member fun items => ?_)
      cases below with
      | refl => exact kind items
      | step inner _ => exact List.not_mem_nil (items_operands items ▸ inner)

/-- Below a gradient there are only gradients and a terminal, without free indices. -/
theorem gradient_bare (expandable : Expandable g e) (kind : e.kind = .grad) : Bare e := by
  induction e with
  | terminal data => cases data <;> cases kind
  | labelled label body => cases kind
  | node op operands shape free ih =>
      obtain rfl : op = .grad := by cases op <;> first | rfl | cases kind
      obtain _ | ⟨types, _⟩ := expandable.typed
      cases types with
      | @grad f gdim nonzero =>
          have inner := expandable.pointwise (by simp) f (by simp)
          have below : Bare f := by
            rcases expandable.direct _ (.refl _) rfl f (by simp [operands]) with leaf | gradient
            · cases f with
              | terminal data =>
                  refine bare_terminal ?_
                  cases data <;> first | rfl | cases nonzero
              | node op => cases op <;> cases leaf
              | labelled => cases leaf
            · exact ih f (by simp) inner gradient
          exact bare_of_operands below.free rfl (List.forall_mem_singleton.mpr below)

theorem bare (expandable : Expandable g e) : GradsBare e := fun x inside kind =>
  (expandable.within inside (by rw [kind]; nofun)).gradient_bare kind

end Expandable

/-! Where an expression is visited. -/

/-- A component of the expression is selected, and what is free in it stands below its dimension
where it has a position. -/
structure Fits (e : Expr) (scope : Scope) : Prop where
  component : scope.component.Lies e.shape
  positions : ∀ i d p, e.free.dim? i = some d → scope.position? i = some p → p < d

/-- From `e` to an operand: an index that is free in the operand is free in `e` and stands where it
did, or has been given a position below its dimension. -/
def Opens (e : Expr) (scope : Scope) (o : Expr) (inner : Scope) : Prop :=
  ∀ i d, o.free.dim? i = some d →
    (e.free.dim? i = some d ∧ inner.position? i = scope.position? i) ∨
      ∃ p, inner.position? i = some p ∧ p < d

section Visiting

variable {e o : Expr} {scope inner : Scope}

theorem Fits.opens (fits : Fits e scope) (opens : Opens e scope o inner)
    (lies : inner.component.Lies o.shape) : Fits o inner := by
  refine ⟨lies, fun i d p known stands => ?_⟩
  rcases opens i d known with ⟨outer, same⟩ | ⟨q, stands', below⟩
  · exact fits.positions i d p outer (same ▸ stands)
  · exact Option.some.inj (stands'.symm.trans stands) ▸ below

theorem opens_same (inside : o.free ⊆ e.free) (same : inner.positions = scope.positions) :
    Opens e scope o inner := by
  intro i d known
  refine .inl ⟨inside i d known, ?_⟩
  rw [Scope.position?, same]
  rfl

theorem opens_sum {index : Index} {dim position : Nat} {shape : Shape} {operands : List Expr}
    (known : o.free.dim? index = some dim) (below : position < dim) :
    Opens (.node .indexSum operands shape (o.free.erase index)) scope o (scope.bind index position) := by
  intro i d free
  by_cases same : i = index
  · subst same
    obtain rfl := Option.some.inj (known.symm.trans free)
    exact .inr ⟨position, by simp [Scope.bind, Scope.position?], below⟩
  · exact .inl ⟨(FreeIndices.erase_dim _ _ _ _).mpr ⟨same, free⟩, bind_position same⟩

theorem opens_bound {indices : List Index} {component : Component} {shape : Shape}
    {free : FreeIndices} {operands : List Expr} (binds : Binds o.free indices shape free)
    (lies : component.Lies shape) :
    Opens (.node .componentTensor operands shape free) scope o
      ((scope.bindAll (indices.zip component)).select []) := by
  intro i d known
  by_cases bound : i ∈ indices
  · obtain ⟨dim, pair⟩ := partner_right binds.length bound
    obtain rfl := Option.some.inj (known.symm.trans (binds.found i dim pair))
    exact .inr (Scope.bind_all_stands binds.distinct binds.length lies pair)
  · refine .inl ⟨(binds.dims i d).mpr ⟨bound, known⟩, bind_all_position fun binding inside same => ?_⟩
    exact bound (same ▸ (List.of_mem_zip inside).1)

end Visiting

/-! What is refused. -/

section Refusing

/-- What a node refuses wherever it is visited. -/
inductive Fault : Expr → TransformError → Prop
  | divisor {a b a' b' : Expr} {shape : Shape} {free : FreeIndices} {scope : Scope} :
      a.expandIn scope = .ok a' → b.expandIn scope = .ok b' → b'.isZero = true →
      Fault (.node .division [a, b] shape free) (.build (.invalidOperand .division (.zeroDivisor a')))
  | dimension {f f' ii : Expr} {shape : Shape} {free : FreeIndices} {scope : Scope} :
      f.expandIn scope = .ok f' → (∀ g, f'.geometricDimension ≠ .ok g) →
      Fault (.node .spatialDerivative [f, ii] shape free) (.build (.noGeometricDimension f'))
  | derivative {operands : List Expr} {shape : Shape} {free : FreeIndices} :
      Fault (.node .variableDerivative operands shape free)
        (.unsupported .derivativesExpanded (.node .variableDerivative operands shape free))
  | compound {op : Operator} {operands : List Expr} {shape : Shape} {free : FreeIndices} :
      op.kind.isCompound = true → Fault (.node op operands shape free)
        (.unsupported .compoundsLowered (.node op operands shape free))

/-- Why an expression is refused in a scope. -/
inductive Refused (e : Expr) (scope : Scope) : TransformError → Prop
  | unassigned {missing : List Index} {node : Expr} {i : Index} : i ∈ missing →
      e.free.contains i = true → scope.position? i = none →
      Refused e scope (.unassignedIndex missing node)
  | fault {x : Expr} {err : TransformError} : Within x e → Fault x err → Refused e scope err

variable {g : Nat} {e o r : Expr} {scope inner : Scope} {err : TransformError}

theorem Refused.operand (refused : Refused o inner err) (opens : Opens e scope o inner)
    (member : o ∈ e.operands) : Refused e scope err := by
  cases refused with
  | unassigned listed known none =>
      obtain ⟨d, known⟩ := FreeIndices.contains_iff.mp known
      rcases opens _ d known with ⟨outer, same⟩ | ⟨p, stands, _⟩
      · exact .unassigned listed (FreeIndices.contains_iff.mpr ⟨d, outer⟩) (same ▸ none)
      · cases none.symm.trans stands
  | fault inside fault => exact .fault (.step member inside) fault

theorem Expandable.settled (expandable : Expandable g e) (run : e.expandIn scope = .ok r) : Settled r :=
  expands_settled (expand_in_expands expandable.typed run) expandable.typed expandable.bare

/-- Where it fits, an expression is refused for cause. -/
def Accountable (e : Expr) : Prop :=
  ∀ scope err, Fits e scope → e.expandIn scope = .error err → Refused e scope err

theorem assigns_error {indices : List Index} {node : Expr}
    (run : scope.assigns indices node = .error err) :
    ∃ missing i, err = .unassignedIndex missing node ∧ i ∈ missing ∧ i ∈ indices ∧
      scope.position? i = none := by
  cases missing : scope.unassigned indices with
  | nil =>
      unfold Scope.assigns at run
      rw [missing] at run
      cases run
  | cons i rest =>
      unfold Scope.assigns at run
      rw [missing] at run
      have member : i ∈ scope.unassigned indices := missing ▸ List.mem_cons_self
      obtain ⟨listed, none⟩ := List.mem_filter.mp member
      exact ⟨i :: rest, i, (Except.error.inj run).symm, List.mem_cons_self, listed, by simpa using none⟩

theorem fits_runs (fits : Fits e scope) : scope.fits e = .ok () :=
  if_pos fits.component.length_eq

theorem terminal_accountable {data : Terminal} (expandable : Expandable g (.terminal data)) :
    Accountable (.terminal data) := by
  intro scope err fits run
  rw [expandIn] at run
  unfold Terminal.expandIn at run
  split at run
  · rename_i shape free
    obtain short | ⟨_, _, run⟩ := (except_bind_error _ _ _).mp run
    · cases (fits_runs fits).symm.trans short
    obtain unassigned | ⟨_, _, run⟩ := (except_bind_error _ _ _).mp run
    · obtain ⟨missing, i, rfl, listed, inside, none⟩ := assigns_error unassigned
      exact .unassigned listed (FreeIndices.mem_indices_iff.mp inside) none
    · cases run
  · exact absurd rfl expandable.tidy.kind
  · rename_i notZero notItems
    obtain short | ⟨_, _, run⟩ := (except_bind_error _ _ _).mp run
    · cases (fits_runs fits).symm.trans short
    have lies : ((terminal data).aliased scope.component).Lies data.shape := by
      unfold aliased
      cases known : (terminal data).space? with
      | none => exact fits.component
      | some space =>
          have stored : space.valueShape = data.shape := by
            cases data <;> first | (cases known; rfl) | cases known
          have ranged := expandable.ranged _ space (.refl _) known
          exact stored ▸ canonical_lies ranged (stored.symm ▸ fits.component)
    have plain : (terminal data).kind ≠ .listTensor := by cases data <;> simp [Expr.kind, Terminal.kind]
    obtain ⟨r, selected⟩ := select_total plain lies
    cases selected.symm.trans run

/-- The index operand of a node is refused only for an index of the node. -/
theorem items_refused {items : List IndexItem} (listed : ∀ i, .free i ∈ items → e.free.contains i = true)
    (run : (multiIndex items).expandIn scope = .error err) : Refused e scope err := by
  rw [Expr.multiIndex, expandIn] at run
  simp only [Terminal.expandIn] at run
  obtain unassigned | ⟨_, _, run⟩ := (except_bind_error _ _ _).mp run
  · obtain ⟨missing, i, rfl, known, inside, none⟩ := assigns_error unassigned
    obtain ⟨item, member, free⟩ := List.mem_filterMap.mp inside
    cases item with
    | fixed position => cases free
    | free j =>
        cases free
        exact .unassigned known (listed _ member) none
  · cases run

theorem settled_union {a b : Expr} (left : Settled a) (right : Settled b) :
    (∅ : FreeIndices).IsUnion a.free b.free := by
  rw [left.bare.free, right.bare.free]
  exact FreeIndices.is_union_empty ∅

theorem two_of_length {p : Expr → Prop} {list : List Expr} (length : list.length = 2)
    (each : ∀ x ∈ list, p x) : ∃ a b, list = [a, b] ∧ p a ∧ p b := by
  obtain ⟨a, b, rfl⟩ := List.length_eq_two.mp length
  exact ⟨a, b, rfl, each a (by simp), each b (by simp)⟩

/-- Over settled scalars an elementary operator refuses a division by zero and nothing else. -/
theorem assemble_refused {op : Operator} {operands results : List Expr} {shape : Shape}
    {free : FreeIndices} {cause : BuildError} (types : op.Types operands shape free)
    (elementary : op.isElementary = true) (along : op ≠ .spatialDerivative)
    (length : results.length = operands.length) (settled : ∀ r ∈ results, Settled r)
    (tests : ∀ o r, (o, r) ∈ operands.zip results → o.kind = .condition → r.kind = .condition)
    (run : op.assemble results = .error cause) :
    ∃ a b, op = .division ∧ results = [a, b] ∧ b.isZero = true ∧
      cause = .invalidOperand .division (.zeroDivisor a) := by
  have made (total : ∃ r, op.assemble results = .ok r) : False := by
    obtain ⟨r, made⟩ := total
    cases made.symm.trans run
  cases types with
  | sum =>
      obtain ⟨a, b, rfl, left, right⟩ := two_of_length length settled
      exact (made (add_total (left.scalar.trans right.scalar.symm)
        (left.bare.free.trans right.bare.free.symm))).elim
  | product =>
      obtain ⟨a, b, rfl, left, right⟩ := two_of_length length settled
      exact (made (scalar_product_total left.scalar right.scalar (settled_union left right))).elim
  | division =>
      obtain ⟨a, b, rfl, left, right⟩ := two_of_length length settled
      cases zero : b.isZero with
      | false =>
          exact (made (scalar_quotient_total left.scalar right.scalar (settled_union left right) zero)).elim
      | true =>
          refine ⟨a, b, rfl, rfl, zero, ?_⟩
          simp only [Operator.assemble, scalarQuotient, expect_scalar_runs left.scalar,
            expect_scalar_runs right.scalar, except_ok_bind, zero, if_true] at run
          exact (Except.error.inj run).symm
  | power =>
      obtain ⟨a, b, rfl, left, right⟩ := two_of_length length settled
      exact (made (pow_total left.scalar right.scalar right.bare.free)).elim
  | sqrt =>
      obtain ⟨a, rfl⟩ := List.length_eq_one_iff.mp length
      exact (made (sqrt_total (settled a (by simp)).scalar)).elim
  | conditional condition =>
      obtain ⟨test, a, b, rfl⟩ := List.length_eq_three.mp length
      have kind : test.kind = .condition := tests _ _ (by simp) condition
      have first := settled a (by simp)
      have second := settled b (by simp)
      refine (made ⟨.node .conditional [test, a, b] a.shape ∅, ?_⟩).elim
      simp only [Operator.assemble, Expr.conditional, kind,
        expect_same_shape_runs (first.scalar.trans second.scalar.symm),
        expect_same_free_runs (first.bare.free.trans second.bare.free.symm),
        (settled_union (settled test (by simp)) first).joins, except_ok_bind, ne_eq,
        not_true_eq_false, if_false]
      rfl
  | @condition how _ _ arity checks =>
      have passes : ∀ r ∈ results, r.shape = [] ∧ (how.isLogical = true → r.kind = .condition) := by
        intro r member
        obtain ⟨o, pair⟩ := partner_left length.symm member
        exact ⟨(settled r member).scalar, fun logical =>
          tests o r pair ((checks o (List.of_mem_zip pair).1).2 logical)⟩
      have free : conditionFree how ∅ results = .ok ∅ :=
        condition_free_runs passes fun i d => by
          simp only [FreeIndices.empty_dim, reduceCtorEq, false_or, false_iff, not_exists, not_and]
          intro r member
          simp [(settled r member).bare.free]
      refine (made ⟨.node (.condition how) results [] ∅, ?_⟩).elim
      simp only [Operator.assemble, Expr.condition, length, arity, free, except_ok_bind, ne_eq,
        not_true_eq_false, if_false]
      rfl
  | spatialDerivative => exact absurd rfl along
  | restricted =>
      obtain ⟨a, rfl⟩ := List.length_eq_one_iff.mp length
      exact (made ⟨_, rfl⟩).elim
  | _ => cases elementary

/-- A condition expands to a condition. -/
theorem expands_condition (kind : e.kind = .condition) (expands : Expands e scope r) :
    r.kind = .condition := by
  cases expands with
  | @pointwise op _ _ _ _ _ _ _ _ _ made =>
      obtain ⟨how, rfl⟩ : ∃ how, op = .condition how := by
        cases op <;> first | exact ⟨_, rfl⟩ | cases kind
      obtain rfl | made := reassemble_cases made
      · rfl
      · obtain ⟨free, _, rfl⟩ := condition_cases made
        rfl
  | terminal => cases ‹Terminal› <;> cases kind
  | _ => cases kind

theorem reassemble_refused {op : Operator} {results : List Expr}
    (run : e.reassemble op results = .error err) :
    ∃ cause, op.assemble results = .error cause ∧ err = .build cause := by
  unfold reassemble reuseOr at run
  split at run
  · cases run
  · obtain ⟨cause, failed, same⟩ := (except_map_error_error _ _ _).mp run
    exact ⟨cause, failed, same.symm⟩

theorem expand_all_error {operands : List Expr} (run : expandAll operands scope = .error err) :
    ∃ o ∈ operands, o.expandIn scope = .error err := by
  induction operands with
  | nil => cases run
  | cons o rest ih =>
      rw [expandAll] at run
      obtain failed | ⟨first, _, run⟩ := (except_bind_error _ _ _).mp run
      · exact ⟨o, List.mem_cons_self, failed⟩
      obtain failed | ⟨others, _, run⟩ := (except_bind_error _ _ _).mp run
      · obtain ⟨o, member, failed⟩ := ih failed
        exact ⟨o, List.mem_cons_of_mem _ member, failed⟩
      · cases run

/-- What a node without a rule of its own is refused for. -/
theorem expand_operands_error {op : Operator} {operands : List Expr} {shape : Shape}
    {free : FreeIndices}
    (other : op ∉ [.conditional, .division, .indexSum, .indexed, .componentTensor, .listTensor, .grad])
    (run : (node op operands shape free).expandIn scope = .error err) :
    Fault (node op operands shape free) err ∨
      (op ≠ .variableDerivative ∧ op.kind.isCompound = false ∧
        ((∃ o ∈ operands, o.expandIn scope = .error err) ∨ ∃ results cause,
          List.Forall₂ (fun o v => o.expandIn scope = .ok v) operands results ∧
            op.assemble results = .error cause ∧ err = .build cause)) := by
  simp only [List.mem_cons, List.not_mem_nil, or_false, not_or] at other
  rw [expandIn] at run
  · split at run
    · rename_i same
      subst same
      cases run
      exact .inl .derivative
    split at run
    · cases run
      exact .inl (.compound ‹_›)
    rename_i derivative compound
    refine .inr ⟨derivative, by simpa using compound, ?_⟩
    obtain failed | ⟨results, ran, run⟩ := (except_bind_error _ _ _).mp run
    · exact .inl (expand_all_error failed)
    · obtain ⟨cause, failed, rfl⟩ := reassemble_refused run
      exact .inr ⟨results, cause, expand_all_ok ran, failed, rfl⟩
  all_goals simp_all

/-- The terminals in it. -/
def OnTerminals (p : Terminal → Prop) (e : Expr) : Prop := ∀ data, Within (.terminal data) e → p data

theorem OnTerminals.operand {p : Terminal → Prop} (holds : OnTerminals p e) (member : o ∈ e.operands) :
    OnTerminals p o :=
  fun data inside => holds data (.step member inside)

theorem made_on_terminals {p : Terminal → Prop} (constant : ∀ data, data.gdim? = none → p data)
    (made : Made (OnTerminals p) e) : OnTerminals p e := by
  induction made with
  | given holds => exact holds
  | constant none =>
      intro data inside
      cases inside with
      | refl => exact constant _ none
      | step member => cases member
  | operand _ member ih => exact ih.operand member
  | node _ _ _ ih =>
      intro data inside
      cases inside with
      | step member below => exact ih _ member data below

/-- Expansion brings in no terminal that lives on a domain. -/
theorem expand_domain {d : Nat} (typed : WellTyped e) (domain : OnDomain d e)
    (run : e.expandIn scope = .ok r) : OnDomain d r := by
  have holds : OnTerminals (fun data => ∀ k, data.gdim? = some k → k = d) e := domain
  exact made_on_terminals (fun data none k known => nomatch none.symm.trans known)
    (expands_made OnTerminals.operand (expand_in_expands typed run) holds)

section Nodes

variable {op : Operator} {operands : List Expr} {shape : Shape} {free : FreeIndices}

/-- An operand refused in its scope makes its node refused. -/
theorem operand_refused (accountable : ∀ o ∈ operands, Expandable g o → Accountable o)
    (fits : Fits (.node op operands shape free) scope) (run : o.expandIn inner = .error err)
    (member : o ∈ operands) (ready : Expandable g o)
    (opens : Opens (.node op operands shape free) scope o inner)
    (lies : inner.component.Lies o.shape) :
    Refused (.node op operands shape free) scope err :=
  (accountable o member ready inner err (fits.opens opens lies) run).operand opens member

/-- A node cannot be rebuilt from its expanded operands for a division by zero only. -/
theorem rebuilding_refused {results : List Expr} {cause : BuildError}
    (types : op.Types operands shape free) (elementary : op.isElementary = true)
    (along : op ≠ .spatialDerivative) (ready : ∀ o ∈ operands, Expandable g o)
    (length : results.length = operands.length)
    (runs : ∀ o v, (o, v) ∈ operands.zip results → ∃ inner, o.expandIn inner = .ok v)
    (here : op = .division → List.Forall₂ (fun o v => o.expandIn scope = .ok v) operands results)
    (failed : op.assemble results = .error cause) :
    Refused (.node op operands shape free) scope (.build cause) := by
  have settled : ∀ v ∈ results, Settled v := fun v member => by
    obtain ⟨o, pair⟩ := partner_left length.symm member
    obtain ⟨inner, run⟩ := runs o v pair
    exact (ready o (List.of_mem_zip pair).1).settled run
  have tests : ∀ o v, (o, v) ∈ operands.zip results → o.kind = .condition → v.kind = .condition := by
    intro o v pair kind
    obtain ⟨inner, run⟩ := runs o v pair
    exact expands_condition kind (expand_in_expands (ready o (List.of_mem_zip pair).1).typed run)
  obtain ⟨a', b', rfl, rfl, zero, rfl⟩ :=
    assemble_refused types elementary along length settled tests failed
  cases types with
  | division =>
      obtain _ | ⟨first, _ | ⟨second, _⟩⟩ := here rfl
      exact .fault (.refl _) (.divisor first second zero)

/-- Operands that a pointwise operator takes at the component of the node have its shape. -/
theorem pointwise_shapes (types : op.Types operands shape free) (pointwise : op.isPointwise = true)
    (along : op ≠ .spatialDerivative) : ∀ o ∈ operands, o.shape = shape := by
  cases types with
  | sum same => exact operands_pair rfl same.symm
  | product left right | division left right | power left right => exact operands_pair left right
  | sqrt scalar => exact List.forall_mem_singleton.mpr scalar
  | condition _ checks => exact fun o member => (checks o member).1
  | restricted => exact List.forall_mem_singleton.mpr rfl
  | spatialDerivative => exact absurd rfl along
  | _ => cases pointwise

/-- What a pointwise node is refused for, given what its operands are refused for. -/
theorem pointwise_refused (types : op.Types operands shape free) (pointwise : op.isPointwise = true)
    (along : op ≠ .spatialDerivative) (expandable : Expandable g (.node op operands shape free))
    (accountable : ∀ o ∈ operands, Expandable g o → Accountable o)
    (fits : Fits (.node op operands shape free) scope)
    (run : (∃ o ∈ operands, o.expandIn scope = .error err) ∨ ∃ results cause,
      List.Forall₂ (fun o v => o.expandIn scope = .ok v) operands results ∧
        op.assemble results = .error cause ∧ err = .build cause) :
    Refused (.node op operands shape free) scope err := by
  have ready := expandable.pointwise (by cases op <;> first | (cases pointwise; done) | simp_all)
  rcases run with ⟨o, member, run⟩ | ⟨results, cause, runs, failed, rfl⟩
  · have inside : o.free ⊆ free := types_free types (by rintro rfl; cases pointwise)
      (by rintro rfl; cases pointwise) o member
    refine operand_refused accountable fits run member (ready o member) (opens_same inside rfl) ?_
    exact (pointwise_shapes types pointwise along o member).symm ▸ fits.component
  · refine rebuilding_refused types (by simp [Operator.isElementary, pointwise]) along ready
      runs.length_eq.symm (fun o v pair => ⟨scope, List.forall₂_zip runs pair⟩) (fun _ => runs) failed

theorem conditional_refused {test a b : Expr} (types : Operator.Types .conditional [test, a, b] shape free)
    (expandable : Expandable g (.node .conditional [test, a, b] shape free))
    (accountable : ∀ o ∈ [test, a, b], Expandable g o → Accountable o)
    (fits : Fits (.node .conditional [test, a, b] shape free) scope)
    (run : (Expr.node .conditional [test, a, b] shape free).expandIn scope = .error err) :
    Refused (.node .conditional [test, a, b] shape free) scope err := by
  have ready := expandable.pointwise (by simp)
  have inside := types_free types (by simp) (by simp)
  have visit {o : Expr} {inner : Scope} (run : o.expandIn inner = .error err)
      (member : o ∈ [test, a, b]) (same : inner.positions = scope.positions)
      (lies : inner.component.Lies o.shape) :
      Refused (.node .conditional [test, a, b] shape free) scope err :=
    operand_refused accountable fits run member (ready o member) (opens_same (inside o member) same) lies
  obtain ⟨scalar, first, second⟩ : test.shape = [] ∧ a.shape = shape ∧ b.shape = shape := by
    cases types with
    | conditional kind same => exact ⟨condition_scalar (ready test (by simp)).typed kind, rfl, same.symm⟩
  rw [expandIn, require_scalar_runs scalar, except_ok_bind] at run
  obtain failed | ⟨test', ran, run⟩ := (except_bind_error _ _ _).mp run
  · exact visit failed (by simp) rfl (by rw [scalar]; exact .nil)
  obtain failed | ⟨a', ran', run⟩ := (except_bind_error _ _ _).mp run
  · exact visit failed (by simp) rfl (first ▸ fits.component)
  obtain failed | ⟨b', ran'', run⟩ := (except_bind_error _ _ _).mp run
  · exact visit failed (by simp) rfl (second ▸ fits.component)
  obtain ⟨cause, failed, rfl⟩ := reassemble_refused run
  refine rebuilding_refused types rfl (by simp) ready (by simp) (fun o v pair => ?_) (by simp) failed
  simp only [List.zip_cons_cons, List.zip_nil_right, List.mem_cons, Prod.mk.injEq, List.not_mem_nil,
    or_false] at pair
  rcases pair with ⟨rfl, rfl⟩ | ⟨rfl, rfl⟩ | ⟨rfl, rfl⟩
  · exact ⟨_, ran⟩
  · exact ⟨_, ran'⟩
  · exact ⟨_, ran''⟩

/-- Adding up settled terms fails for a term only. -/
theorem sum_terms_error {term : Nat → Except TransformError Expr} {positions : List Nat} {start : Expr}
    (settled : ∀ p ∈ positions, ∀ t, term p = .ok t → Settled t) (begin : Settled start)
    (run : positions.foldlM (fun total position => do
      let t ← term position
      (total.add t).mapError .build) start = .error err) : ∃ p ∈ positions, term p = .error err := by
  induction positions generalizing start with
  | nil => cases run
  | cons p rest ih =>
      obtain ⟨here, others⟩ := List.forall_mem_cons.mp settled
      rw [List.foldlM_cons] at run
      obtain failed | ⟨total, step, run⟩ := (except_bind_error _ _ _).mp run
      · obtain failed | ⟨t, ran, failed⟩ := (except_bind_error _ _ _).mp failed
        · exact ⟨p, List.mem_cons_self, failed⟩
        · have term := here t ran
          obtain ⟨sum, added⟩ := add_total (begin.scalar.trans term.scalar.symm)
            (begin.bare.free.trans term.bare.free.symm)
          rw [added] at failed
          cases failed
      · obtain ⟨t, ran, added⟩ := (except_bind_ok _ _ _).mp step
        have added : Operator.assemble .sum [start, t] = .ok total :=
          (except_map_error_ok _ _ _).mp added
        have elementary : Operator.isElementary .sum = true := rfl
        have settled := settled_assembled elementary (operands_pair begin (here t ran))
          (assemble_elementary elementary added)
        obtain ⟨q, member, failed⟩ := ih others settled run
        exact ⟨q, List.mem_cons_of_mem _ member, failed⟩

theorem index_sum_refused {summand : Expr} {index : Index} (scalar : summand.shape = [])
    (known : summand.free.contains index = true)
    (expandable : Expandable g (.node .indexSum [summand, multiIndex [.free index]] []
      (summand.free.erase index)))
    (accountable : ∀ o ∈ [summand, multiIndex [.free index]], Expandable g o → Accountable o)
    (fits : Fits (.node .indexSum [summand, multiIndex [.free index]] [] (summand.free.erase index)) scope)
    (run : (Expr.node .indexSum [summand, multiIndex [.free index]] []
      (summand.free.erase index)).expandIn scope = .error err) :
    Refused (.node .indexSum [summand, multiIndex [.free index]] [] (summand.free.erase index))
      scope err := by
  obtain ⟨dim, found⟩ := FreeIndices.contains_iff.mp known
  have nothing : scope.component = [] := List.forall₂_nil_right_iff.mp fits.component
  rw [expandIn] at run
  obtain failed | ⟨indices, bound, run⟩ := (except_bind_error _ _ _).mp run
  · cases failed
  cases bound
  simp only [IndexItem.free?, List.filterMap_cons, List.filterMap_nil, found] at run
  have ready := expandable.along
  obtain ⟨position, inside, failed⟩ :=
    sum_terms_error (fun _ _ t ran => ready.settled ran) settled_zero run
  refine operand_refused accountable fits failed (by simp) ready
    (opens_sum found (List.mem_range.mp inside)) ?_
  rw [scalar]
  exact List.forall₂_nil_right_iff.mpr nothing

/-- Subscripts that are assigned stand on the axes of what they subscript. -/
theorem subscripts_stand {set : FreeIndices} {items : List IndexItem} {axes : Shape}
    (subscribed : Subscribes set items axes free)
    (positions : ∀ i d p, free.dim? i = some d → scope.position? i = some p → p < d)
    (assigned : scope.unassigned (items.filterMap IndexItem.free?) = []) :
    ∃ component : Component, items.map scope.resolve = component.map .fixed ∧ component.Lies axes := by
  refine Scope.resolved_lies subscribed.length fun item dim pair => ?_
  cases item with
  | fixed p => exact ⟨p, rfl, subscribed.within p dim pair⟩
  | free i =>
      have listed : i ∈ items.filterMap IndexItem.free? :=
        List.mem_filterMap.mpr ⟨_, (List.of_mem_zip pair).1, rfl⟩
      obtain ⟨p, stands⟩ := unassigned_none assigned listed
      refine ⟨p, by simp [Scope.resolve, stands], positions i dim p ?_ stands⟩
      exact (subscribed.dims i dim).mpr (.inr pair)

/-- Indices that subscript along axes are free in the node. -/
theorem subscripts_listed {set : FreeIndices} {items : List IndexItem} {axes : Shape}
    (subscribed : Subscribes set items axes free) :
    ∀ i, .free i ∈ items → free.contains i = true := by
  intro i member
  obtain ⟨d, pair⟩ := partner_right subscribed.length member
  exact FreeIndices.contains_iff.mpr ⟨d, (subscribed.dims i d).mpr (.inr pair)⟩

theorem subscripts_inside {set : FreeIndices} {items : List IndexItem} {axes : Shape}
    (subscribed : Subscribes set items axes free) : set ⊆ free :=
  fun i d known => (subscribed.dims i d).mpr (.inl known)

theorem items_expand {items : List IndexItem} {v : Expr} (run : (multiIndex items).expandIn scope = .ok v) :
    scope.unassigned (items.filterMap IndexItem.free?) = [] ∧ v = multiIndex (items.map scope.resolve) := by
  rw [Expr.multiIndex, expandIn] at run
  simp only [Terminal.expandIn, except_bind_ok, except_pure_ok] at run
  obtain ⟨_, assigned, rfl⟩ := run
  exact ⟨assigns_ok assigned, rfl⟩

theorem indexed_refused {tensor : Expr} {items : List IndexItem}
    (subscribed : Subscribes tensor.free items tensor.shape free)
    (expandable : Expandable g (.node .indexed [tensor, multiIndex items] [] free))
    (accountable : ∀ o ∈ [tensor, multiIndex items], Expandable g o → Accountable o)
    (fits : Fits (.node .indexed [tensor, multiIndex items] [] free) scope)
    (run : (Expr.node .indexed [tensor, multiIndex items] [] free).expandIn scope = .error err) :
    Refused (.node .indexed [tensor, multiIndex items] [] free) scope err := by
  rw [expandIn] at run
  obtain failed | ⟨fixed, ran, run⟩ := (except_bind_error _ _ _).mp run
  · exact items_refused (subscripts_listed subscribed) failed
  obtain ⟨assigned, rfl⟩ := items_expand ran
  obtain ⟨component, resolved, lies⟩ := subscripts_stand subscribed fits.positions assigned
  simp only [multiIndex?, Expr.multiIndex, resolved, Option.getD_some, fixed_items] at run
  exact operand_refused accountable fits run List.mem_cons_self expandable.along
    (opens_same (subscripts_inside subscribed) rfl) lies

theorem component_tensor_refused {summand : Expr} {indices : List Index} (scalar : summand.shape = [])
    (binds : Binds summand.free indices shape free)
    (expandable : Expandable g (.node .componentTensor [summand, multiIndex (indices.map .free)] shape free))
    (accountable : ∀ o ∈ [summand, multiIndex (indices.map .free)], Expandable g o → Accountable o)
    (fits : Fits (.node .componentTensor [summand, multiIndex (indices.map .free)] shape free) scope)
    (run : (Expr.node .componentTensor [summand, multiIndex (indices.map .free)] shape free).expandIn scope
      = .error err) :
    Refused (.node .componentTensor [summand, multiIndex (indices.map .free)] shape free) scope err := by
  have length : indices.length = scope.component.length :=
    binds.length.trans fits.component.length_eq.symm
  rw [expandIn, require_scalar_runs scalar, except_ok_bind] at run
  simp only [boundIndices, Expr.multiIndex, multiIndex?, free_items, except_ok_bind, length, ne_eq,
    not_true_eq_false, if_false] at run
  refine operand_refused accountable fits run List.mem_cons_self expandable.along
    (opens_bound binds fits.component) ?_
  rw [scalar]
  exact .nil

theorem expand_entry_error {node : Expr} {entries : List Expr} {position ahead : Nat}
    (below : ahead < entries.length) (run : expandEntry node position entries ahead scope = .error err) :
    ∃ entry ∈ entries, entry.expandIn scope = .error err := by
  induction entries generalizing ahead with
  | nil => cases below
  | cons entry entries ih =>
      cases ahead with
      | zero => exact ⟨entry, List.mem_cons_self, by rwa [expandEntry] at run⟩
      | succ ahead =>
          rw [expandEntry] at run
          obtain ⟨entry, member, failed⟩ := ih (Nat.lt_of_succ_lt_succ below) run
          exact ⟨entry, List.mem_cons_of_mem _ member, failed⟩

theorem list_tensor_refused {axes : Shape} (same : ∀ e ∈ operands, e.shape = axes ∧ e.free = free)
    (expandable : Expandable g (.node .listTensor operands (operands.length :: axes) free))
    (accountable : ∀ o ∈ operands, Expandable g o → Accountable o)
    (fits : Fits (.node .listTensor operands (operands.length :: axes) free) scope)
    (run : (Expr.node .listTensor operands (operands.length :: axes) free).expandIn scope = .error err) :
    Refused (.node .listTensor operands (operands.length :: axes) free) scope err := by
  obtain ⟨position, rest, below, lies, selected⟩ := List.forall₂_cons_right_iff.mp fits.component
  rw [expandIn, selected] at run
  obtain ⟨entry, member, failed⟩ := expand_entry_error below run
  obtain ⟨shape, free⟩ := same entry member
  refine operand_refused accountable fits failed member (expandable.pointwise (by simp) entry member)
    (opens_same ?_ rfl) (shape ▸ lies)
  exact free ▸ FreeIndices.subset_refl _

/-- A derivative along coordinate directions is refused for an unassigned direction, for what it is
taken of, or because nothing is left in that to tell the dimension. -/
theorem spatial_derivative_refused {f : Expr} {items : List IndexItem}
    (lives : Operator.Lives .spatialDerivative [f, multiIndex items] f.shape free)
    (expandable : Expandable g (.node .spatialDerivative [f, multiIndex items] f.shape free))
    (accountable : ∀ o ∈ [f, multiIndex items], Expandable g o → Accountable o)
    (fits : Fits (.node .spatialDerivative [f, multiIndex items] f.shape free) scope)
    (run : (Expr.node .spatialDerivative [f, multiIndex items] f.shape free).expandIn scope = .error err) :
    Refused (.node .spatialDerivative [f, multiIndex items] f.shape free) scope err := by
  obtain ⟨dim, items', found, same, subscribed⟩ := lives
  cases same
  have ready := expandable.along
  rcases expand_operands_error (by simp) run with
    fault | ⟨_, _, ⟨o, member, failed⟩ | ⟨results, cause, runs, failed, rfl⟩⟩
  · exact .fault (.refl _) fault
  · rcases List.mem_pair.mp member with rfl | rfl
    · exact operand_refused accountable fits failed member ready
        (opens_same (subscripts_inside subscribed) rfl) fits.component
    · exact items_refused (subscripts_listed subscribed) failed
  obtain ⟨f', ii, rfl, ran, ran'⟩ := pairs_two runs
  obtain ⟨assigned, rfl⟩ := items_expand ran'
  obtain ⟨component, resolved, lies⟩ := subscripts_stand subscribed fits.positions assigned
  have failed : f'.spatialDerivative (component.map .fixed) = .error cause := resolved ▸ failed
  unfold spatialDerivative at failed
  split at failed
  · cases failed
  obtain none | ⟨d, known, failed⟩ := (except_bind_error _ _ _).mp failed
  · obtain rfl : cause = .noGeometricDimension f' := by
      unfold geometricDimension at none
      simp only at none
      split at none <;> cases none
      rfl
    exact .fault (.refl _) (.dimension ran fun d known => nomatch none.symm.trans known)
  · -- Whatever is left lives on the same domain, so the positions lie on its axes too.
    obtain ⟨data, inside, lives⟩ := geometric_dimension_ok found
    obtain ⟨data', inside', lives'⟩ := geometric_dimension_ok known
    have domain : OnDomain g f := fun data inside =>
      expandable.domain _ (.refl _) rfl data (.step List.mem_cons_self inside)
    obtain rfl : dim = g := domain data inside dim lives
    obtain rfl : d = dim := expand_domain ready.typed domain ran data' inside' d lives'
    have axes : (component.map IndexItem.fixed).map (fun _ => d) = items.map fun _ => d := by
      rw [← resolved, List.map_map]
      rfl
    rw [axes, (lies_subscribes f'.free lies).runs] at failed
    cases failed

end Nodes

/-- Where it fits, an expression is refused for a fault of one of its nodes, or for an index that is
free in it and has no position. -/
theorem expand_in_refused (expandable : Expandable g e) : Accountable e := by
  induction e with
  | terminal data => exact terminal_accountable expandable
  | labelled label body ih =>
      intro scope err fits run
      rw [expandIn] at run
      have ready := expandable.operand List.mem_cons_self (by
        cases expandable.tidy with
        | labelled body => exact body.kind)
      have inner : Fits body scope := ⟨fits.component, fits.positions⟩
      exact (ih ready scope err inner run).operand (opens_same (FreeIndices.subset_refl _) rfl)
        List.mem_cons_self
  | node op operands shape free ih =>
      intro scope err fits run
      obtain _ | ⟨types, _⟩ := expandable.typed
      have whole := types
      cases types with
      | conditional => exact conditional_refused whole expandable ih fits run
      | division =>
          rw [expandIn] at run
          have nothing : scope.component = [] := List.forall₂_nil_right_iff.mp fits.component
          simp only [nothing, List.isEmpty_nil, Bool.not_true, Bool.false_eq_true, if_false] at run
          refine pointwise_refused whole rfl (by simp) expandable ih fits ?_
          obtain failed | ⟨a', ran, run⟩ := (except_bind_error _ _ _).mp run
          · exact .inl ⟨_, List.mem_cons_self, failed⟩
          obtain failed | ⟨b', ran', run⟩ := (except_bind_error _ _ _).mp run
          · exact .inl ⟨_, by simp, failed⟩
          obtain ⟨cause, failed, rfl⟩ := reassemble_refused run
          exact .inr ⟨_, cause, .cons ran (.cons ran' .nil), failed, rfl⟩
      | indexSum scalar known => exact index_sum_refused scalar known expandable ih fits run
      | indexed _ subscribed => exact indexed_refused subscribed expandable ih fits run
      | componentTensor scalar _ binds =>
          exact component_tensor_refused scalar binds expandable ih fits run
      | listTensor _ same => exact list_tensor_refused same expandable ih fits run
      | @grad f gdim =>
          have kept := expandable.direct _ (.refl _) rfl _ List.mem_cons_self
          have length : scope.component.length = (f.shape ++ [gdim]).length := fits.component.length_eq
          rw [expand_in_gradient kept length] at run
          obtain ⟨r, selected⟩ := select_total (by simp [kind, Operator.kind]) fits.component
          cases selected.symm.trans run
      | spatialDerivative =>
          cases expandable.formed with
          | node built =>
              obtain ⟨_, _, lives⟩ := Operator.assembled built
              exact spatial_derivative_refused lives expandable ih fits run
      | sum | product | power | sqrt | condition | restricted =>
          rcases expand_operands_error (by simp) run with fault | ⟨_, _, others⟩
          · exact .fault (.refl _) fault
          · exact pointwise_refused whole rfl (by simp) expandable ih fits others
      | variableDerivative | div | curl | rot | transposed | inner | outer | dot | cross | trace | skew
      | determinant | inverse | cofactor | deviatoric =>
          rcases expand_operands_error (by simp) run with fault | ⟨derivative, compound, _⟩
          · exact .fault (.refl _) fault
          · first | exact absurd rfl derivative | cases compound

theorem tabulate_refused {entry : Component → Except TransformError Expr} {shape : Shape}
    {position : Component} (settled : ∀ component v, entry component = .ok v → Settled v)
    (run : tabulate entry shape position = .error err) :
    (∃ component : Component, component.Lies shape ∧ entry (position ++ component) = .error err) ∨
      (0 ∈ shape ∧ err = .build (.invalidOperand .listTensor .noEntries)) := by
  induction shape generalizing position with
  | nil =>
      rw [tabulate] at run
      exact .inl ⟨[], .nil, by rwa [List.append_nil]⟩
  | cons dim shape ih =>
      rw [tabulate] at run
      obtain failed | ⟨entries, ran, run⟩ := (except_bind_error _ _ _).mp run
      · obtain ⟨next, inside, failed⟩ := mapM_error failed
        rcases ih failed with ⟨component, lies, failed⟩ | ⟨empty, same⟩
        · refine .inl ⟨next :: component, .cons (List.mem_range.mp inside) lies, ?_⟩
          rw [← failed, List.append_assoc]
          rfl
        · exact .inr ⟨List.mem_cons_of_mem _ empty, same⟩
      obtain ⟨cause, failed, rfl⟩ := (except_map_error_error _ _ _).mp run
      have pairs := mapM_ok ran
      by_cases some : entries = []
      · subst some
        cases failed
        have length : dim = 0 := by simpa using pairs.length_eq
        exact .inr ⟨length ▸ List.mem_cons_self, rfl⟩
      · have same : ∀ e ∈ entries, e.shape = shape ∧ e.free = ∅ := fun e member => by
          obtain ⟨place, _, found⟩ := pairs_member pairs member
          exact (tabulate_spelled settled found).1.stored
        rw [list_tensor_runs_either some same] at failed
        cases failed

/-- Why the expansion of an expression may fail. -/
inductive Excused (e : Expr) : TransformError → Prop
  | unassigned {missing : List Index} {node : Expr} {i : Index} : i ∈ missing →
      e.free.contains i = true → Excused e (.unassignedIndex missing node)
  | fault {x : Expr} {err : TransformError} : Within x e → Fault x err → Excused e err
  | empty : 0 ∈ e.shape → Excused e (.build (.invalidOperand .listTensor .noEntries))

/-- Expansion fails for an index that is free in the whole, for a tensor without entries, or for a
fault of one of the nodes: a divisor that expands to zero, a derivative of what expands to a
constant, a derivative along a variable, or a compound operator. No shape, rank, index set or
component that it meets on the way is ever wrong. -/
theorem expand_refused (made : Constructible e) (domain : OnDomain g e) (ranged : Ranged e)
    (direct : GradsDirect e) (tidy : Tidy e) (run : e.expand = .error err) : Excused e err := by
  have expandable : Expandable g e :=
    ⟨made.formed, fun x inside _ data below => domain data (below.trans inside), ranged, direct, tidy⟩
  rcases tabulate_refused (fun _ _ ran => expandable.settled ran) run with
    ⟨component, lies, failed⟩ | ⟨empty, rfl⟩
  · have fits : Fits e ⟨component, []⟩ := ⟨lies, fun _ _ _ _ none => nomatch none⟩
    cases expand_in_refused expandable _ _ fits failed with
    | unassigned listed known _ => exact .unassigned listed known
    | fault inside fault => exact .fault inside fault
  · exact .empty empty

end Refusing

section Sample

/-- The entries of a column of the identity. -/
def sampleColumn : Expr :=
  .node .indexed [.terminal (.identity 2), multiIndex [.free sampleIndex, .fixed 0]] []
    (.single sampleIndex 2)

/-- A component of a field divided by each of them, added up. -/
def sampleQuotients : Expr :=
  .node .indexSum [.node .division [samplePart 0, sampleColumn] [] (.single sampleIndex 2),
    multiIndex [.free sampleIndex]] [] ∅

theorem sample_quotients_constructible : Constructible sampleQuotients := by
  have part_made : Operator.assemble .indexed [sampleField, multiIndex [.fixed 0]] =
      .ok (samplePart 0) := by cbv
  have column_made : Operator.assemble .indexed
      [.terminal (.identity 2), multiIndex [.free sampleIndex, .fixed 0]] = .ok sampleColumn := by cbv
  have quotient_made : Operator.assemble .division [samplePart 0, sampleColumn] =
      .ok (.node .division [samplePart 0, sampleColumn] [] (.single sampleIndex 2)) := by cbv
  have sum_made : Operator.assemble .indexSum [.node .division [samplePart 0, sampleColumn] []
      (.single sampleIndex 2), multiIndex [.free sampleIndex]] = .ok sampleQuotients := by cbv
  have part := Constructible.assemble _ (by decide) (operands_pair (.terminal _) (.terminal _)) part_made
  have column := Constructible.assemble _ (by decide) (operands_pair (.terminal _) (.terminal _)) column_made
  have quotient := Constructible.assemble _ (by decide) (operands_pair part column) quotient_made
  exact .assemble _ (by decide) (operands_pair quotient (.terminal _)) sum_made

/-- The second entry of the column is zero, and a quotient is refused for it. -/
theorem sample_quotients_refused : sampleQuotients.free = ∅ ∧ ∃ err,
    sampleQuotients.expand = .error err ∧ Excused sampleQuotients err := by
  have plain : ∀ x ∈ parts sampleQuotients, x.kind ≠ .grad ∧
      ∀ space ∈ x.space?, space.symmetry = none := by decide
  have domain : OnDomain 2 sampleQuotients := fun data inside d lives => by
    have member := mem_parts.mpr inside
    simp only [sampleQuotients, samplePart, sampleField, multiIndex, sampleColumn, parts, partsAll,
      List.append_nil, List.cons_append, List.nil_append, List.mem_cons, reduceCtorEq,
      terminal.injEq, List.not_mem_nil, or_false, false_or] at member
    rcases member with rfl | rfl | rfl | rfl | rfl <;> cases lives
    rfl
  have ranged : Ranged sampleQuotients := fun x space inside known => by
    obtain ⟨_, spaces⟩ := plain x (mem_parts.mpr inside)
    simp [FunctionSpace.Ranged, spaces space known]
  have direct : GradsDirect sampleQuotients := fun x inside kind =>
    absurd kind (plain x (mem_parts.mpr inside)).1
  have tidy : Tidy sampleQuotients :=
    .along (by simp) (.node (operands_pair (.along (by simp) (.terminal (by simp [Terminal.kind])))
      (.along (by simp) (.terminal (by simp [Terminal.kind])))))
  refine ⟨rfl, .build (.invalidOperand .division (.zeroDivisor (samplePart 0))), by cbv, ?_⟩
  exact expand_refused sample_quotients_constructible domain ranged direct tidy (by cbv)

end Sample

end Expr

end FormCalculus
