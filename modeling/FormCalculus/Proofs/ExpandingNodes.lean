import FormCalculus.Proofs.ExpandingRefusals
import FormCalculus.Proofs.Rebuilding
import FormCalculus.Proofs.Stripping

/-!
How a node is expanded: it visits its operands, each in a scope of its own, and combines what they
expand to. The visits go by the shapes and free indices of the operands, and what a visit results in
goes by the positions of the indices that are looked up on it.
-/
set_option autoImplicit false

namespace FormCalculus

open FormCalculus.Expr

/-- Where a node of the operator visits its operands. -/
inductive Operator.Visits (scope : Scope) : Operator → List Expr → List (Expr × Scope) → Prop
  | conditional {test a b : Expr} :
      Visits scope .conditional [test, a, b] [(test, scope.select []), (a, scope), (b, scope)]
  | indexSum {summand : Expr} {index : Index} {dim : Nat} : summand.free.dim? index = some dim →
      Visits scope .indexSum [summand, multiIndex [.free index]]
        ((List.range dim).map fun position => (summand, scope.bind index position))
  | indexed {tensor : Expr} {items : List IndexItem} :
      scope.unassigned (items.filterMap IndexItem.free?) = [] →
      Visits scope .indexed [tensor, multiIndex items]
        [(tensor, scope.select ((items.map scope.resolve).filterMap IndexItem.fixed?))]
  | componentTensor {e : Expr} {items : List IndexItem} :
      (items.filterMap IndexItem.free?).length = scope.component.length →
      Visits scope .componentTensor [e, multiIndex items]
        [(e, (scope.bindAll ((items.filterMap IndexItem.free?).zip scope.component)).select [])]
  | listTensor {entries : List Expr} {entry : Expr} {position : Nat} {rest : Component} :
      scope.component = position :: rest → entries[position]? = some entry →
      Visits scope .listTensor entries [(entry, scope.select rest)]
  | spatialDerivative {f : Expr} {items : List IndexItem} :
      Visits scope .spatialDerivative [f, multiIndex items]
        [(f, scope), (multiIndex items, scope.select [])]
  | pointwise {op : Operator} {operands : List Expr} : op.isPointwise = true →
      op ≠ .spatialDerivative → Visits scope op operands (operands.map fun o => (o, scope))

/-- What a node of the operator makes of the results of its visits. -/
def Operator.combine : Operator → List Expr → Except BuildError Expr
  | .indexSum, terms => terms.foldlM Expr.add .zero
  | .indexed, [r] | .componentTensor, [r] | .listTensor, [r] => .ok r
  | op, results => op.assemble results

/-- What a node of the operator over the operands expands to, were none of its simplifications made
before. -/
def Operator.Makes (op : Operator) (operands : List Expr) (scope : Scope) (r : Expr) : Prop :=
  ∃ visits results, op.Visits scope operands visits ∧
    List.Forall₂ (fun visit result => Expands visit.1 visit.2 result) visits results ∧
      op.combine results = .ok r

namespace Expr

/-- The expression is a scalar that expansion is through with, whatever gradients are in it. -/
structure Resolved (e : Expr) : Prop where
  plain : Unlabelled e
  scalar : e.shape = []
  free : e.free = ∅
  fixed : ∀ items, e = multiIndex items → ∀ i, .free i ∉ items

/-- Gradients that are kept as they stand have no free indices. -/
def GradsClosed (e : Expr) : Prop :=
  ∀ f shape free, Within (.node .grad [f] shape free) e → f.kind = .grad → free = ∅

theorem gradient_closed {f : Expr} {shape : Shape} {free : FreeIndices}
    (typed : WellTyped (.node .grad [f] shape free)) (grads : GradsClosed (.node .grad [f] shape free))
    (kept : f.isTerminal = true ∨ f.kind = .grad) : free = ∅ := by
  obtain _ | ⟨types, _⟩ := typed
  rcases kept with leaf | gradient
  · cases types with
    | grad nonzero =>
        cases f with
        | terminal data => cases data <;> first | rfl | cases nonzero
        | node op => cases op <;> cases leaf
        | labelled => cases leaf
  · exact grads _ _ _ (.refl _) gradient

/-- Made by the constructors, with gradients that expansion can keep. -/
structure Orderly (e : Expr) : Prop where
  formed : Formed e
  plain : ∀ x, Within x e → x.kind = .grad → Unlabelled x
  closed : GradsClosed e

section Orderly

variable {e o x r : Expr} {scope : Scope}

theorem Orderly.operand (orderly : Orderly e) (member : o ∈ e.operands) : Orderly o where
  formed := orderly.formed.operand member
  plain := fun x inside => orderly.plain x (.step member inside)
  closed := fun f shape free inside => orderly.closed f shape free (.step member inside)

theorem Orderly.typed (orderly : Orderly e) : WellTyped e := orderly.formed.well_typed

theorem resolved_zero : Resolved zero := ⟨unlabelled_terminal _, rfl, rfl, nofun⟩

theorem resolved_assembled {op : Operator} {results : List Expr} (elementary : op.isElementary = true)
    (resolved : ∀ v ∈ results, Resolved v) (run : op.assemble results = .ok r) : Resolved r := by
  have built : Built (fun _ => True) (· ∈ results) r :=
    Built.assemble (fun _ _ => trivial) op trivial (fun _ member => .given member) run
  have plain : Unlabelled r := built_unlabelled (fun v member => (resolved v member).plain) built
  cases assemble_elementary elementary run with
  | operand member => exact resolved _ member
  | constant c => exact ⟨plain, folded_shape c, folded_free c, by cases c <;> nofun⟩
  | zeros same union =>
      subst same
      exact ⟨plain, rfl, union_of_empty union (resolved _ (by simp)).free (resolved _ (by simp)).free,
        nofun⟩
  | node inside types =>
      obtain ⟨scalar, free⟩ := elementary_closed elementary types
        (fun o member => ⟨(resolved o (inside o member)).scalar, (resolved o (inside o member)).free⟩)
        fun items member => (resolved _ (inside _ member)).fixed items rfl
      exact ⟨plain, scalar, free, nofun⟩

theorem resolved_sum {terms : List Expr} (resolved : ∀ t ∈ terms, Resolved t)
    (run : terms.foldlM add .zero = .ok r) : Resolved r := by
  refine foldlM_keeps resolved_zero (fun total t next member kept sum => ?_) run
  have run : Operator.assemble .sum [total, t] = .ok next := sum
  exact resolved_assembled rfl (operands_pair kept (resolved t member)) run

theorem resolved_selected {component : Component} (typed : WellTyped e) (plain : Unlabelled e)
    (free : e.free = ∅) (kind : e.kind ≠ .multiIndex ∧ e.kind ≠ .listTensor)
    (run : e.selectAt component = .ok r) : Resolved r := by
  have notItems : ∀ items, e ≠ multiIndex items := fun items same => kind.1 (by rw [same]; rfl)
  unfold selectAt at run
  split at run
  · rename_i scalar
    cases run
    exact ⟨plain, List.isEmpty_iff.mp scalar, free, fun items same => absurd same (notItems items)⟩
  have run : e.subscript (component.map .fixed) = .ok r := (except_map_error_ok _ _ _).mp run
  have built : Built (fun _ => True) (· = e) r := Built.subscript trivial (.given rfl) run
  obtain ⟨scalar, subscribed⟩ := subscript_type typed run
  have unlabelled : Unlabelled r := built_unlabelled (fun x same => by rw [same]; exact plain) built
  refine ⟨unlabelled, scalar, subscribes_fixed subscribed free (by simp), ?_⟩
  have cases := subscript_cases run
  generalize component.map IndexItem.fixed = items at cases
  cases cases with
  | whole => exact fun items same => absurd same (notItems items)
  | zero => nofun
  | identity =>
      unfold int
      split <;> nofun
  | entry => exact absurd rfl kind.2
  | node => nofun

/-- What expansion results in is resolved. -/
theorem expands_resolved (orderly : Orderly e) (expands : Expands e scope r) : Resolved r := by
  induction expands with
  | zero => exact resolved_zero
  | multiIndex assigned =>
      exact ⟨unlabelled_terminal _, rfl, rfl, fun items same i => by
        cases same
        exact resolved_fixed assigned i⟩
  | @terminal data _ _ notZero notItems _ selected =>
      refine resolved_selected (.terminal data) (unlabelled_terminal data) ?_ ⟨notItems, ?_⟩ selected
      · cases data <;> first | rfl | exact absurd rfl notZero
      · cases data <;> simp [Expr.kind, Terminal.kind]
  | labelled _ ih => exact ih (orderly.operand List.mem_cons_self)
  | conditional _ _ _ run test first second =>
      have resolved : ∀ v ∈ [_, _, _], Resolved v := List.forall_mem_cons.mpr
        ⟨test (orderly.operand (by simp [operands])), operands_pair
          (first (orderly.operand (by simp [operands]))) (second (orderly.operand (by simp [operands])))⟩
      rw [reassemble_formed orderly.formed fun v member => (resolved v member).plain,
        except_map_error_ok] at run
      exact resolved_assembled rfl resolved run
  | indexSum _ length _ total ih =>
      refine resolved_sum (fun t member => ?_) total
      obtain ⟨position, pair⟩ := partner_left length member
      exact ih position t pair (orderly.operand List.mem_cons_self)
  | indexed _ _ ih | componentTensor _ _ ih => exact ih (orderly.operand List.mem_cons_self)
  | listTensor _ found _ ih => exact ih (orderly.operand (List.mem_of_getElem? found))
  | @grad f _ shape free _ kept _ selected =>
      have none := gradient_closed orderly.typed orderly.closed kept
      exact resolved_selected orderly.typed (orderly.plain _ (.refl _) rfl) none (by simp [Expr.kind, Operator.kind])
        selected
  | @pointwise op operands results _ _ _ _ pointwise length _ run ih =>
      have resolved : ∀ v ∈ results, Resolved v := fun v member => by
        obtain ⟨o, pair⟩ := partner_left length member
        exact ih o v pair (orderly.operand (List.of_mem_zip pair).1)
      rw [reassemble_formed orderly.formed fun v member => (resolved v member).plain,
        except_map_error_ok] at run
      exact resolved_assembled (by simp [Operator.isElementary, pointwise]) resolved run

end Orderly

section Nodes

variable {op : Operator} {xs : List Expr} {shape : Shape} {free : FreeIndices} {scope : Scope} {r : Expr}

/-- Subscripts are looked up whatever component is selected. -/
theorem expands_items_select {items : List IndexItem} {component : Component} :
    Expands (multiIndex items) (scope.select component) r ↔ Expands (multiIndex items) scope r := by
  constructor
  · intro expands
    cases expands with
    | multiIndex assigned => exact .multiIndex assigned
    | terminal _ notItems => exact absurd rfl notItems
  · intro expands
    cases expands with
    | multiIndex assigned => exact .multiIndex assigned
    | terminal _ notItems => exact absurd rfl notItems

/-- A node expands to what its operator makes of the results of its visits. -/
theorem expands_node (orderly : Orderly (.node op xs shape free)) (other : op ≠ .grad) :
    Expands (.node op xs shape free) scope r ↔ op.Makes xs scope r := by
  have again {results : List Expr} (plain : ∀ v ∈ results, Unlabelled v) :
      (Expr.node op xs shape free).reassemble op results = .ok r ↔ op.assemble results = .ok r := by
    rw [reassemble_formed orderly.formed plain, except_map_error_ok]
  have plain {o v : Expr} {inner : Scope} (member : o ∈ xs) (expands : Expands o inner v) :
      Unlabelled v := (expands_resolved (orderly.operand member) expands).plain
  constructor
  · intro expands
    cases expands with
    | conditional first second third made =>
        refine ⟨_, _, .conditional, .cons first (.cons second (.cons third .nil)), ?_⟩
        refine (again (List.forall_mem_cons.mpr ⟨?_, operands_pair ?_ ?_⟩)).mp made
        · exact plain (by simp) first
        · exact plain (by simp) second
        · exact plain (by simp) third
    | indexSum found length terms total =>
        refine ⟨_, _, .indexSum found, ?_, total⟩
        refine List.forall₂_map_left_iff.mpr (List.forall₂_iff_zip.mpr ⟨length, ?_⟩)
        exact fun {position term} pair => terms position term pair
    | indexed assigned inner => exact ⟨_, _, .indexed assigned, .cons inner .nil, rfl⟩
    | @componentTensor e _ indices _ _ _ length inner =>
        refine ⟨_, _, .componentTensor (by rwa [free_items]), .cons ?_ .nil, rfl⟩
        rwa [free_items]
    | listTensor selected found inner =>
        exact ⟨_, _, .listTensor selected found, .cons inner .nil, rfl⟩
    | grad => exact absurd rfl other
    | @pointwise _ _ results _ _ _ _ pointwise length each made =>
        have runs : List.Forall₂ (fun o v => Expands o scope v) xs results :=
          List.forall₂_iff_zip.mpr ⟨length, fun {o v} pair => each o v pair⟩
        have assembled := (again fun v member => by
          obtain ⟨o, inside, expands⟩ := pairs_member runs member
          exact plain inside expands).mp made
        by_cases along : op = .spatialDerivative
        · subst along
          obtain _ | ⟨types, _⟩ := orderly.typed
          cases types with
          | spatialDerivative =>
              obtain ⟨f', ii, rfl, first, second⟩ := pairs_two runs
              exact ⟨_, _, .spatialDerivative,
                .cons first (.cons (expands_items_select.mpr second) .nil), assembled⟩
        · refine ⟨_, results, .pointwise pointwise along, List.forall₂_map_left_iff.mpr runs, ?_⟩
          cases op <;> first | exact assembled | cases pointwise
  · rintro ⟨visits, results, visited, runs, made⟩
    have others : op ∉ [.indexed, .indexSum, .componentTensor, .listTensor] →
        op.assemble results = .ok r := fun elementary => by
      unfold Operator.combine at made
      split at made <;> first | exact made | simp at elementary
    cases visited with
    | conditional =>
        obtain ⟨test', a', b', rfl, first, second, third⟩ := pairs_three runs
        refine .conditional first second third ((again (List.forall_mem_cons.mpr
          ⟨plain (by simp) first, operands_pair (plain (by simp) second) (plain (by simp) third)⟩)).mpr made)
    | indexSum found =>
        have runs := List.forall₂_map_left_iff.mp runs
        obtain _ | ⟨types, _⟩ := orderly.typed
        refine .indexSum found runs.length_eq (fun position term pair => ?_) made
        exact List.forall₂_zip runs pair
    | indexed assigned =>
        obtain ⟨v, rfl, inner⟩ := pairs_one runs
        cases made
        exact .indexed assigned inner
    | @componentTensor e items length =>
        obtain ⟨v, rfl, inner⟩ := pairs_one runs
        cases made
        obtain _ | ⟨types, _⟩ := orderly.typed
        cases types with
        | componentTensor =>
            rw [free_items] at length inner
            exact .componentTensor length inner
    | listTensor selected found =>
        obtain ⟨v, rfl, inner⟩ := pairs_one runs
        cases made
        exact .listTensor selected found inner
    | spatialDerivative =>
        obtain ⟨f', ii, rfl, first, second⟩ := pairs_two runs
        have runs : List.Forall₂ (fun o v => Expands o scope v) [_, _] [f', ii] :=
          .cons first (.cons (expands_items_select.mp second) .nil)
        exact .pointwise rfl runs.length_eq (fun o v pair => List.forall₂_zip runs pair)
          ((again (operands_pair (plain (by simp) first) (plain (by simp) second))).mpr made)
    | pointwise pointwise =>
        have runs := List.forall₂_map_left_iff.mp runs
        refine .pointwise pointwise runs.length_eq (fun o v pair => List.forall₂_zip runs pair)
          ((again fun v member => ?_).mpr (others ?_))
        · obtain ⟨o, inside, expands⟩ := pairs_member runs member
          exact plain inside expands
        · cases op <;> first | (cases pointwise; done) | simp

end Nodes

/-- A component of the expression is selected, and everything that is free in it stands at a position
below its dimension. -/
structure Placed (e : Expr) (scope : Scope) : Prop where
  component : scope.component.Lies e.shape
  positions : ∀ i d, e.free.dim? i = some d → ∃ p, scope.position? i = some p ∧ p < d

section Visiting

variable {op : Operator} {e o r x y : Expr} {xs ts : List Expr} {shape : Shape} {free : FreeIndices}
  {scope inner : Scope} {visits : List (Expr × Scope)}

theorem Placed.fits (placed : Placed e scope) : Fits e scope := by
  refine ⟨placed.component, fun i d p known stands => ?_⟩
  obtain ⟨q, stands', below⟩ := placed.positions i d known
  exact Option.some.inj (stands'.symm.trans stands) ▸ below

theorem Placed.opens (placed : Placed e scope) (opens : Opens e scope o inner)
    (lies : inner.component.Lies o.shape) : Placed o inner := by
  refine ⟨lies, fun i d known => ?_⟩
  rcases opens i d known with ⟨outer, same⟩ | found
  · exact same ▸ placed.positions i d outer
  · exact found

theorem Placed.same (placed : Placed x scope) (shape : y.shape = x.shape) (free : y.free = x.free) :
    Placed y scope :=
  ⟨shape ▸ placed.component, free ▸ placed.positions⟩

theorem Placed.assigned (placed : Placed e scope) {indices : List Index}
    (inside : ∀ i ∈ indices, e.free.contains i = true) : scope.unassigned indices = [] := by
  refine List.filter_eq_nil_iff.mpr fun i member => ?_
  obtain ⟨d, known⟩ := FreeIndices.contains_iff.mp (inside i member)
  obtain ⟨p, stands, _⟩ := placed.positions i d known
  simp [stands]

theorem visits_operand (visited : op.Visits scope xs visits) : ∀ v ∈ visits, v.1 ∈ xs := by
  cases visited with
  | conditional => simp
  | indexSum =>
      intro v member
      obtain ⟨_, _, rfl⟩ := List.mem_map.mp member
      exact List.mem_cons_self
  | indexed | componentTensor => exact List.forall_mem_singleton.mpr List.mem_cons_self
  | listTensor _ found => exact List.forall_mem_singleton.mpr (List.mem_of_getElem? found)
  | spatialDerivative => simp
  | pointwise =>
      intro v member
      obtain ⟨o, inside, rfl⟩ := List.mem_map.mp member
      exact inside

/-- A node that is placed visits its operands where they are. -/
theorem visits_placed (types : op.Types xs shape free) (typed : ∀ o ∈ xs, WellTyped o)
    (placed : Placed (.node op xs shape free) scope) (visited : op.Visits scope xs visits) :
    ∀ v ∈ visits, Placed v.1 v.2 := by
  have here {o : Expr} {inner : Scope} (member : o ∈ xs) (binder : op ≠ .indexSum ∧ op ≠ .componentTensor)
      (same : inner.positions = scope.positions) (lies : inner.component.Lies o.shape) :
      Placed o inner :=
    placed.opens (opens_same (types_free types binder.1 binder.2 o member) same) lies
  cases visited with
  | @conditional test a b =>
      obtain ⟨scalar, first, second⟩ : test.shape = [] ∧ a.shape = shape ∧ b.shape = shape := by
        cases types with
        | conditional kind same => exact ⟨condition_scalar (typed test (by simp)) kind, rfl, same.symm⟩
      refine List.forall_mem_cons.mpr
        ⟨?_, List.forall_mem_cons.mpr ⟨?_, List.forall_mem_singleton.mpr ?_⟩⟩
      · exact here (by simp) (by simp) rfl (by rw [scalar]; exact .nil)
      · exact here (by simp) (by simp) rfl (first ▸ placed.component)
      · exact here (by simp) (by simp) rfl (second ▸ placed.component)
  | indexSum found =>
      intro v member
      obtain ⟨position, inside, rfl⟩ := List.mem_map.mp member
      cases types with
      | indexSum scalar =>
          refine placed.opens (opens_sum found (List.mem_range.mp inside)) ?_
          rw [scalar]
          exact placed.component
  | indexed assigned =>
      cases types with
      | indexed _ subscribed =>
          obtain ⟨component, resolved, lies⟩ := subscripts_stand subscribed placed.fits.positions assigned
          rw [resolved, fixed_items]
          exact List.forall_mem_singleton.mpr (here (by simp) (by simp) rfl lies)
  | componentTensor =>
      cases types with
      | componentTensor scalar _ binds =>
          rw [free_items]
          refine List.forall_mem_singleton.mpr (placed.opens (opens_bound binds placed.component) ?_)
          rw [scalar]
          exact .nil
  | listTensor selected found =>
      cases types with
      | listTensor _ same =>
          have lies := placed.component
          rw [selected] at lies
          obtain _ | ⟨_, lies⟩ := lies
          have member := List.mem_of_getElem? found
          refine List.forall_mem_singleton.mpr (here member (by simp) rfl ?_)
          exact (same _ member).1.symm ▸ lies
  | spatialDerivative =>
      cases types with
      | spatialDerivative =>
          exact List.forall_mem_cons.mpr ⟨here (by simp) (by simp) rfl placed.component,
            List.forall_mem_singleton.mpr ⟨.nil, nofun⟩⟩
  | pointwise pointwise along =>
      intro v member
      obtain ⟨o, inside, rfl⟩ := List.mem_map.mp member
      refine here inside ⟨?_, ?_⟩ rfl ?_
      · rintro rfl
        cases pointwise
      · rintro rfl
        cases pointwise
      · exact (pointwise_shapes types pointwise along o inside).symm ▸ placed.component

/-- Operands that are free in the same indices, and the same multi-index. -/
structure Parallel (op : Operator) (xs ts : List Expr) : Prop where
  free : List.Forall₂ (fun x t => t.free = x.free) xs ts
  along : op ∈ [.indexed, .indexSum, .componentTensor, .spatialDerivative] → xs.drop 1 = ts.drop 1

theorem Parallel.symm (parallel : Parallel op xs ts) : Parallel op ts xs :=
  ⟨(parallel.free.imp fun _ _ same => same.symm).flip, fun along => (parallel.along along).symm⟩

/-- Parallel operands are visited in the same scopes. -/
theorem visits_parallel (parallel : Parallel op xs ts) (visited : op.Visits scope xs visits) :
    ∃ visits', op.Visits scope ts visits' ∧
      List.Forall₂ (fun v v' => v'.2 = v.2 ∧ (v.1, v'.1) ∈ xs.zip ts) visits visits' := by
  obtain ⟨free, along⟩ := parallel
  cases visited with
  | conditional =>
      obtain ⟨test', a', b', rfl, _⟩ := pairs_three free
      exact ⟨_, .conditional, by simp⟩
  | indexSum found =>
      obtain ⟨summand', ii, rfl, same, _⟩ := pairs_two free
      obtain rfl : multiIndex _ = ii := by simpa using along (by simp)
      refine ⟨_, .indexSum (same.symm ▸ found), ?_⟩
      simp [List.forall₂_map_left_iff, List.forall₂_map_right_iff, List.forall₂_same]
  | indexed assigned =>
      obtain ⟨tensor', ii, rfl, _⟩ := pairs_two free
      obtain rfl : multiIndex _ = ii := by simpa using along (by simp)
      exact ⟨_, .indexed assigned, by simp⟩
  | componentTensor length =>
      obtain ⟨e', ii, rfl, _⟩ := pairs_two free
      obtain rfl : multiIndex _ = ii := by simpa using along (by simp)
      exact ⟨_, .componentTensor length, by simp⟩
  | @listTensor _ entry position _ selected found =>
      obtain ⟨inside, here⟩ := List.getElem?_eq_some_iff.mp found
      have inside' : position < ts.length := free.length_eq ▸ inside
      refine ⟨_, .listTensor selected (List.getElem?_eq_getElem inside'), .cons ⟨rfl, ?_⟩ .nil⟩
      rw [← here]
      exact List.mem_iff_getElem.mpr ⟨position, by rw [List.length_zip]; omega, List.getElem_zip⟩
  | spatialDerivative =>
      obtain ⟨f', ii, rfl, _⟩ := pairs_two free
      obtain rfl : multiIndex _ = ii := by simpa using along (by simp)
      exact ⟨_, .spatialDerivative, by simp⟩
  | pointwise pointwise other =>
      refine ⟨_, .pointwise pointwise other, ?_⟩
      rw [List.forall₂_map_left_iff, List.forall₂_map_right_iff, List.forall₂_iff_zip]
      exact ⟨free.length_eq, fun pair => ⟨rfl, pair⟩⟩

/-- What each operand expands to where it is visited, the parallel one does too. -/
theorem makes_parallel (parallel : Parallel op xs ts)
    (placed : ∀ visits, op.Visits scope xs visits → ∀ v ∈ visits, Placed v.1 v.2)
    (each : ∀ x t, (x, t) ∈ xs.zip ts → ∀ inner v, Placed x inner → Expands x inner v →
      Expands t inner v)
    (makes : op.Makes xs scope r) : op.Makes ts scope r := by
  obtain ⟨visits, results, visited, runs, made⟩ := makes
  obtain ⟨visits', visited', pairs⟩ := visits_parallel parallel visited
  refine ⟨visits', results, visited', ?_, made⟩
  have placed := placed visits visited
  clear visited visited' made
  induction runs generalizing visits' with
  | nil =>
      obtain rfl := List.forall₂_nil_left_iff.mp pairs
      exact .nil
  | cons expands _ ih =>
      obtain ⟨v', rest, ⟨same, pair⟩, remaining, rfl⟩ := List.forall₂_cons_left_iff.mp pairs
      obtain ⟨here, others⟩ := List.forall_mem_cons.mp placed
      refine .cons ?_ (ih rest remaining others)
      rw [same]
      exact each _ _ pair _ _ here expands

theorem items_run {items : List IndexItem}
    (assigned : scope.unassigned (items.filterMap IndexItem.free?) = []) :
    (multiIndex items).expandIn scope = .ok (multiIndex (items.map scope.resolve)) := by
  rw [Expr.multiIndex, expandIn]
  simp only [Terminal.expandIn, Scope.assigns, assigned, except_ok_bind]
  rfl

theorem terminal_runs {data : Terminal} (placed : Placed (.terminal data) scope)
    (expands : Expands (.terminal data) scope r) : (Expr.terminal data).expandIn scope = .ok r := by
  have fits := fits_runs placed.fits
  cases expands with
  | @zero shape free _ _ assigned =>
      have fits : scope.fits (zeros shape free) = .ok () := fits
      rw [expandIn]
      simp only [Terminal.expandIn, fits, Scope.assigns, assigned, except_ok_bind]
      rfl
  | multiIndex assigned => exact items_run assigned
  | terminal notZero notItems _ selected =>
      rw [expandIn]
      unfold Terminal.expandIn
      split
      · exact absurd rfl notZero
      · exact absurd rfl notItems
      · dsimp only
        rw [fits]
        exact selected

/-- Where it is placed, what an expression expands to is found. -/
theorem expands_runs (orderly : Orderly e) (placed : Placed e scope) (expands : Expands e scope r) :
    e.expandIn scope = .ok r := by
  induction e generalizing scope r with
  | terminal data => exact terminal_runs placed expands
  | labelled label body ih =>
      cases expands with
      | labelled expands =>
          rw [expandIn]
          exact ih (orderly.operand List.mem_cons_self) ⟨placed.component, placed.positions⟩ expands
  | node op xs shape free ih =>
      by_cases gradient : op = .grad
      · subst gradient
        cases expands with
        | grad kept length selected => rwa [expand_in_gradient kept length]
        | pointwise pointwise => cases pointwise
      obtain ⟨visits, results, visited, runs, made⟩ := (expands_node orderly gradient).mp expands
      obtain _ | ⟨types, typed⟩ := orderly.typed
      have places := visits_placed types typed placed visited
      have inside := visits_operand visited
      have plain : ∀ v ∈ results, Unlabelled v := fun v member => by
        obtain ⟨visit, listed, expands⟩ := pairs_member runs member
        exact (expands_resolved (orderly.operand (inside visit listed)) expands).plain
      have again (run : op.assemble results = .ok r) :
          (Expr.node op xs shape free).reassemble op results = .ok r := by
        rw [reassemble_formed orderly.formed plain, except_map_error_ok]
        exact run
      have ran : List.Forall₂ (fun v r => v.1.expandIn v.2 = .ok r) visits results :=
        pairs_imp runs fun v member r expands =>
          ih v.1 (inside v member) (orderly.operand (inside v member)) (places v member) expands
      clear runs
      cases visited with
      | conditional =>
          obtain ⟨test', a', b', rfl, first, second, third⟩ := pairs_three ran
          cases types with
          | conditional kind =>
              rw [expandIn, require_scalar_runs (condition_scalar (typed _ (by simp)) kind)]
              simp only [first, second, third, except_ok_bind]
              exact again made
      | indexSum found =>
          rw [expandIn]
          simp only [boundIndices, Expr.multiIndex, multiIndex?, except_ok_bind, IndexItem.free?,
            List.filterMap_cons, List.filterMap_nil, found]
          exact sum_terms_runs (List.forall₂_map_left_iff.mp ran) made
      | indexed assigned =>
          obtain ⟨v, rfl, inner⟩ := pairs_one ran
          cases made
          rw [expandIn, items_run assigned]
          exact inner
      | componentTensor length =>
          obtain ⟨v, rfl, inner⟩ := pairs_one ran
          cases made
          cases types with
          | componentTensor scalar =>
              rw [expandIn, require_scalar_runs scalar]
              simp only [boundIndices, Expr.multiIndex, multiIndex?, except_ok_bind]
              rw [if_neg (not_not.mpr length)]
              exact inner
      | listTensor selected found =>
          obtain ⟨v, rfl, inner⟩ := pairs_one ran
          cases made
          rw [expandIn]
          simp only [selected]
          exact expand_entry_runs found inner
      | spatialDerivative =>
          obtain ⟨f', ii, rfl, first, second⟩ := pairs_two ran
          refine expand_operands_runs (by simp) (by simp) rfl ?_ (again made)
          exact expand_all_runs (.cons first (.cons second .nil))
      | pointwise pointwise other =>
          have ran := List.forall₂_map_left_iff.mp ran
          by_cases quotient : op = .division
          · subst quotient
            cases types with
            | division =>
                have nothing : scope.component = [] := List.forall₂_nil_right_iff.mp placed.component
                obtain ⟨a', b', rfl, first, second⟩ := pairs_two ran
                rw [expandIn]
                simp only [nothing, List.isEmpty_nil, Bool.not_true, Bool.false_eq_true, if_false,
                  first, second, except_ok_bind]
                exact again made
          · refine expand_operands_runs ?_ ?_ ?_ (expand_all_runs ran) (again ?_)
            all_goals cases op <;> first | (cases pointwise; done) | exact made | rfl | simp_all

end Visiting

/-- The index is looked up somewhere in the expression when it is expanded. -/
inductive Seeks (i : Index) : Expr → Prop
  | zeros {shape : Shape} {free : FreeIndices} : free.contains i = true → Seeks i (zeros shape free)
  | items {items : List IndexItem} : .free i ∈ items → Seeks i (multiIndex items)
  | labelled {label : Label} {body : Expr} : Seeks i body → Seeks i (.labelled label body)
  | binder {op : Operator} {e : Expr} {items : List IndexItem} {shape : Shape} {free : FreeIndices} :
      op = .indexSum ∨ op = .componentTensor → .free i ∉ items → Seeks i e →
      Seeks i (.node op [e, multiIndex items] shape free)
  | operand {op : Operator} {operands : List Expr} {o : Expr} {shape : Shape} {free : FreeIndices} :
      op ∉ [.indexSum, .componentTensor, .grad] → o ∈ operands → Seeks i o →
      Seeks i (.node op operands shape free)

section Seeking

variable {e r : Expr} {scope scope' : Scope}

theorem unassigned_congr {indices : List Index}
    (agree : ∀ i ∈ indices, scope'.position? i = scope.position? i) :
    scope'.unassigned indices = scope.unassigned indices :=
  List.filter_congr fun i member => by rw [agree i member]

theorem resolve_congr {items : List IndexItem}
    (agree : ∀ i, .free i ∈ items → scope'.position? i = scope.position? i) :
    items.map scope'.resolve = items.map scope.resolve := by
  refine List.map_congr_left fun item member => ?_
  cases item with
  | fixed position => rfl
  | free i => rw [Scope.resolve, Scope.resolve, agree i member]

theorem unassigned_items_congr {items : List IndexItem}
    (agree : ∀ i, .free i ∈ items → scope'.position? i = scope.position? i) :
    scope'.unassigned (items.filterMap IndexItem.free?) =
      scope.unassigned (items.filterMap IndexItem.free?) := by
  refine unassigned_congr fun i member => ?_
  obtain ⟨item, inside, known⟩ := List.mem_filterMap.mp member
  cases item with
  | fixed position => cases known
  | free j =>
      cases known
      exact agree i inside

theorem bind_congr {i j : Index} {position : Nat}
    (agree : i ≠ j → scope'.position? i = scope.position? i) :
    (scope'.bind j position).position? i = (scope.bind j position).position? i := by
  by_cases same : i = j
  · subst same
    simp [Scope.bind, Scope.position?]
  · rw [bind_position same, bind_position same, agree same]

theorem bind_all_congr {i : Index} {bindings : List (Index × Nat)}
    (agree : i ∉ bindings.map (·.1) → scope'.position? i = scope.position? i) :
    (scope'.bindAll bindings).position? i = (scope.bindAll bindings).position? i := by
  induction bindings generalizing scope scope' with
  | nil => exact agree (by simp)
  | cons binding rest ih =>
      refine ih fun absent => bind_congr fun other => agree ?_
      simp only [List.map_cons, List.mem_cons, not_or]
      exact ⟨other, absent⟩

/-- What an expression expands to goes by the component and the positions of what is sought. -/
theorem expands_congr (expands : Expands e scope r) (component : scope'.component = scope.component)
    (agree : ∀ i, Seeks i e → scope'.position? i = scope.position? i) : Expands e scope' r := by
  induction expands generalizing scope' with
  | zero length assigned =>
      refine .zero (component ▸ length) ?_
      rw [unassigned_congr fun i member => agree i (.zeros (FreeIndices.mem_indices_iff.mp member)),
        assigned]
  | @multiIndex items scope assigned =>
      have same : ∀ i, .free i ∈ items → scope'.position? i = scope.position? i := fun i member =>
        agree i (.items member)
      rw [← resolve_congr same]
      exact .multiIndex ((unassigned_items_congr same).trans assigned)
  | terminal notZero notItems length selected =>
      exact .terminal notZero notItems (component ▸ length) (component ▸ selected)
  | labelled _ ih => exact .labelled (ih component fun i seeks => agree i (.labelled seeks))
  | conditional _ _ _ made first second third =>
      refine .conditional (first rfl ?_) (second component ?_) (third component ?_) made
      all_goals exact fun i seeks => agree i (.operand (by simp) (by simp) seeks)
  | @indexSum summand r index dim shape free scope terms found length _ total ih =>
      refine .indexSum found length (fun position term pair => ih position term pair component ?_) total
      refine fun i seeks => bind_congr fun other => agree i (.binder (.inl rfl) (by simpa using other) seeks)
  | @indexed tensor r items shape free scope assigned _ ih =>
      have same : ∀ i, .free i ∈ items → scope'.position? i = scope.position? i := fun i member =>
        agree i (.operand (by simp) (List.mem_cons_of_mem _ List.mem_cons_self) (.items member))
      refine .indexed ((unassigned_items_congr same).trans assigned) (ih ?_ fun i seeks =>
        agree i (.operand (by simp) List.mem_cons_self seeks))
      rw [resolve_congr same]
      rfl
  | @componentTensor e r indices shape free scope length _ ih =>
      refine .componentTensor (component ▸ length) (ih rfl fun i seeks => ?_)
      rw [component]
      refine bind_all_congr fun absent => agree i (.binder (.inr rfl) (fun member => absent ?_) seeks)
      rw [List.map_fst_zip (by omega)]
      simpa using member
  | listTensor selected found _ ih =>
      exact .listTensor (component ▸ selected) found (ih rfl fun i seeks =>
        agree i (.operand (by simp) (List.mem_of_getElem? found) seeks))
  | grad kept length selected => exact .grad kept (component ▸ length) (component ▸ selected)
  | @pointwise op operands results r shape free scope pointwise length _ made ih =>
      refine .pointwise pointwise length (fun o v pair => ih o v pair component fun i seeks => ?_) made
      refine agree i (.operand ?_ (List.of_mem_zip pair).1 seeks)
      cases op <;> first | (cases pointwise; done) | simp

end Seeking

end Expr

end FormCalculus
