import FormCalculus.Proofs.ExpandingParts
import FormCalculus.Proofs.RenumberedLowering

/-!
Expanding renumbered expressions. An index is expanded at its positions, whatever its number, and the
operands of sums and products are sorted again when no index is left in them: both expansions are the
same.
-/
set_option autoImplicit false

namespace FormCalculus

open FormCalculus.Expr

namespace Renumbering

variable (ρ : Renumbering)

/-- The scope in which the renumbered indices have the positions of the indices. -/
def scope (scope : Scope) : Scope := ⟨scope.component, scope.positions.map ρ.entry⟩

@[simp] theorem scope_position (scope : Scope) (i : Index) :
    (ρ.scope scope).position? (ρ.index i) = scope.position? i := ρ.lookup_entry scope.positions i

theorem scope_bind_all (scope : Scope) (indices : List Index) (positions : List Nat) :
    (ρ.scope scope).bindAll ((indices.map ρ.index).zip positions) =
      ρ.scope (scope.bindAll (indices.zip positions)) := by
  induction indices generalizing scope positions with
  | nil => rfl
  | cons i rest ih =>
      cases positions with
      | nil => rfl
      | cons position others => exact ih (scope.bind i position) others

@[simp] theorem scope_unassigned (scope : Scope) (indices : List Index) :
    (ρ.scope scope).unassigned (indices.map ρ.index) = (scope.unassigned indices).map ρ.index := by
  unfold Scope.unassigned
  rw [List.filter_map]
  congr 1
  exact List.filter_congr fun i _ => by rw [Function.comp, scope_position]

theorem scope_assigns (scope : Scope) (indices : List Index) (node node' : Expr) :
    Agree (fun _ _ => scope.unassigned indices = []) (scope.assigns indices node)
      ((ρ.scope scope).assigns (indices.map ρ.index) node') := by
  unfold Scope.assigns
  rw [scope_unassigned]
  cases scope.unassigned indices with
  | nil => exact .ok rfl
  | cons => exact .error

theorem scope_resolve (scope : Scope) (item : IndexItem) :
    (ρ.scope scope).resolve (ρ.item item) = ρ.item (scope.resolve item) := by
  cases item with
  | fixed => rfl
  | free i =>
      rw [item, Scope.resolve, scope_position, Scope.resolve]
      cases scope.position? i <;> rfl

/-- Subscripts whose indices all have positions are the same positions renumbered. -/
theorem scope_resolved {scope : Scope} {items : List IndexItem}
    (assigned : scope.unassigned (items.filterMap IndexItem.free?) = []) :
    (items.map ρ.item).map (ρ.scope scope).resolve = items.map scope.resolve := by
  have resolved : (items.map ρ.item).map (ρ.scope scope).resolve =
      (items.map scope.resolve).map ρ.item := by
    rw [List.map_map, List.map_map]
    exact List.map_congr_left fun item _ => ρ.scope_resolve scope item
  rw [resolved]
  exact ρ.items_fixed fun i member => absurd member (resolved_fixed assigned i)

end Renumbering

theorem Renumbered.multi_index {ρ : Renumbering} {g : Nat} {items : List IndexItem} {x : Expr}
    (renumbered : Renumbered ρ g (multiIndex items) x) : x = multiIndex (items.map ρ.item) := by
  cases renumbered with
  | items => rfl
  | terminal _ other => exact absurd rfl other

section

variable [Folding] {e r : Expr} {op : Operator} {xs vs ws : List Expr} {scope scope' : Scope}

/-- Expansion makes no labels. -/
theorem expand_in_unlabelled (typed : WellTyped e) (plain : Unlabelled e)
    (run : e.expandIn scope = .ok r) : Unlabelled r := by
  intro x inside
  rcases expands_descends (expand_in_expands typed run) x inside with old | ⟨label, _⟩
  · exact plain x old
  · exact label

theorem expand_all_agrees
    (pairs : List.Forall₂ (fun x v => Agree Eq (x.expandIn scope) (v.expandIn scope')) xs vs) :
    Agree Eq (expandAll xs scope) (expandAll vs scope') := by
  induction pairs with
  | nil => exact .refl _
  | cons first _ ih =>
      rw [expandAll, expandAll]
      exact first.bind fun _ _ head => ih.bind fun _ _ rest => .pure (by rw [head, rest])

theorem expand_all_reordered (reordered : Reordered op vs ws) :
    Agree (Reordered op) (expandAll vs scope) (expandAll ws scope) := by
  obtain rfl | ⟨commutes, a, b, rfl, rfl⟩ := reordered
  · exact (Agree.refl _).mono fun _ _ same => .inl same.symm
  · simp only [expandAll]
    cases a.expandIn scope with
    | error =>
        cases b.expandIn scope with
        | error => exact .error
        | ok => exact .error
    | ok r =>
        cases b.expandIn scope with
        | error => exact .error
        | ok s => exact .ok (.inr ⟨commutes, r, s, rfl, rfl⟩)

theorem expand_entry_agrees {node node' : Expr} {position ahead : Nat}
    (pairs : List.Forall₂ (fun x v => Agree Eq (x.expandIn scope) (v.expandIn scope')) xs vs) :
    Agree Eq (expandEntry node position xs ahead scope) (expandEntry node' position vs ahead scope') := by
  induction pairs generalizing ahead with
  | nil => exact .error
  | cons first _ ih =>
      cases ahead with
      | zero =>
          rw [expandEntry, expandEntry]
          exact first
      | succ ahead =>
          rw [expandEntry, expandEntry]
          exact ih

omit [Folding] in
theorem tabulate_agrees {entry entry' : Component → Except TransformError Expr}
    (each : ∀ component, Agree Eq (entry component) (entry' component)) (shape : Shape)
    (position : Component) : Agree Eq (tabulate entry shape position) (tabulate entry' shape position) := by
  induction shape generalizing position with
  | nil =>
      rw [tabulate, tabulate]
      exact each position
  | cons dim shape ih =>
      have entries : Agree (List.Forall₂ Eq)
          ((List.range dim).mapM fun next => tabulate entry shape (position ++ [next]))
          ((List.range dim).mapM fun next => tabulate entry' shape (position ++ [next])) :=
        .mapM_same _ fun next => ih (position ++ [next])
      rw [tabulate, tabulate]
      refine entries.bind fun _ _ same => ?_
      rw [List.forall₂_eq_eq_eq] at same
      rw [same]
      exact .refl _

end

/-! The rules of expansion on two versions of a node. -/

section

variable [F : Folding] (complete : F.Complete) (symmetric : F.Symmetric) {ρ : Renumbering} {g : Nat}
  {op : Operator} {xs vs ws rs us : List Expr} {x x' : Expr} {shape : Shape} {free free' : FreeIndices}

/-- Both expand to the same, or neither does, in scopes that are renumbered into each other. -/
def ExpandsAlike (ρ : Renumbering) (x x' : Expr) : Prop :=
  ∀ scope, Agree Eq (x.expandIn scope) (x'.expandIn (ρ.scope scope))

theorem ExpandsAlike.results (alike : ExpandsAlike ρ x x') (typed : WellTyped x) (plain : Unlabelled x)
    (scope : Scope) : Agree (fun r r' => r' = r ∧ Unlabelled r) (x.expandIn scope)
      (x'.expandIn (ρ.scope scope)) :=
  ((alike scope).ensure (fun _ run => expand_in_unlabelled typed plain run)
    fun _ _ => trivial).mono fun _ _ ⟨same, unlabelled, _⟩ => ⟨same.symm, unlabelled⟩

omit F in
theorem require_scalar_agrees (renumbered : Renumbered ρ g x x') :
    Agree (fun _ _ => True) x.requireScalar x'.requireScalar := by
  unfold requireScalar
  rw [renumbered.scalar_eq]
  exact .ite Iff.rfl (.ok trivial) .error

theorem expand_zeros_alike : ExpandsAlike ρ (zeros shape free) (zeros shape (ρ.free free)) := by
  intro scope
  rw [zeros, zeros, expandIn, expandIn]
  simp only [Terminal.expandIn, Renumbering.free_indices]
  refine Agree.bind (R := fun _ _ => True) (.ite Iff.rfl (.ok trivial) .error) fun _ _ _ => ?_
  exact (ρ.scope_assigns scope free.indices _ _).bind fun _ _ _ => .refl _

theorem expand_items_alike (items : List IndexItem) :
    ExpandsAlike ρ (multiIndex items) (multiIndex (items.map ρ.item)) := by
  intro scope
  rw [multiIndex, multiIndex, expandIn, expandIn]
  simp only [Terminal.expandIn, Renumbering.free_items]
  refine (ρ.scope_assigns scope _ _ _).bind fun _ _ assigned => ?_
  rw [ρ.scope_resolved assigned]
  exact .refl _

/-- Other terminals are without indices. -/
theorem expand_terminal_alike {data : Terminal} (zero : data.kind ≠ .zero)
    (items : data.kind ≠ .multiIndex) : ExpandsAlike ρ (.terminal data) (.terminal data) := by
  intro scope
  rw [expandIn, expandIn]
  cases data with
  | zero => exact absurd rfl zero
  | multiIndex => exact absurd rfl items
  | _ => exact .refl _

theorem expand_index_sum_alike {summand summand' : Expr} {index : Index} {shape' : Shape}
    (renumbered : Renumbered ρ g summand summand') (alike : ExpandsAlike ρ summand summand') :
    ExpandsAlike ρ (.node .indexSum [summand, multiIndex [.free index]] shape free)
      (.node .indexSum [summand', multiIndex [.free (ρ.index index)]] shape' free') := by
  intro scope
  rw [expandIn, expandIn]
  simp only [boundIndices, Expr.multiIndex, multiIndex?, except_ok_bind, IndexItem.free?,
    List.filterMap_cons, List.filterMap_nil, renumbered.free_eq, Renumbering.free_dim]
  cases summand.free.dim? index with
  | none => exact .error
  | some dim =>
      refine .foldlM_same _ rfl ?_
      rintro total _ position rfl
      refine (alike (scope.bind index position)).bind fun term _ same => ?_
      rw [same]
      exact .refl _

theorem expand_indexed_alike {tensor tensor' : Expr} {items : List IndexItem} {shape' : Shape}
    (alike : ExpandsAlike ρ tensor tensor') :
    ExpandsAlike ρ (.node .indexed [tensor, multiIndex items] shape free)
      (.node .indexed [tensor', multiIndex (items.map ρ.item)] shape' free') := by
  intro scope
  rw [expandIn, expandIn]
  refine (expand_items_alike items scope).bind fun fixed _ same => ?_
  rw [← same]
  exact alike (scope.select _)

theorem expand_component_tensor_alike {e e' : Expr} {items : List IndexItem} {shape' : Shape}
    (renumbered : Renumbered ρ g e e') (alike : ExpandsAlike ρ e e') :
    ExpandsAlike ρ (.node .componentTensor [e, multiIndex items] shape free)
      (.node .componentTensor [e', multiIndex (items.map ρ.item)] shape' free') := by
  intro scope
  rw [expandIn, expandIn]
  refine (require_scalar_agrees renumbered).bind fun _ _ _ => ?_
  simp only [boundIndices, Expr.multiIndex, multiIndex?, except_ok_bind, Renumbering.free_items,
    List.length_map]
  refine .guard Iff.rfl ?_
  have bound := ρ.scope_bind_all scope (items.filterMap IndexItem.free?) scope.component
  exact bound ▸ alike _

theorem expand_list_tensor_alike {shape' : Shape} (alike : List.Forall₂ (ExpandsAlike ρ) xs vs) :
    ExpandsAlike ρ (.node .listTensor xs shape free) (.node .listTensor vs shape' free') := by
  intro scope
  rw [expandIn, expandIn]
  obtain ⟨component, positions⟩ := scope
  cases component with
  | nil => exact .error
  | cons position rest =>
      exact expand_entry_agrees (alike.imp fun _ _ both => both ⟨rest, positions⟩)

include complete symmetric

/-- Nodes are made again the same, whatever the order of the operands of a sum or product. -/
theorem reassemble_alike_results (formed : Formed (.node op xs shape free))
    (formed' : Formed (.node op ws shape free')) (reordered : Reordered op rs us)
    (plain : ∀ r ∈ rs, Unlabelled r) :
    Agree Eq ((Expr.node op xs shape free).reassemble op rs)
      ((Expr.node op ws shape free').reassemble op us) := by
  rw [reassemble_complete complete formed plain,
    reassemble_complete complete formed' fun u member => plain u (reordered.mem.mp member)]
  exact .mapError _ _ (.of_iff (assemble_in_any_order complete symmetric reordered plain))

/-- Operators without a rule of their own. -/
theorem expand_operands_alike (formed : Formed (.node op xs shape free))
    (formed' : Formed (.node op ws shape free')) (plain : ∀ o ∈ xs, Unlabelled o)
    (other : op ∉ [.conditional, .division, .indexSum, .indexed, .componentTensor, .listTensor, .grad])
    (alike : List.Forall₂ (ExpandsAlike ρ) xs vs) (reordered : Reordered op vs ws) :
    ExpandsAlike ρ (.node op xs shape free) (.node op ws shape free') := by
  intro scope
  have typed (o : Expr) (member : o ∈ xs) : WellTyped o := (formed.operand member).well_typed
  have results : Agree (fun rs us => Reordered op rs us ∧ (∀ r ∈ rs, Unlabelled r) ∧ True)
      (expandAll xs scope) (expandAll ws (ρ.scope scope)) := by
    -- First in the scope of the other node, then in the order of its operands.
    refine Agree.ensure (((expand_all_agrees (alike.imp fun _ _ both => both scope)).trans
      (expand_all_reordered reordered)).mono ?_) (fun rs run r member => ?_) fun _ _ => trivial
    · rintro rs us ⟨_, rfl, swapped⟩
      exact swapped
    · obtain ⟨o, inside, run⟩ := pairs_member (expand_all_ok run) member
      exact expand_in_unlabelled (typed o inside) (plain o inside) run
  simp only [List.mem_cons, List.not_mem_nil, or_false, not_or] at other
  rw [expandIn, expandIn]
  · refine .guard Iff.rfl (.guard Iff.rfl (results.bind fun rs us both => ?_))
    exact reassemble_alike_results complete symmetric formed formed' both.1 both.2.1
  all_goals simp_all

theorem expand_conditional_alike {test test' a a' b b' : Expr}
    (formed : Formed (.node .conditional [test, a, b] shape free))
    (formed' : Formed (.node .conditional [test', a', b'] shape free'))
    (plain : ∀ o ∈ [test, a, b], Unlabelled o) (renumbered : Renumbered ρ g test test')
    (first : ExpandsAlike ρ test test') (second : ExpandsAlike ρ a a') (third : ExpandsAlike ρ b b') :
    ExpandsAlike ρ (.node .conditional [test, a, b] shape free)
      (.node .conditional [test', a', b'] shape free') := by
  intro scope
  have results {x x' : Expr} (alike : ExpandsAlike ρ x x') (member : x ∈ [test, a, b]) :=
    alike.results (formed.operand member).well_typed (plain x member)
  rw [expandIn, expandIn]
  refine (require_scalar_agrees renumbered).bind fun _ _ _ => ?_
  refine (results first (by simp) (scope.select [])).bind fun t _ result => ?_
  refine (results second (by simp) scope).bind fun u _ result' => ?_
  refine (results third (by simp) scope).bind fun v _ result'' => ?_
  obtain ⟨rfl, unlabelled⟩ := result
  obtain ⟨rfl, unlabelled'⟩ := result'
  obtain ⟨rfl, unlabelled''⟩ := result''
  exact reassemble_alike_results complete symmetric formed formed' (.inl rfl)
    (List.forall_mem_cons.mpr ⟨unlabelled, operands_pair unlabelled' unlabelled''⟩)

theorem expand_division_alike {a a' b b' : Expr} (formed : Formed (.node .division [a, b] shape free))
    (formed' : Formed (.node .division [a', b'] shape free')) (plain : ∀ o ∈ [a, b], Unlabelled o)
    (first : ExpandsAlike ρ a a') (second : ExpandsAlike ρ b b') :
    ExpandsAlike ρ (.node .division [a, b] shape free) (.node .division [a', b'] shape free') := by
  intro scope
  have results {x x' : Expr} (alike : ExpandsAlike ρ x x') (member : x ∈ [a, b]) :=
    alike.results (formed.operand member).well_typed (plain x member)
  rw [expandIn, expandIn]
  refine .guard Iff.rfl ?_
  refine (results first (by simp) scope).bind fun u _ result => ?_
  refine (results second (by simp) scope).bind fun v _ result' => ?_
  obtain ⟨rfl, unlabelled⟩ := result
  obtain ⟨rfl, unlabelled'⟩ := result'
  exact reassemble_alike_results complete symmetric formed formed' (.inl rfl)
    (operands_pair unlabelled unlabelled')

/-- Renumbered expressions expand to the same in scopes that are renumbered in the same way. -/
theorem expand_in_renumbered (renumbered : Renumbered ρ g x x') (formed : Formed x)
    (formed' : Formed x') : ExpandsAlike ρ x x' := by
  induction renumbered with
  | zeros shape free => exact expand_zeros_alike
  | items items => exact expand_items_alike items
  | terminal zero items => exact expand_terminal_alike zero items
  | @node op xs vs ws shape free other length pairs reordered ih =>
      have whole : Renumbered ρ g (.node op xs shape free) (.node op ws shape (ρ.free free)) :=
        .node other length pairs reordered
      have plain (o : Expr) (member : o ∈ xs) : Unlabelled o := whole.unlabelled.1.operand member
      have both : List.Forall₂ (fun x v => Renumbered ρ g x v ∧ ExpandsAlike ρ x v) xs vs := by
        refine List.forall₂_iff_zip.mpr ⟨length, fun {x v} pair => ⟨pairs x v pair, ih x v pair ?_ ?_⟩⟩
        · exact formed.operand (List.of_mem_zip pair).1
        · exact formed'.operand (reordered.mem.mpr (List.of_mem_zip pair).2)
      have alike : List.Forall₂ (ExpandsAlike ρ) xs vs := both.imp fun _ _ => And.right
      by_cases generic :
        op ∉ [.conditional, .division, .indexSum, .indexed, .componentTensor, .listTensor, .grad]
      · exact expand_operands_alike complete symmetric formed formed' plain generic alike reordered
      -- The operators that are left keep the order of their operands.
      obtain rfl := reordered.resolve_right fun swapped => by
        rcases swapped.1 with rfl | rfl <;> simp at generic
      obtain _ | ⟨types, _⟩ := formed.well_typed
      cases types with
      | conditional =>
          obtain ⟨test', a', b', rfl, test, first, second⟩ := pairs_three both
          exact expand_conditional_alike complete symmetric formed formed' plain test.1 test.2 first.2
            second.2
      | division =>
          obtain ⟨a', b', rfl, first, second⟩ := pairs_two alike
          exact expand_division_alike complete symmetric formed formed' plain first second
      | indexSum =>
          obtain ⟨summand', subscripts, rfl, summand, items, _⟩ := pairs_two both
          obtain rfl := items.multi_index
          exact expand_index_sum_alike summand.1 summand.2
      | indexed =>
          obtain ⟨tensor', subscripts, rfl, tensor, items, _⟩ := pairs_two both
          obtain rfl := items.multi_index
          exact expand_indexed_alike tensor.2
      | componentTensor =>
          obtain ⟨e', subscripts, rfl, e, items, _⟩ := pairs_two both
          obtain rfl := items.multi_index
          exact expand_component_tensor_alike e.1 e.2
      | listTensor => exact expand_list_tensor_alike alike
      | grad => exact absurd rfl other
      | _ => simp at generic

/-- Renumbered expressions expand to the same. -/
theorem expand_renumbered (renumbered : Renumbered ρ g x x') (formed : Formed x) (formed' : Formed x') :
    Agree Eq x.expand x'.expand := by
  unfold expand
  rw [renumbered.shape_eq]
  exact tabulate_agrees (fun component =>
    expand_in_renumbered complete symmetric renumbered formed formed' ⟨component, []⟩) x.shape []

end

end FormCalculus
