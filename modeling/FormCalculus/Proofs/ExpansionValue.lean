import FormCalculus.Proofs.ExpansionShape
import FormCalculus.Proofs.ReadingBuild

/-!
Index expansion keeps values: every component of what it returns has the value of that component
of the expression, read with sums over summed indices and with bound indices as the innermost
binder says.
-/
set_option autoImplicit false

namespace FormCalculus

open Expr

namespace Reading

variable {K : Type} [Field K] (M : Reading K)

/-- A multi-index as an operand is read by the positions of its items. -/
def Positional : Prop := ∀ ρ ρ' items items',
  items.map (IndexItem.position ρ) = items'.map (IndexItem.position ρ') →
    M.items ρ items = M.items ρ' items'

/-- Components that a terminal identifies have one value. -/
def Symmetric : Prop := ∀ s data component,
  M.field s data ((terminal data).aliased component) = M.field s data component

variable {M} {s : Option Side} {ρ ρ' : Assignment} {c : Component}

/-- What an elementary operator makes of its operands has the value of its node over them. -/
theorem value_assemble [Folding] (exact : M.Exact) {op : Operator} {operands : List Expr} {r : Expr}
    (elementary : op.isElementary = true) (other : op ≠ .spatialDerivative)
    (run : op.assemble operands = .ok r) :
    M.value r s ρ c = op.denote M operands (operands.map M.value) s ρ c := by
  unfold Operator.assemble at run
  split at run
  all_goals first | (cases elementary; done) | skip
  · exact M.value_add exact run
  · exact M.value_scalar_product exact run
  · exact M.value_scalar_quotient exact run
  · exact M.value_pow exact run
  · exact M.value_sqrt exact run
  · obtain ⟨free, _, rfl⟩ := conditional_cases run
    rw [value_node]
  · obtain ⟨free, _, rfl⟩ := condition_cases run
    rw [value_node]
  · exact absurd rfl other
  · cases run
    rfl
  · cases run

theorem value_reassembled [Folding] (exact : M.Exact) {op : Operator} {operands results : List Expr}
    {shape : Shape} {free : FreeIndices} {r : Expr} (elementary : op.isElementary = true)
    (other : op ≠ .spatialDerivative) (plain : ∀ o ∈ results, Unlabelled o)
    (run : (Expr.node op operands shape free).reassemble op results = .ok r) :
    M.value r s ρ c = op.denote M results (results.map M.value) s ρ c := by
  unfold reassemble reuseOr at run
  split at run
  · rename_i same
    cases (except_pure_ok _ _).mp run
    have kept := has_operands_eq plain same
    subst kept
    rw [value_node]
  · exact value_assemble exact elementary other ((except_map_error_ok _ _ _).mp run)

/-- A node reads its operands at its own component, on its side or on the one it restricts to. -/
theorem denote_pointwise {op : Operator} {operands results : List Expr} {shape : Shape}
    {free : FreeIndices} (types : op.Types operands shape free) (pointwise : op.isPointwise = true)
    (other : op ≠ .spatialDerivative)
    (same : List.Forall₂ (fun o v => ∀ s, M.value v s ρ' [] = M.value o s ρ c) operands results) :
    op.denote M results (results.map M.value) s ρ' [] =
      op.denote M operands (operands.map M.value) s ρ c := by
  cases types with
  | sum | product | division | power =>
      obtain _ | ⟨first, _ | ⟨second, _ | _⟩⟩ := same
      simp [Operator.denote, first, second]
  | sqrt | restricted =>
      obtain _ | ⟨first, _ | _⟩ := same
      simp [Operator.denote, first]
  | condition arity checks dims =>
      clear arity checks dims
      show M.comparison _ _ = M.comparison _ _
      congr 1
      induction same with
      | nil => rfl
      | cons first _ ih => simp_all
  | spatialDerivative => exact absurd rfl other
  | _ => cases pointwise

/-- A sum of terms has the sum of their values. -/
theorem value_terms [Folding] (exact : M.Exact) {terms : List Expr} {start r : Expr}
    (run : terms.foldlM add start = .ok r) :
    M.value r s ρ c = M.value start s ρ c + (terms.map fun t => M.value t s ρ c).sum := by
  induction terms generalizing start with
  | nil =>
      cases (except_pure_ok _ _).mp run
      simp
  | cons t terms ih =>
      rw [List.foldlM_cons, except_bind_ok] at run
      obtain ⟨total, first, rest⟩ := run
      rw [ih rest, M.value_add exact first, List.map_cons, List.sum_cons, add_assoc]

/-- The assignment gives every index the position it has in the scope. -/
def Agrees (scope : Scope) (ρ : Assignment) : Prop :=
  ∀ i position, scope.position? i = some position → ρ i = position

theorem agrees_bind {scope : Scope} (agrees : Agrees scope ρ) (i : Index) (position : Nat) :
    Agrees (scope.bind i position) (ρ.bind i position) := by
  intro j known found
  by_cases same : j = i
  · subst same
    have found : some position = some known := by simpa [Scope.bind, Scope.position?] using found
    cases found
    exact Function.update_self j position ρ
  · rw [bind_position same] at found
    exact (Function.update_of_ne same position ρ).trans (agrees j known found)

theorem agrees_bind_all {scope : Scope} {bindings : List (Index × Nat)} (agrees : Agrees scope ρ) :
    Agrees (scope.bindAll bindings) (ρ.bindAll bindings) := by
  induction bindings generalizing scope ρ with
  | nil => exact agrees
  | cons binding rest ih => exact ih (agrees_bind agrees binding.1 binding.2)

/-- Where every index has a position, items resolve to the positions they have. -/
theorem resolved_positions {scope : Scope} {items : List IndexItem} (agrees : Agrees scope ρ)
    (assigned : scope.unassigned (items.filterMap IndexItem.free?) = []) :
    items.map scope.resolve = (items.map (IndexItem.position ρ)).map .fixed := by
  rw [List.map_map]
  refine List.map_congr_left fun item member => ?_
  cases item with
  | fixed position => rfl
  | free index =>
      obtain ⟨position, found⟩ := unassigned_none assigned
        (List.mem_filterMap.mpr ⟨.free index, member, rfl⟩)
      simp [Scope.resolve, found, IndexItem.position, agrees index position found]

theorem fixed_positions (ρ : Assignment) (component : Component) :
    (component.map IndexItem.fixed).map (IndexItem.position ρ) = component := by
  rw [List.map_map]
  exact List.map_id component

/-- A terminal other than a multi-index has one value under all assignments, and the same value at
the components that it identifies. -/
theorem value_aliased (symmetric : M.Symmetric) {data : Terminal} (notItems : data.kind ≠ .multiIndex)
    (ρ' : Assignment) :
    M.value (terminal data) s ρ' ((terminal data).aliased c) = M.value (terminal data) s ρ c := by
  cases data with
  | multiIndex => exact absurd rfl notItems
  | argument a => exact symmetric s (.argument a) c
  | coefficient f => exact symmetric s (.coefficient f) c
  | _ => rfl

theorem value_selected (symmetric : M.Symmetric) {data : Terminal} {r : Expr}
    (notItems : data.kind ≠ .multiIndex) (length : c.length = data.shape.length)
    (run : (terminal data).selectAt ((terminal data).aliased c) = .ok r) :
    M.value r s ρ' [] = M.value (terminal data) s ρ c := by
  rw [← value_aliased symmetric notItems ρ']
  unfold selectAt at run
  split at run
  · rename_i scalar
    cases run
    have scalar : data.shape = [] := List.isEmpty_iff.mp scalar
    rw [scalar] at length
    rw [List.eq_nil_of_length_eq_zero length]
    exact (value_aliased symmetric notItems _).symm
  · exact M.value_component ((except_map_error_ok _ _ _).mp run)

/-- Nothing in it is a derivative of a kind that expansion lets through. -/
def DerivativeFree (e : Expr) : Prop := ∀ x, Within x e → x.kind ≠ .grad ∧ x.kind ≠ .spatialDerivative

theorem DerivativeFree.operand {o e : Expr} (free : DerivativeFree e) (member : o ∈ e.operands) :
    DerivativeFree o :=
  fun x inside => free x (.step member inside)

theorem derivative_free_of_operands {e : Expr} (other : e.kind ≠ .grad ∧ e.kind ≠ .spatialDerivative)
    (operands : ∀ o ∈ e.operands, DerivativeFree o) : DerivativeFree e := by
  intro x inside
  cases inside with
  | refl => exact other
  | step member inside => exact operands _ member x inside

theorem DerivativeFree.grads_bare {e : Expr} (free : DerivativeFree e) : GradsBare e :=
  fun g inside grad => absurd grad (free g inside).1

theorem expands_unlabelled [Folding] {e r : Expr} {scope : Scope} (expands : Expands e scope r)
    (typed : WellTyped e) (free : DerivativeFree e) : Unlabelled r :=
  (expands_settled expands typed free.grads_bare).bare.unlabelled

/-- What an expression expands to has, under any assignment, the value of the expression at the
component and under the assignments of the scope. -/
theorem value_expands [Folding] (exact : M.Exact) (symmetric : M.Symmetric) (positional : M.Positional)
    {e r : Expr} {scope : Scope} (expands : Expands e scope r) (typed : WellTyped e)
    (free : DerivativeFree e) (s : Option Side) {ρ : Assignment} (ρ' : Assignment)
    (agrees : Agrees scope ρ) : M.value r s ρ' [] = M.value e s ρ scope.component := by
  induction expands generalizing s ρ ρ' with
  | zero => rfl
  | multiIndex assigned =>
      refine positional _ _ _ _ ?_
      rw [resolved_positions agrees assigned, fixed_positions]
  | terminal _ notItems length selected => exact value_selected symmetric notItems length selected
  | labelled _ ih =>
      exact ih (typed.operand List.mem_cons_self) (free.operand List.mem_cons_self) s ρ' agrees
  | @conditional test a b test' a' b' _ _ _ scope first second third run ihTest ihTrue ihFalse =>
      have typed (o : Expr) (member : o ∈ [test, a, b]) := typed.operand member
      have free (o : Expr) (member : o ∈ [test, a, b]) := free.operand member
      have testSame := ihTest (typed test (by simp)) (free test (by simp)) s ρ' agrees
      have trueSame := ihTrue (typed a (by simp)) (free a (by simp)) s ρ' agrees
      have falseSame := ihFalse (typed b (by simp)) (free b (by simp)) s ρ' agrees
      have plain : ∀ o ∈ [test', a', b'], Unlabelled o := List.forall_mem_cons.mpr
        ⟨expands_unlabelled first (typed _ (by simp)) (free _ (by simp)), operands_pair
          (expands_unlabelled second (typed _ (by simp)) (free _ (by simp)))
          (expands_unlabelled third (typed _ (by simp)) (free _ (by simp)))⟩
      refine (value_reassembled exact rfl (by decide) plain run).trans ?_
      rw [value_node]
      show (if M.holds _ then _ else _) = if M.holds _ then _ else _
      rw [testSame, trueSame, falseSame]
      rfl
  | @indexSum summand _ index dim _ _ scope terms found length each total ih =>
      have values : (List.range dim).map (fun position =>
          M.value summand s (ρ.bind index position) scope.component) =
          terms.map fun t => M.value t s ρ' [] :=
        map_eq_of_pairs length fun position t pair => (ih position t pair
          (typed.operand List.mem_cons_self) (free.operand List.mem_cons_self) s ρ'
          (agrees_bind agrees index position)).symm
      rw [value_terms exact total, ← values, sum_map_range, value_node]
      show 0 + _ = ∑ position ∈ Finset.range ((summand.free.dim? index).getD 0), _
      rw [found, zero_add]
      rfl
  | @indexed tensor _ items _ _ scope assigned _ ih =>
      rw [ih (typed.operand List.mem_cons_self) (free.operand List.mem_cons_self) s ρ' agrees]
      show M.value tensor s ρ ((items.map scope.resolve).filterMap IndexItem.fixed?) = _
      rw [resolved_positions agrees assigned, fixed_items]
      rfl
  | componentTensor length _ ih =>
      rw [ih (typed.operand List.mem_cons_self) (free.operand List.mem_cons_self) s ρ'
        (agrees_bind_all agrees), M.value_component_tensor length.symm]
      rfl
  | listTensor selected found _ ih =>
      have member := List.mem_of_getElem? found
      rw [ih (typed.operand member) (free.operand member) s ρ' agrees, selected, value_node]
      simp [Operator.denote, found, Scope.select]
  | grad => exact absurd rfl (free _ (.refl _)).1
  | @pointwise op operands results _ _ _ scope pointwise length each run ih =>
      have other : op ≠ .spatialDerivative := fun same => by
        subst same
        exact absurd rfl (free _ (.refl _)).2
      have plain : ∀ v ∈ results, Unlabelled v := by
        intro v member
        obtain ⟨o, pair⟩ := partner_left length member
        have inside := (List.of_mem_zip pair).1
        exact expands_unlabelled (each o v pair) (typed.operand inside) (free.operand inside)
      have same : List.Forall₂ (fun o v => ∀ s, M.value v s ρ' [] = M.value o s ρ scope.component)
          operands results :=
        List.forall₂_iff_zip.mpr ⟨length, fun {o v} pair s => by
          have inside := (List.of_mem_zip pair).1
          exact ih o v pair (typed.operand inside) (free.operand inside) s ρ' agrees⟩
      obtain _ | ⟨types, _⟩ := typed
      rw [value_reassembled exact (by simp [Operator.isElementary, pointwise]) other plain run,
        denote_pointwise types pointwise other same, value_node]

/-- A table has, at a component of its shape, the value of its entry. -/
theorem value_tabulate {entry : Component → Except TransformError Expr} {shape : Shape}
    {position : Component} {r : Expr} (run : tabulate entry shape position = .ok r)
    (inside : List.Forall₂ (· < ·) c shape) :
    ∃ v, entry (position ++ c) = .ok v ∧ M.value r s ρ c = M.value v s ρ [] := by
  induction inside generalizing position r with
  | nil => exact ⟨r, by rwa [List.append_nil], rfl⟩
  | @cons next dim rest shape small inside ih =>
      rw [tabulate] at run
      simp only [except_bind_ok, except_map_error_ok] at run
      obtain ⟨entries, runs, list⟩ := run
      have length : dim = entries.length := by simpa using (mapM_ok runs).length_eq
      have found := List.getElem?_eq_getElem (length ▸ small : next < entries.length)
      obtain ⟨place, at_place, selected⟩ := mapM_get runs found
      obtain ⟨_, rfl⟩ := List.getElem?_eq_some_iff.mp at_place
      rw [List.getElem_range] at selected
      obtain ⟨v, run, same⟩ := ih selected
      refine ⟨v, by rwa [List.append_assoc] at run, ?_⟩
      rw [M.value_list_tensor list, found]
      exact same

end Reading

/-- Every component of what an expression expands to has the value of that component of the
expression. -/
theorem expand_value {K : Type} [Field K] (M : Reading K) (symmetric : M.Symmetric)
    (positional : M.Positional) {e r : Expr} (made : Constructible e)
    (free : Reading.DerivativeFree e) (run : e.expand = .ok r)
    (exact : M.FoldsExactly fun folding => @Expr.expand folding e) {c : Component}
    (inside : List.Forall₂ (· < ·) c e.shape) (s : Option Side) (ρ : Assignment) :
    M.value r s ρ c = M.value e s ρ c := by
  -- The run under exact folds is the same run, and each of its folds keeps values.
  have run : @Expr.expand M.exactFolding e = .ok r := exact.trans run
  let folding := M.exactFolding
  obtain ⟨v, found, same⟩ := Reading.value_tabulate (M := M) (s := s) (ρ := ρ) run inside
  have typed := made.well_typed
  rw [same, Reading.value_expands M.exact_folding_exact symmetric positional
    (expand_in_expands typed found) typed free s ρ (fun _ _ found => nomatch found)]
  rfl

/-- Every field has the components 2, 3, and so on, unless it aliases some of them. -/
def sampleReading : Reading ℚ where
  field _ data component :=
    match data with
    | .coefficient ⟨_, ⟨_, _, none⟩⟩ => component.sum + 2
    | _ => 1
  real value := if value.isOne then 1 else 0
  items _ items := items.length
  pow x _ := x
  sqrt x := x
  comparison _ _ := 0
  holds _ := true
  real_one _ one := if_pos one
  pow_one _ := rfl
  sqrt_zero := rfl

theorem sample_reading_symmetric : sampleReading.Symmetric := by
  intro s data component
  cases data with
  | coefficient f =>
      obtain ⟨number, shape, gdim, symmetry⟩ := f
      cases symmetry with
      | none => rfl
      | some map => rfl
  | _ => rfl

theorem sample_reading_positional : sampleReading.Positional := by
  intro ρ ρ' items items' same
  have length := congrArg List.length same
  rw [List.length_map, List.length_map] at length
  exact congrArg Nat.cast length

/-- The square of the length of the field with components 2 and 3 stays 13. -/
theorem expand_value_of_square : ∃ r, sampleSquare.expand = .ok r ∧
    sampleReading.value r none (fun _ => 0) [] = 13 := by
  have run (folding : Folding) : @Expr.expand folding sampleSquare = .ok (.node .sum
      [.node .product [samplePart 0, samplePart 0] [] ∅,
        .node .product [samplePart 1, samplePart 1] [] ∅] [] ∅) := by cbv
  have leaf (data : Terminal) : Reading.DerivativeFree (.terminal data) :=
    Reading.derivative_free_of_operands (by cases data <;> exact ⟨by rintro ⟨⟩, by rintro ⟨⟩⟩)
      (by simp [operands])
  have component : Reading.DerivativeFree sampleAt :=
    Reading.derivative_free_of_operands ⟨by rintro ⟨⟩, by rintro ⟨⟩⟩ (operands_pair (leaf _) (leaf _))
  have product := Reading.derivative_free_of_operands
    (e := .node .product [sampleAt, sampleAt] [] (.single sampleIndex 2)) ⟨by rintro ⟨⟩, by rintro ⟨⟩⟩
    (operands_pair component component)
  have free : Reading.DerivativeFree sampleSquare :=
    Reading.derivative_free_of_operands ⟨by rintro ⟨⟩, by rintro ⟨⟩⟩ (operands_pair product (leaf _))
  refine ⟨_, run _, ?_⟩
  rw [expand_value sampleReading sample_reading_symmetric sample_reading_positional
    sample_square_constructible free (run _) ((run _).trans (run _).symm) .nil]
  have value (position : Nat) : sampleReading.value sampleAt none
      (Assignment.bind (fun _ => 0) sampleIndex position) [] = position + 2 := by
    have here : Assignment.bind (fun _ => 0) sampleIndex position sampleIndex = position :=
      Function.update_self ..
    show ((([Assignment.bind (fun _ => 0) sampleIndex position sampleIndex] : List Nat).sum : Nat) : ℚ)
      + 2 = _
    rw [here, List.sum_singleton]
  show ∑ position ∈ Finset.range 2, sampleReading.value sampleAt none
      (Assignment.bind (fun _ => 0) sampleIndex position) [] * sampleReading.value sampleAt none
      (Assignment.bind (fun _ => 0) sampleIndex position) [] = 13
  simp only [value]
  norm_num [Finset.sum_range_succ]

end FormCalculus
