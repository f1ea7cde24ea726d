import FormCalculus.Proofs.ExpansionValue
import FormCalculus.Proofs.Refolding
import FormCalculus.Proofs.Resembling

/-!
Expressions that differ only in their labels and in the order of operands expand alike, in every
scope.
-/
set_option autoImplicit false

namespace FormCalculus.Expr

/-- Made by the constructors, without a derivative in it. -/
structure Algebraic (e : Expr) : Prop where
  formed : Formed e
  free : Reading.DerivativeFree e

variable {x v r : Expr} {op : Operator} {xs vs ws rs us : List Expr} {scope : Scope}

theorem Algebraic.operand {o : Expr} (algebraic : Algebraic x) (member : o ∈ x.operands) :
    Algebraic o :=
  ⟨algebraic.formed.operand member, algebraic.free.operand member⟩

theorem Algebraic.unlabelled (algebraic : Algebraic x) (run : x.expandIn scope = .ok r) :
    Unlabelled r :=
  have typed := algebraic.formed.well_typed
  Reading.expands_unlabelled (expand_in_expands typed run) typed algebraic.free

theorem expand_all_runs (runs : List.Forall₂ (fun o r => o.expandIn scope = .ok r) xs rs) :
    expandAll xs scope = .ok rs := by
  induction runs with
  | nil => rfl
  | cons first _ ih => rw [expandAll, first, ih]; rfl

theorem reassemble_formed {shape : Shape} {free : FreeIndices}
    (formed : Formed (.node op xs shape free)) (plain : ∀ r ∈ rs, Unlabelled r) :
    (Expr.node op xs shape free).reassemble op rs =
      (op.assemble rs).mapError TransformError.build :=
  reassemble_complete .eager formed plain

theorem reassemble_alike {shape : Shape} {free : FreeIndices}
    (elementary : op.isElementary = true) (other : op ≠ .spatialDerivative)
    (formed : Formed (.node op xs shape free)) (formed' : Formed (.node op ws shape free))
    (plain : ∀ r ∈ rs, Unlabelled r) (plain' : ∀ u ∈ us, Unlabelled u)
    (pairs : List.Forall₂ Alike rs vs) (reordered : Reordered op vs us)
    (run : (Expr.node op xs shape free).reassemble op rs = .ok r) :
    ∃ r', (Expr.node op ws shape free).reassemble op us = .ok r' ∧ Alike r r' := by
  rw [reassemble_formed formed plain, except_map_error_ok] at run
  obtain ⟨r', run', alike⟩ := assemble_alike elementary other pairs run
  obtain ⟨r'', run'', alike'⟩ := assemble_swapped reordered run'
  refine ⟨r'', ?_, alike.trans alike'⟩
  rw [reassemble_formed formed' plain', except_map_error_ok]
  exact run''

/-- Sums of alike terms are alike. -/
theorem add_all_alike {start start' total : Expr} (pairs : List.Forall₂ Alike rs us)
    (begin : Alike start start') (run : rs.foldlM add start = .ok total) :
    ∃ total', us.foldlM add start' = .ok total' ∧ Alike total total' := by
  induction pairs generalizing start start' with
  | nil =>
      cases (except_pure_ok _ _).mp run
      exact ⟨start', rfl, begin⟩
  | cons first _ ih =>
      rw [List.foldlM_cons, except_bind_ok] at run
      obtain ⟨sum, added, rest⟩ := run
      obtain ⟨sum', added', alike⟩ := add_alike begin first added
      obtain ⟨total', rest', alike⟩ := ih alike rest
      exact ⟨total', by rw [List.foldlM_cons, added']; exact rest', alike⟩

theorem sum_terms_runs {term : Nat → Except TransformError Expr} {positions : List Nat}
    {start : Expr} {terms : List Expr}
    (runs : List.Forall₂ (fun position t => term position = .ok t) positions terms)
    (total : terms.foldlM add start = .ok r) :
    positions.foldlM (fun total position => do
      let t ← term position
      (total.add t).mapError .build) start = .ok r := by
  induction runs generalizing start with
  | nil =>
      cases (except_pure_ok _ _).mp total
      rfl
  | cons first _ ih =>
      rw [List.foldlM_cons, except_bind_ok] at total
      obtain ⟨sum, added, rest⟩ := total
      rw [List.foldlM_cons]
      refine (except_bind_ok _ _ _).mpr ⟨sum, ?_, ih rest⟩
      simp only [first, except_ok_bind, added]
      rfl

/-- If each of several runs has a counterpart, so have all of them. -/
theorem runs_alike {α β : Type} {f : α → Except TransformError Expr}
    {g : β → Except TransformError Expr} {as : List α} {bs : List β}
    (each : List.Forall₂ (fun a b => ∀ r, f a = .ok r → ∃ r', g b = .ok r' ∧ Alike r r') as bs)
    (runs : List.Forall₂ (fun a r => f a = .ok r) as rs) :
    ∃ us, List.Forall₂ (fun b u => g b = .ok u) bs us ∧ List.Forall₂ Alike rs us := by
  induction each generalizing rs with
  | nil =>
      cases runs
      exact ⟨[], .nil, .nil⟩
  | cons first _ ih =>
      cases runs with
      | cons run runs =>
          obtain ⟨u, run, alike⟩ := first _ run
          obtain ⟨us, runs, alikes⟩ := ih runs
          exact ⟨u :: us, .cons run runs, .cons alike alikes⟩

/-- Operators without a rule of their own apply to their operands at the component of the node. -/
theorem expand_operands_runs {shape : Shape} {free : FreeIndices}
    (other : op ∉ [.conditional, .division, .indexSum, .indexed, .componentTensor, .listTensor, .grad])
    (derivative : op ≠ .variableDerivative) (compound : op.kind.isCompound = false)
    (runs : expandAll xs scope = .ok rs)
    (run : (Expr.node op xs shape free).reassemble op rs = .ok r) :
    (Expr.node op xs shape free).expandIn scope = .ok r := by
  simp only [List.mem_cons, List.not_mem_nil, or_false, not_or] at other
  rw [expandIn]
  · simp only [derivative, if_false, compound, Bool.false_eq_true]
    refine (except_bind_ok _ _ _).mpr ⟨rs, runs, run⟩
  all_goals simp_all

theorem expand_entry_runs {node entry : Expr} {entries : List Expr} {position ahead : Nat}
    (found : entries[ahead]? = some entry) (run : entry.expandIn scope = .ok r) :
    expandEntry node position entries ahead scope = .ok r := by
  induction entries generalizing ahead with
  | nil => cases found
  | cons first rest ih =>
      cases ahead with
      | zero =>
          cases found
          rwa [expandEntry]
      | succ ahead =>
          rw [expandEntry]
          exact ih found

theorem require_scalar_ok {e : Expr} {u : Unit} (run : e.requireScalar = .ok u) : e.shape = [] := by
  unfold requireScalar at run
  split at run
  · exact is_scalar_iff.mp ‹_›
  · cases run

theorem require_scalar_runs {e : Expr} (scalar : e.shape = []) : e.requireScalar = .ok () :=
  if_pos (is_scalar_iff.mpr scalar)

theorem multi_index_echoes {items items' : List IndexItem}
    (echoes : Echoes (multiIndex items) (multiIndex items')) : items' = items := by
  cases echoes
  rfl

/-- What each operand expands to, its echo expands to alike. -/
def EchoesExpand (xs vs : List Expr) : Prop :=
  ∀ x v, (x, v) ∈ xs.zip vs → ∀ {scope r}, x.expandIn scope = .ok r →
    ∃ r', v.expandIn scope = .ok r' ∧ Alike r r'

/-- A node whose operands are expanded at one component is made again as its echo is. -/
theorem reassemble_echoes {shape : Shape} {free : FreeIndices} (pointwise : op.isPointwise = true)
    (left : Algebraic (.node op xs shape free)) (right : Algebraic (.node op ws shape free))
    (length : xs.length = vs.length) (each : EchoesExpand xs vs) (reordered : Reordered op vs ws)
    (runs : List.Forall₂ (fun o r => o.expandIn scope = .ok r) xs rs)
    (run : (Expr.node op xs shape free).reassemble op rs = .ok r) :
    ∃ us, List.Forall₂ (fun o u => o.expandIn scope = .ok u) ws us ∧
      ∃ r', (Expr.node op ws shape free).reassemble op us = .ok r' ∧ Alike r r' := by
  have other : op ≠ .spatialDerivative := fun same => (left.free _ (.refl _)).2 (by rw [same]; rfl)
  obtain ⟨us, runs', alikes⟩ := runs_alike
    (List.forall₂_iff_zip.mpr ⟨length, fun {x v} pair _ run => each x v pair run⟩) runs
  obtain ⟨us', reordered', runs'⟩ := reordered.pairs runs'
  refine ⟨us', runs', reassemble_alike (by simp [Operator.isElementary, pointwise]) other left.formed
    right.formed (fun r member => ?_) (fun u member => ?_) alikes reordered' run⟩
  · obtain ⟨o, inside, run⟩ := pairs_member runs member
    exact (left.operand inside).unlabelled run
  · obtain ⟨o, inside, run⟩ := pairs_member runs' member
    exact (right.operand inside).unlabelled run

/-- Echoes expand alike. -/
theorem expand_echoes (echoes : Echoes x v) (left : Algebraic x) (right : Algebraic v)
    (run : x.expandIn scope = .ok r) : ∃ r', v.expandIn scope = .ok r' ∧ Alike r r' := by
  induction echoes generalizing scope r with
  | terminal data => exact ⟨r, run, .refl r⟩
  | left _ ih =>
      rw [expandIn] at run
      exact ih (left.operand List.mem_cons_self) right run
  | right _ ih =>
      rw [expandIn]
      exact ih left (right.operand List.mem_cons_self) run
  | @node op xs vs ws shape free length pairs reordered ih =>
      have each : EchoesExpand xs vs := fun x v pair {_ _} => by
        obtain ⟨member, member'⟩ := List.of_mem_zip pair
        exact ih x v pair (left.operand member) (right.operand (reordered.mem.mpr member'))
      obtain _ | ⟨types, below⟩ := left.formed.well_typed
      obtain ⟨shape', free', types'⟩ : ∃ shape free, op.Types ws shape free := by
        obtain _ | ⟨types', _⟩ := right.formed.well_typed
        exact ⟨_, _, types'⟩
      cases types with
      | @conditional test a b =>
          obtain rfl := reordered.same (by simp)
          cases types' with
          | @conditional test' a' b' =>
              rw [expandIn] at run
              simp only [except_bind_ok] at run
              obtain ⟨_, scalar, t, first, u, second, w, third, run⟩ := run
              obtain ⟨t', first', alike⟩ := each test test' (by simp) first
              obtain ⟨u', second', alike'⟩ := each a a' (by simp) second
              obtain ⟨w', third', alike''⟩ := each b b' (by simp) third
              have shape : test'.shape = test.shape := (pairs test test' (by simp)).shape
              rw [expandIn, require_scalar_runs (shape.trans (require_scalar_ok scalar))]
              simp only [first', second', third', except_ok_bind]
              refine reassemble_alike rfl (by simp) left.formed right.formed
                (List.forall_mem_cons.mpr ⟨?_, operands_pair ?_ ?_⟩)
                (List.forall_mem_cons.mpr ⟨?_, operands_pair ?_ ?_⟩)
                (.cons alike (pair_alike alike' alike'')) (.inl rfl) run
              · exact (left.operand (by simp [operands])).unlabelled first
              · exact (left.operand (by simp [operands])).unlabelled second
              · exact (left.operand (by simp [operands])).unlabelled third
              · exact (right.operand (by simp [operands])).unlabelled first'
              · exact (right.operand (by simp [operands])).unlabelled second'
              · exact (right.operand (by simp [operands])).unlabelled third'
      | division =>
          rw [expandIn] at run
          obtain ⟨here, run⟩ := except_if_ok (by simp) run
          simp only [except_bind_ok] at run
          obtain ⟨a', first, b', second, run⟩ := run
          obtain ⟨us, runs, r', run', alike⟩ := reassemble_echoes rfl left right length each reordered
            (.cons first (.cons second .nil)) run
          cases types' with
          | division =>
              obtain ⟨u, w, rfl, first, second⟩ := pairs_two runs
              refine ⟨r', ?_, alike⟩
              rw [expandIn, if_neg here]
              simp only [first, second, run', except_ok_bind]
      | @indexSum summand index =>
          obtain rfl := reordered.same (by simp)
          cases types' with
          | @indexSum summand' index' =>
              have second : Echoes (multiIndex [.free index]) (multiIndex [.free index']) :=
                pairs _ _ (by simp)
              cases multi_index_echoes second
              have free : summand'.free = summand.free := (pairs summand summand' (by simp)).free
              rw [expandIn] at run ⊢
              obtain ⟨indices, bound, run⟩ := (except_bind_ok _ _ _).mp run
              cases bound
              simp only [boundIndices, Expr.multiIndex, multiIndex?, except_ok_bind]
              simp only [IndexItem.free?, List.filterMap_cons, List.filterMap_nil, free] at run ⊢
              split at run
              · simp at run
              · rename_i dim found
                obtain ⟨terms, runs, total⟩ := sum_terms_ok run
                obtain ⟨terms', runs', alikes⟩ := runs_alike
                  (List.forall₂_same.mpr fun position _ _ run =>
                    each summand summand' (by simp) run) runs
                obtain ⟨r', total', alike⟩ := add_all_alike alikes (.refl _) total
                exact ⟨r', sum_terms_runs runs' total', alike⟩
      | @indexed a items =>
          obtain rfl := reordered.same (by simp)
          cases types' with
          | @indexed a' items' =>
              have second : Echoes (multiIndex items) (multiIndex items') := pairs _ _ (by simp)
              cases multi_index_echoes second
              rw [expandIn] at run ⊢
              obtain ⟨fixed, assigned, run⟩ := (except_bind_ok _ _ _).mp run
              obtain ⟨r', run, alike⟩ := each a a' (by simp) run
              exact ⟨r', by rw [assigned]; exact run, alike⟩
      | @componentTensor e indices =>
          obtain rfl := reordered.same (by simp)
          cases types' with
          | @componentTensor e' indices' =>
              have second : Echoes (multiIndex (indices.map .free)) (multiIndex (indices'.map .free)) :=
                pairs _ _ (by simp)
              obtain rfl : indices' = indices := by
                have items := multi_index_echoes second
                exact List.map_injective_iff.mpr (fun _ _ same => IndexItem.free.inj same) items
              have shape : e'.shape = e.shape := (pairs e e' (by simp)).shape
              rw [expandIn] at run ⊢
              simp only [except_bind_ok] at run
              obtain ⟨_, scalar, found, bound, run⟩ := run
              simp only [boundIndices, Expr.multiIndex, multiIndex?, free_items, Except.ok.injEq] at bound
              subst bound
              obtain ⟨length, run⟩ := except_if_ok (by simp) run
              obtain ⟨r', run, alike⟩ := each e e' (by simp) run
              refine ⟨r', ?_, alike⟩
              rw [require_scalar_runs (shape.trans (require_scalar_ok scalar))]
              simp only [boundIndices, Expr.multiIndex, multiIndex?, free_items, except_ok_bind]
              rw [if_neg length]
              exact run
      | listTensor =>
          obtain rfl := reordered.same (by simp)
          rw [expandIn] at run ⊢
          split at run
          · simp at run
          · rename_i position rest selected
            obtain ⟨entry, found, run⟩ := expand_entry_ok run
            obtain ⟨inside, here⟩ := List.getElem?_eq_some_iff.mp found
            have found' := List.getElem?_eq_getElem (length ▸ inside : position < ws.length)
            have pair : (entry, ws[position]) ∈ xs.zip ws := by
              rw [← here]
              exact List.mem_iff_getElem.mpr
                ⟨position, by rw [List.length_zip]; omega, List.getElem_zip⟩
            obtain ⟨r', run, alike⟩ := each entry _ pair run
            exact ⟨r', by simpa only [selected] using expand_entry_runs found' run, alike⟩
      | grad nonzero => exact absurd rfl (left.free _ (.refl _)).1
      | spatialDerivative => exact absurd rfl (left.free _ (.refl _)).2
      | sum | product | power | sqrt | condition | restricted =>
          obtain ⟨derivative, compound, rs, runs, run⟩ := expand_operands_ok (by simp) run
          obtain ⟨us, runs, r', run', alike⟩ := reassemble_echoes rfl left right length each reordered
            (expand_all_ok runs) run
          exact ⟨r', expand_operands_runs (by simp) derivative compound (expand_all_runs runs) run',
            alike⟩
      | variableDerivative =>
          exact absurd rfl (expand_operands_ok (by simp) run).1
      | div | curl | rot | transposed | inner | outer | dot | cross | trace | skew | determinant
      | inverse | cofactor | deviatoric =>
          exact absurd (expand_operands_ok (by simp) run).2.1 (by decide)

end FormCalculus.Expr
