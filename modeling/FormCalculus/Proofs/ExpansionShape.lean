import Mathlib
import FormCalculus.Proofs.Expanding

/-!
What index expansion leaves: scalars without free indices and binders, spelled out along the axes
of a tensor. Gradients are the exception, since they are kept as they stand.
-/
set_option autoImplicit false

namespace FormCalculus

namespace Expr

/-- The kinds that expansion does away with inside a component. -/
def isExpandedAway : Kind → Bool
  | .indexSum | .componentTensor | .listTensor | .labelled => true
  | _ => false

/-- Nothing in it has a free index or is of a kind that expansion does away with. -/
def Bare (e : Expr) : Prop := ∀ x, Within x e → x.free = ∅ ∧ isExpandedAway x.kind = false

theorem Bare.operand {o e : Expr} (bare : Bare e) (member : o ∈ e.operands) : Bare o :=
  fun x inside => bare x (.step member inside)

theorem Bare.free {e : Expr} (bare : Bare e) : e.free = ∅ := (bare e (.refl e)).1

theorem bare_of_operands {e : Expr} (free : e.free = ∅) (kind : isExpandedAway e.kind = false)
    (operands : ∀ o ∈ e.operands, Bare o) : Bare e := by
  intro x inside
  cases inside with
  | refl => exact ⟨free, kind⟩
  | step member inside => exact operands _ member x inside

theorem bare_terminal {data : Terminal} (free : data.free = ∅) : Bare (terminal data) :=
  bare_of_operands free (by cases data <;> rfl) nofun

theorem Bare.unlabelled {e : Expr} (bare : Bare e) : Unlabelled e := by
  intro x inside labelled
  have kind := (bare x inside).2
  rw [labelled] at kind
  cases kind

/-- A scalar that expansion is through with. -/
structure Settled (e : Expr) : Prop where
  bare : Bare e
  scalar : e.shape = []
  fixed : ∀ items, e = multiIndex items → ∀ i, .free i ∉ items

theorem settled_constant (c : Constant) : Settled c.toExpr := by
  cases c <;> exact ⟨bare_terminal rfl, rfl, nofun⟩

theorem settled_zero : Settled zero := settled_constant .zero

theorem settled_int (value : Int64) : Settled (int value) := by
  unfold int
  split
  · exact settled_zero
  · exact settled_constant (.int value)

theorem union_of_empty {a b : Expr} {free : FreeIndices} (union : free.IsUnion a.free b.free)
    (left : a.free = ∅) (right : b.free = ∅) : free = ∅ :=
  FreeIndices.ext_dim fun i d => by rw [union i d, left, right]; simp

/-- Subscripts at positions leave no free index. -/
theorem subscribes_fixed {set free : FreeIndices} {items : List IndexItem} {shape : Shape}
    (subscribed : Subscribes set items shape free) (none : set = ∅)
    (fixed : ∀ i, .free i ∉ items) : free = ∅ :=
  (subscribed.fixed fixed).trans none

/-- Over scalars without free indices an elementary operator has a node of that type. -/
theorem elementary_closed {op : Operator} {operands : List Expr} {shape : Shape} {free : FreeIndices}
    (elementary : op.isElementary = true) (types : op.Types operands shape free)
    (scalars : ∀ o ∈ operands, o.shape = [] ∧ o.free = ∅)
    (fixed : ∀ items, multiIndex items ∈ operands → ∀ i, .free i ∉ items) :
    shape = [] ∧ free = ∅ := by
  cases types with
  | sum => exact scalars _ (by simp)
  | product _ _ union | division _ _ union =>
      exact ⟨rfl, union_of_empty union (scalars _ (by simp)).2 (scalars _ (by simp)).2⟩
  | power | sqrt => exact ⟨rfl, (scalars _ (by simp)).2⟩
  | conditional _ _ _ union =>
      exact ⟨(scalars _ (by simp)).1,
        union_of_empty union (scalars _ (by simp)).2 (scalars _ (by simp)).2⟩
  | condition _ _ dims =>
      refine ⟨rfl, FreeIndices.ext_dim fun i d => ?_⟩
      rw [dims]
      refine ⟨fun ⟨o, member, found⟩ => ?_, nofun⟩
      rwa [(scalars o member).2] at found
  | spatialDerivative _ subscribed =>
      exact ⟨(scalars _ (by simp)).1,
        subscribes_fixed subscribed (scalars _ (by simp)).2 (fixed _ (by simp))⟩
  | restricted => exact scalars _ (by simp)
  | _ => cases elementary

/-- A typed node of an elementary operator over settled operands is settled. -/
theorem settled_node {op : Operator} {operands : List Expr} {shape : Shape} {free : FreeIndices}
    (elementary : op.isElementary = true) (types : op.Types operands shape free)
    (settled : ∀ o ∈ operands, Settled o) : Settled (.node op operands shape free) := by
  have away : isExpandedAway op.kind = false := by
    cases op <;> first | rfl | cases elementary
  obtain ⟨scalar, none⟩ := elementary_closed elementary types
    (fun o member => ⟨(settled o member).scalar, (settled o member).bare.free⟩)
    fun items member => (settled _ member).fixed items rfl
  exact ⟨bare_of_operands none away fun o member => (settled o member).bare, scalar, nofun⟩

theorem settled_assembled {op : Operator} {operands : List Expr} {r : Expr}
    (elementary : op.isElementary = true) (settled : ∀ o ∈ operands, Settled o)
    (assembled : Assembled op operands r) : Settled r := by
  cases assembled with
  | operand member => exact settled _ member
  | constant c => exact settled_constant c
  | zeros same union =>
      subst same
      have none := union_of_empty union (settled _ (by simp)).bare.free (settled _ (by simp)).bare.free
      exact ⟨bare_terminal none, rfl, nofun⟩
  | node inside types => exact settled_node elementary types fun o member => settled o (inside o member)

theorem settled_component {e r : Expr} {component : Component} (bare : Bare e)
    (kind : e.kind ≠ .multiIndex) (run : e.component component = .ok r) : Settled r := by
  have notItems : ∀ items, e ≠ multiIndex items := fun items same => kind (by rw [same]; rfl)
  have fixed : ∀ i, IndexItem.free i ∉ component.map IndexItem.fixed := by simp
  have cases := subscript_cases run
  revert fixed
  generalize component.map IndexItem.fixed = items at cases
  intro fixed
  cases cases with
  | whole scalar => exact ⟨bare, scalar, fun items same => absurd same (notItems items)⟩
  | zero subscribed =>
      exact ⟨bare_terminal (subscribes_fixed subscribed bare.free fixed), rfl, nofun⟩
  | identity => exact settled_int _
  | entry => exact nomatch (bare _ (.refl _)).2
  | node some subscribed =>
      refine ⟨bare_of_operands (subscribes_fixed subscribed bare.free fixed) rfl ?_, rfl, nofun⟩
      exact operands_pair bare (bare_terminal rfl)

theorem settled_selected {e r : Expr} {component : Component} (bare : Bare e)
    (kind : e.kind ≠ .multiIndex) (run : e.selectAt component = .ok r) : Settled r := by
  unfold selectAt at run
  split at run
  · rename_i scalar
    cases run
    exact ⟨bare, List.isEmpty_iff.mp scalar, fun items same => absurd (by rw [same]; rfl) kind⟩
  · exact settled_component bare kind ((except_map_error_ok _ _ _).mp run)

/-- Every gradient in it is bare. -/
def GradsBare (e : Expr) : Prop := ∀ g, Within g e → g.kind = .grad → Bare g

theorem GradsBare.operand {o e : Expr} (grads : GradsBare e) (member : o ∈ e.operands) :
    GradsBare o :=
  fun g inside => grads g (.step member inside)

theorem grads_bare_of_operands {e : Expr} (kind : e.kind ≠ .grad)
    (operands : ∀ o ∈ e.operands, GradsBare o) : GradsBare e := by
  intro g inside grad
  cases inside with
  | refl => exact absurd grad kind
  | step member inside => exact operands _ member g inside grad

theorem unassigned_none {scope : Scope} {indices : List Index}
    (assigned : scope.unassigned indices = []) {i : Index} (member : i ∈ indices) :
    ∃ position, scope.position? i = some position := by
  have known := List.filter_eq_nil_iff.mp assigned i member
  exact Option.ne_none_iff_exists'.mp (by simpa using known)

/-- All items have positions where their indices are assigned. -/
theorem resolved_fixed {scope : Scope} {items : List IndexItem}
    (assigned : scope.unassigned (items.filterMap IndexItem.free?) = []) (i : Index) :
    .free i ∉ items.map scope.resolve := by
  intro member
  obtain ⟨item, inside, same⟩ := List.mem_map.mp member
  cases item with
  | fixed position => cases same
  | free index =>
      obtain ⟨position, found⟩ := unassigned_none assigned
        (List.mem_filterMap.mpr ⟨.free index, inside, rfl⟩)
      simp [Scope.resolve, found] at same

section

variable [Folding] {e r : Expr} {scope : Scope}

/-- A node that is kept or made anew over settled operands is settled. -/
theorem settled_reassembled {op : Operator} {operands results : List Expr} {shape : Shape}
    {free : FreeIndices} (elementary : op.isElementary = true)
    (types : op.Types operands shape free) (settled : ∀ o ∈ results, Settled o)
    (run : (node op operands shape free).reassemble op results = .ok r) : Settled r := by
  unfold reassemble reuseOr at run
  split at run
  · rename_i same
    cases (except_pure_ok _ _).mp run
    have kept := has_operands_eq (fun o member => (settled o member).bare.unlabelled) same
    subst kept
    exact settled_node elementary types settled
  · exact settled_assembled elementary settled
      (assemble_elementary elementary ((except_map_error_ok _ _ _).mp run))

theorem settled_sum {terms : List Expr} (settled : ∀ t ∈ terms, Settled t)
    (run : terms.foldlM add .zero = .ok r) : Settled r := by
  refine foldlM_keeps settled_zero (fun total t next member kept sum => ?_) run
  have assembled : Assembled .sum [total, t] next := assemble_elementary rfl sum
  exact settled_assembled rfl (operands_pair kept (settled t member)) assembled

theorem expands_settled (expands : Expands e scope r) (typed : WellTyped e)
    (grads : GradsBare e) : Settled r := by
  induction expands with
  | zero => exact settled_zero
  | multiIndex assigned =>
      exact ⟨bare_terminal rfl, rfl, fun items same i => by cases same; exact resolved_fixed assigned i⟩
  | @terminal data _ _ notZero notItems _ selected =>
      exact settled_selected (bare_terminal (by cases data <;> first | rfl | exact absurd rfl notZero))
        notItems selected
  | labelled _ ih => exact ih (typed.operand List.mem_cons_self) (grads.operand List.mem_cons_self)
  | conditional _ _ _ run test first second =>
      obtain _ | ⟨types, typed⟩ := typed
      refine settled_reassembled rfl types (fun o member => ?_) run
      simp only [List.mem_cons, List.not_mem_nil, or_false] at member
      obtain rfl | rfl | rfl := member
      · exact test (typed _ (by simp)) (grads.operand (by simp [operands]))
      · exact first (typed _ (by simp)) (grads.operand (by simp [operands]))
      · exact second (typed _ (by simp)) (grads.operand (by simp [operands]))
  | indexSum _ length _ total ih =>
      refine settled_sum (fun t member => ?_) total
      obtain ⟨position, pair⟩ := partner_left length member
      exact ih position t pair (typed.operand List.mem_cons_self) (grads.operand List.mem_cons_self)
  | indexed _ _ ih => exact ih (typed.operand List.mem_cons_self) (grads.operand List.mem_cons_self)
  | componentTensor _ _ ih =>
      exact ih (typed.operand List.mem_cons_self) (grads.operand List.mem_cons_self)
  | listTensor _ found _ ih =>
      have member := List.mem_of_getElem? found
      exact ih (typed.operand member) (grads.operand member)
  | grad _ _ selected => exact settled_selected (grads _ (.refl _) rfl) (by rintro ⟨⟩) selected
  | @pointwise op operands results _ _ _ _ pointwise length _ run ih =>
      obtain _ | ⟨types, typed⟩ := typed
      refine settled_reassembled (by simp [Operator.isElementary, pointwise]) types (fun v member => ?_) run
      obtain ⟨o, pair⟩ := partner_left length member
      have inside := (List.of_mem_zip pair).1
      exact ih o v pair (typed o inside) (grads.operand inside)

end

/-- Where expansion need not meet the free index `i`: everywhere under index sums of dimension
zero, or in other entries of a list tensor than the one that is selected. -/
inductive Skipped (i : Index) : Expr → Prop
  | absent {e : Expr} : ¬ e.free.contains i = true →
      (∀ items, e = multiIndex items → .free i ∉ items) → Skipped i e
  | emptySum {summand : Expr} {j : Index} {shape : Shape} {free : FreeIndices} :
      summand.free.dim? j = some 0 →
      Skipped i (.node .indexSum [summand, multiIndex [.free j]] shape free)
  | entry {entries : List Expr} {entry : Expr} {shape : Shape} {free : FreeIndices} :
      entry ∈ entries → Skipped i entry → Skipped i (.node .listTensor entries shape free)
  | operands {e : Expr} : (∀ items, e ≠ multiIndex items) → (∀ o ∈ e.operands, Skipped i o) →
      Skipped i e

theorem skipped_items {i : Index} {items : List IndexItem} (absent : .free i ∉ items) :
    Skipped i (multiIndex items) :=
  .absent (by simp [Expr.multiIndex, free, Terminal.free])
    (fun _ same => by cases same; exact absent)

theorem unassigned_absent {scope : Scope} {items : List IndexItem} {i : Index}
    (assigned : scope.unassigned (items.filterMap IndexItem.free?) = [])
    (unknown : scope.position? i = none) : .free i ∉ items := by
  intro member
  obtain ⟨position, found⟩ := unassigned_none assigned
    (List.mem_filterMap.mpr ⟨.free i, member, rfl⟩)
  rw [unknown] at found
  cases found

theorem bind_position {scope : Scope} {i j : Index} {position : Nat} (other : i ≠ j) :
    (scope.bind j position).position? i = scope.position? i := by
  have differs : (i == j) = false := beq_false_of_ne other
  simp [Scope.bind, Scope.position?, List.lookup_cons, differs]

theorem bind_all_position {scope : Scope} {i : Index} {bindings : List (Index × Nat)}
    (other : ∀ binding ∈ bindings, i ≠ binding.1) :
    (scope.bindAll bindings).position? i = scope.position? i := by
  induction bindings generalizing scope with
  | nil => rfl
  | cons binding rest ih =>
      obtain ⟨here, others⟩ := List.forall_mem_cons.mp other
      exact (ih others).trans (bind_position here)

/-- An expression expands only in a scope that assigns every free index it cannot skip. -/
theorem expands_skipped [Folding] {e r : Expr} {scope : Scope} {i : Index}
    (expands : Expands e scope r) (typed : WellTyped e) (grads : GradsBare e)
    (unknown : scope.position? i = none) : Skipped i e := by
  induction expands with
  | zero _ assigned =>
      refine .absent (fun known => ?_) (by rintro _ ⟨⟩)
      obtain ⟨position, found⟩ := unassigned_none assigned (FreeIndices.mem_indices_iff.mpr known)
      rw [unknown] at found
      cases found
  | multiIndex assigned => exact skipped_items (unassigned_absent assigned unknown)
  | @terminal data _ _ notZero notItems _ _ =>
      refine .absent ?_ (fun items same => absurd (congrArg Expr.kind same) notItems)
      cases data <;> first | exact absurd rfl notZero | simp [free, Terminal.free]
  | labelled _ ih =>
      exact .operands (by rintro _ ⟨⟩) (List.forall_mem_singleton.mpr
        (ih (typed.operand List.mem_cons_self) (grads.operand List.mem_cons_self) unknown))
  | conditional _ _ _ _ test first second =>
      refine .operands (by rintro _ ⟨⟩) fun o member => ?_
      replace typed := typed.operand member
      replace grads := grads.operand member
      simp only [operands, List.mem_cons, List.not_mem_nil, or_false] at member
      obtain rfl | rfl | rfl := member
      · exact test typed grads unknown
      · exact first typed grads unknown
      · exact second typed grads unknown
  | @indexSum summand _ j dim _ free _ terms found length _ _ ih =>
      by_cases same : i = j
      · subst same
        obtain _ | ⟨types, _⟩ := typed
        cases types with
        | indexSum _ _ =>
            refine .absent (fun known => ?_) (by rintro _ ⟨⟩)
            obtain ⟨d, kept⟩ := FreeIndices.contains_iff.mp known
            exact ((FreeIndices.erase_dim _ _ _ _).mp kept).1 rfl
      · cases dim with
        | zero => exact .emptySum found
        | succ dim =>
            obtain ⟨term, pair⟩ := partner_right length (x := 0) (by simp)
            have below := ih 0 term pair (typed.operand List.mem_cons_self)
              (grads.operand List.mem_cons_self) (by rw [bind_position same, unknown])
            exact .operands (by rintro _ ⟨⟩) (operands_pair below (skipped_items (by simpa using same)))
  | indexed assigned _ ih =>
      refine .operands (by rintro _ ⟨⟩) (operands_pair ?_ (skipped_items (unassigned_absent assigned unknown)))
      exact ih (typed.operand List.mem_cons_self) (grads.operand List.mem_cons_self) unknown
  | @componentTensor _ _ indices _ _ _ length _ ih =>
      by_cases bound : i ∈ indices
      · obtain _ | ⟨types, _⟩ := typed
        obtain ⟨_, _, binds⟩ := component_tensor_types types
        refine .absent (fun known => ?_) (by rintro _ ⟨⟩)
        obtain ⟨d, kept⟩ := FreeIndices.contains_iff.mp known
        exact ((binds.dims _ _).mp kept).1 bound
      · have below := ih (typed.operand List.mem_cons_self) (grads.operand List.mem_cons_self) (by
          refine (bind_all_position fun binding member same => bound ?_).trans unknown
          exact same ▸ (List.of_mem_zip member).1)
        exact .operands (by rintro _ ⟨⟩) (operands_pair below (skipped_items (by simpa using bound)))
  | listTensor _ found _ ih =>
      have member := List.mem_of_getElem? found
      exact .entry member (ih (typed.operand member) (grads.operand member) unknown)
  | grad _ _ _ =>
      have bare := grads _ (.refl _) rfl
      exact .absent (by simp [bare.free]) (by rintro _ ⟨⟩)
  | pointwise _ length _ _ ih =>
      refine .operands (by rintro _ ⟨⟩) fun o member => ?_
      obtain ⟨v, pair⟩ := partner_right length member
      exact ih o v pair (typed.operand member) (grads.operand member) unknown

/-- Scalars that are bare, listed along the axes of a tensor; a tensor of zeros is spelled as one
zero. -/
inductive Spelled : Shape → Expr → Prop
  | scalar {e : Expr} : Bare e → e.shape = [] → Spelled [] e
  | zeros {dim : Nat} {shape : Shape} : Spelled (dim :: shape) (zeros (dim :: shape) ∅)
  | axis {entries : List Expr} {shape : Shape} : (∀ e ∈ entries, Spelled shape e) →
      Spelled (entries.length :: shape) (.node .listTensor entries (entries.length :: shape) ∅)

theorem Spelled.stored {shape : Shape} {e : Expr} (spelled : Spelled shape e) :
    e.shape = shape ∧ e.free = ∅ := by
  cases spelled with
  | scalar bare scalar => exact ⟨scalar, bare.free⟩
  | zeros => exact ⟨rfl, rfl⟩
  | axis => exact ⟨rfl, rfl⟩

/-- A table of settled scalars spells its shape out, and has an entry. -/
theorem tabulate_spelled {entry : Component → Except TransformError Expr} {shape : Shape}
    {position : Component} {r : Expr}
    (settled : ∀ component v, entry component = .ok v → Settled v)
    (run : tabulate entry shape position = .ok r) :
    Spelled shape r ∧ ∃ component v, entry component = .ok v := by
  induction shape generalizing position r with
  | nil => exact ⟨.scalar (settled _ _ run).bare (settled _ _ run).scalar, position, r, run⟩
  | cons dim shape ih =>
      rw [tabulate] at run
      simp only [except_bind_ok, except_map_error_ok] at run
      obtain ⟨entries, runs, list⟩ := run
      have pairs := mapM_ok runs
      have length : dim = entries.length := by simpa using pairs.length_eq
      have each : ∀ e ∈ entries, Spelled shape e ∧ ∃ component v, entry component = .ok v := by
        intro e member
        obtain ⟨place, pair⟩ := partner_left pairs.length_eq member
        exact ih (List.forall₂_zip pairs pair)
      obtain ⟨shape', free', some, checks, outcome⟩ := list_tensor_cases list
      obtain ⟨first, member⟩ := List.exists_mem_of_ne_nil entries some
      obtain ⟨spelled, found⟩ := each first member
      obtain ⟨rfl, rfl⟩ : shape' = shape ∧ free' = ∅ := by
        rw [← (checks first member).1, ← (checks first member).2]
        exact spelled.stored
      refine ⟨?_, found⟩
      rw [length]
      obtain ⟨_, rfl⟩ | rfl := outcome
      · exact .zeros
      · exact .axis fun e inside => (each e inside).1

variable {e r : Expr}

/-- A gradient of a terminal or of a gradient is expanded as it stands. -/
theorem expand_in_gradient [Folding] {f : Expr} {shape : Shape} {free : FreeIndices} {scope : Scope}
    (kept : f.isTerminal = true ∨ f.kind = .grad) (fits : scope.component.length = shape.length) :
    (node .grad [f] shape free).expandIn scope =
      (node .grad [f] shape free).selectAt scope.component := by
  have passes : (!(f.isTerminal || decide (f.kind = .grad))) = false := by
    rcases kept with kept | kept <;> simp [kept]
  have fits : scope.fits (node .grad [f] shape free) = .ok () := if_pos fits
  rw [expandIn, if_neg (by simp [passes]), fits]
  rfl

theorem resolve_fixed (scope : Scope) (component : Component) :
    (component.map IndexItem.fixed).map scope.resolve = component.map .fixed := by
  rw [List.map_map]
  rfl

theorem fixed_items (component : Component) :
    (component.map IndexItem.fixed).filterMap IndexItem.fixed? = component := by
  rw [List.filterMap_map]
  exact List.filterMap_some

theorem no_free_items (component : Component) :
    (component.map IndexItem.fixed).filterMap IndexItem.free? = [] := by
  rw [List.filterMap_map]
  exact List.filterMap_eq_nil_iff.mpr fun _ _ => rfl

theorem expand_in_fixed [Folding] (component : Component) (scope : Scope) :
    (multiIndex (component.map .fixed)).expandIn scope = .ok (multiIndex (component.map .fixed)) := by
  rw [Expr.multiIndex, expandIn]
  simp only [Terminal.expandIn, Scope.assigns, Scope.unassigned, no_free_items, List.filter_nil,
    resolve_fixed]
  rfl

/-- So is a component of it. -/
theorem expand_gradient_component [Folding] {f e : Expr} {shape : Shape} {free : FreeIndices}
    {component : Component} (kept : f.isTerminal = true ∨ f.kind = .grad)
    (run : (node .grad [f] shape free).component component = .ok e) : e.expand = .ok e := by
  have cases := subscript_cases run
  generalize same : component.map IndexItem.fixed = items at cases
  cases cases with
  | whole scalar =>
      have scalar : shape = [] := scalar
      subst scalar
      exact expand_in_gradient kept rfl
  | node some subscribed =>
      subst same
      have length : component.length = shape.length := List.length_map _ ▸ subscribed.length
      have scalar : (node .grad [f] shape free).isScalar = false := by
        cases component with
        | nil => exact absurd rfl some
        | cons position rest =>
            cases shape with
            | nil => cases length
            | cons dim shape => rfl
      show expandIn (node .indexed _ _ _) ⟨[], []⟩ = _
      rw [expandIn, expand_in_fixed]
      show expandIn _ ⟨(component.map IndexItem.fixed).filterMap IndexItem.fixed?, []⟩ = _
      rw [fixed_items, expand_in_gradient kept length, selectAt, if_neg (by simp [scalar]), run]
      rfl

/-- Of the components of a gradient that is kept as it stands, those of a bare one are bare. -/
theorem gradient_component_spelled {f e : Expr} {shape : Shape} {free : FreeIndices}
    {component : Component} (run : (node .grad [f] shape free).component component = .ok e) :
    Spelled [] e ↔ Bare (node .grad [f] shape free) := by
  constructor
  · intro spelled
    have bare : Bare e := by
      cases spelled with
      | scalar bare _ => exact bare
    have cases := subscript_cases run
    generalize component.map IndexItem.fixed = items at cases
    cases cases with
    | whole => exact bare
    | node => exact bare.operand List.mem_cons_self
  · intro bare
    have settled := settled_component bare nofun run
    exact .scalar settled.bare settled.scalar

/-- Expansion delivers scalars without free indices and binders, listed along the axes of a tensor,
and refuses a free index that it cannot skip, where every gradient below is bare. A gradient of a
terminal or of a gradient it hands out as it stands, bare or not. -/
theorem expand_delivers (e r f c : Expr) (shape : Shape) (free : FreeIndices)
    (component : List Nat) :
    (Constructible e → GradsBare e → e.expand = .ok r →
      Spelled e.shape r ∧ ∀ i, e.free.contains i = true → Skipped i e) ∧
    (f.isTerminal = true ∨ f.kind = .grad →
      (node .grad [f] shape free).component component = .ok c →
      c.expand = .ok c ∧ (Spelled [] c ↔ Bare (node .grad [f] shape free))) := by
  refine ⟨fun made grads run => ?_, fun kept run =>
    ⟨expand_gradient_component kept run, gradient_component_spelled run⟩⟩
  have typed := made.well_typed
  obtain ⟨spelled, component, v, found⟩ := tabulate_spelled
    (fun component v found => expands_settled (expand_in_expands typed found) typed grads) run
  exact ⟨spelled, fun i _ => expands_skipped (expand_in_expands typed found) typed grads rfl⟩

section Sample

/-- A vector field, subscripted by an index and by a position. -/
def sampleField : Expr := .terminal (.coefficient ⟨0, .vector 2 2⟩)

def sampleIndex : Index := ⟨0⟩

def sampleAt : Expr :=
  .node .indexed [sampleField, multiIndex [.free sampleIndex]] [] (.single sampleIndex 2)

def samplePart (position : Nat) : Expr :=
  .node .indexed [sampleField, multiIndex [.fixed position]] [] ∅

/-- The square of its length. -/
def sampleSquare : Expr :=
  .node .indexSum [.node .product [sampleAt, sampleAt] [] (.single sampleIndex 2),
    multiIndex [.free sampleIndex]] [] ∅

/-- The second gradient of its component, with the index still free. -/
def sampleHessian : Expr :=
  .node .grad [.node .grad [sampleAt] [2] (.single sampleIndex 2)] [2, 2] (.single sampleIndex 2)

theorem sample_square_constructible : Constructible sampleSquare := by
  have at_made : Operator.assemble .indexed [sampleField, multiIndex [.free sampleIndex]] =
      .ok sampleAt := by cbv
  have product_made : Operator.assemble .product [sampleAt, sampleAt] =
      .ok (.node .product [sampleAt, sampleAt] [] (.single sampleIndex 2)) := by cbv
  have sum_made : Operator.assemble .indexSum [.node .product [sampleAt, sampleAt] []
      (.single sampleIndex 2), multiIndex [.free sampleIndex]] = .ok sampleSquare := by cbv
  have component := Constructible.assemble _ (by decide)
    (operands_pair (.terminal _) (.terminal _)) at_made
  have product := Constructible.assemble _ (by decide)
    (operands_pair component component) product_made
  exact .assemble _ (by decide) (operands_pair product (.terminal _)) sum_made

theorem sample_square_grads_bare : GradsBare sampleSquare := by
  have leaf (data : Terminal) : GradsBare (terminal data) :=
    grads_bare_of_operands (by cases data <;> nofun) nofun
  have component : GradsBare sampleAt :=
    grads_bare_of_operands nofun (operands_pair (leaf _) (leaf _))
  exact grads_bare_of_operands nofun (operands_pair
    (grads_bare_of_operands nofun (operands_pair component component)) (leaf _))

/-- The square of the length is delivered as a sum of two squares; a component of the second
gradient is handed out with the free index in it. -/
theorem expand_delivers_samples :
    Spelled [] (.node .sum [.node .product [samplePart 0, samplePart 0] [] ∅,
      .node .product [samplePart 1, samplePart 1] [] ∅] [] ∅) ∧
    ∃ e, sampleHessian.component [0, 1] = .ok e ∧ e.expand = .ok e ∧ ¬ Spelled [] e := by
  have expanded : sampleSquare.expand = .ok (.node .sum
      [.node .product [samplePart 0, samplePart 0] [] ∅,
        .node .product [samplePart 1, samplePart 1] [] ∅] [] ∅) := by cbv
  have selected : sampleHessian.component [0, 1] = .ok (.node .indexed
      [sampleHessian, multiIndex [.fixed 0, .fixed 1]] [] (.single sampleIndex 2)) := by cbv
  obtain ⟨square, gradient⟩ := expand_delivers sampleSquare _ _ _ _ _ _
  obtain ⟨kept, spelled⟩ := gradient (.inr rfl) selected
  exact ⟨(square sample_square_constructible sample_square_grads_bare expanded).1, _, selected, kept,
    fun delivered => absurd (spelled.mp delivered).free (by decide)⟩

end Sample

end Expr

end FormCalculus
