import FormCalculus.Proofs.Assembly

/-!
Arithmetic on scalars, subscripts, index sums, component tensors and lists refuse nothing but a
division by zero, where shapes and free indices are right and a component lies in the shape.
-/
set_option autoImplicit false

namespace FormCalculus

/-- A component of a tensor of the shape. -/
abbrev Component.Lies (component : Component) (shape : Shape) : Prop :=
  List.Forall₂ (· < ·) component shape

/-- Positions on the axes of a tensor subscript it and leave its free indices as they are. -/
theorem lies_subscribes {component : Component} {shape : Shape} (set : FreeIndices)
    (lies : component.Lies shape) : Subscribes set (component.map .fixed) shape set := by
  refine ⟨by simpa using lies.length_eq, fun position dim member => ?_, fun i d => ?_⟩
  · rw [List.zip_map_left] at member
    obtain ⟨⟨p, d⟩, pair, same⟩ := List.mem_map.mp member
    cases same
    exact List.forall₂_zip lies pair
  · have absent : (.free i, d) ∉ (component.map IndexItem.fixed).zip shape := fun member => by
      simpa using (List.of_mem_zip member).1
    simp [absent]

namespace FreeIndices

variable {a b : FreeIndices}

/-- Entries that agree with a set and with each other can be added to it. -/
theorem exists_dims (a : FreeIndices) (entries : List (Index × Nat))
    (agree : ∀ i d d', (i, d) ∈ entries → a.dim? i = some d' ∨ (i, d') ∈ entries → d' = d) :
    ∃ r : FreeIndices, ∀ i d, r.dim? i = some d ↔ a.dim? i = some d ∨ (i, d) ∈ entries := by
  induction entries generalizing a with
  | nil => exact ⟨a, by simp⟩
  | cons entry rest ih =>
      obtain ⟨i, d⟩ := entry
      obtain ⟨middle, first⟩ := insert_runs fun e found => agree i d e List.mem_cons_self (.inl found)
      obtain ⟨r, dims⟩ := ih middle fun j e e' member other => by
        refine agree j e e' (List.mem_cons_of_mem _ member) ?_
        rw [insert_dim first, or_assoc] at other
        simpa using other
      exact ⟨r, fun j e => by simp [dims, insert_dim first, or_assoc]⟩

theorem exists_union (agree : ∀ i d d', a.dim? i = some d → b.dim? i = some d' → d = d') :
    ∃ r : FreeIndices, r.IsUnion a b := by
  obtain ⟨r, dims⟩ := exists_dims a b.entries fun i d d' member other => by
    rw [mem_entries_iff] at member
    rcases other with known | member'
    · exact agree i d' d known member
    · rw [mem_entries_iff] at member'
      exact Option.some.inj (member'.symm.trans member)
  exact ⟨r, fun i d => by rw [dims, mem_entries_iff]⟩

/-- Different indices, all of them free, can be bound. -/
theorem exists_binds {indices : List Index} (distinct : indices.Nodup)
    (known : ∀ i ∈ indices, a.contains i = true) : ∃ shape free, Binds a indices shape free := by
  -- Binding one leaves the others free.
  induction indices generalizing a with
  | nil => exact ⟨[], a, rfl, .nil, by simp, by simp⟩
  | cons index rest ih =>
      obtain ⟨absent, distinct⟩ := List.nodup_cons.mp distinct
      obtain ⟨here, others⟩ := List.forall_mem_cons.mp known
      obtain ⟨dim, found⟩ := contains_iff.mp here
      obtain ⟨shape, free, binds⟩ := ih (a := a.erase index) distinct fun i member => by
        obtain ⟨d, found⟩ := contains_iff.mp (others i member)
        have other : i ≠ index := fun same => absent (same ▸ member)
        exact contains_iff.mpr ⟨d, (erase_dim _ _ _ _).mpr ⟨other, found⟩⟩
      refine ⟨dim :: shape, free, congrArg _ binds.length, List.nodup_cons.mpr ⟨absent, distinct⟩,
        fun i d pair => ?_, fun i d => ?_⟩
      · rcases List.mem_cons.mp pair with same | pair
        · cases same
          exact found
        · exact ((erase_dim _ _ _ _).mp (binds.found i d pair)).2
      · rw [binds.dims, erase_dim, List.mem_cons, not_or]
        exact and_assoc.symm.trans (and_congr_left' and_comm)

end FreeIndices

/-- Positions in the shape, and indices that agree with those already free, can be subscripts. -/
theorem exists_subscribes (set : FreeIndices) {items : List IndexItem} {shape : Shape}
    (length : items.length = shape.length)
    (within : ∀ position dim, (.fixed position, dim) ∈ items.zip shape → position < dim)
    (agree : ∀ i d d', (.free i, d) ∈ items.zip shape →
      set.dim? i = some d' ∨ (.free i, d') ∈ items.zip shape → d' = d) :
    ∃ free, Subscribes set items shape free := by
  let entries := (items.zip shape).filterMap fun pair => pair.1.free?.map fun i => (i, pair.2)
  have member (i : Index) (d : Nat) : (i, d) ∈ entries ↔ (.free i, d) ∈ items.zip shape := by
    constructor
    · intro inside
      obtain ⟨⟨item, dim⟩, pair, same⟩ := List.mem_filterMap.mp inside
      cases item with
      | fixed => cases same
      | free index =>
          cases same
          exact pair
    · exact fun pair => List.mem_filterMap.mpr ⟨_, pair, rfl⟩
  obtain ⟨free, dims⟩ := FreeIndices.exists_dims set entries
    fun i d d' here other => agree i d d' ((member i d).mp here) (other.imp_right (member i d').mp)
  exact ⟨free, length, within, fun i d => by rw [dims, member]⟩

namespace Expr

section Total

variable [Folding] {a b e : Expr}

theorem add_total (shape : a.shape = b.shape) (free : a.free = b.free) : ∃ r, a.add b = .ok r := by
  simp only [add, expect_same_shape_runs shape, expect_same_free_runs free, except_ok_bind]
  repeat' split
  all_goals exact ⟨_, rfl⟩

theorem scalar_product_total {free : FreeIndices} (left : a.shape = []) (right : b.shape = [])
    (union : free.IsUnion a.free b.free) : ∃ r, a.scalarProduct b = .ok r := by
  simp only [scalarProduct, expect_scalar_runs left, expect_scalar_runs right, union.joins,
    except_ok_bind]
  repeat' split
  all_goals exact ⟨_, rfl⟩

theorem scalar_quotient_total {free : FreeIndices} (left : a.shape = []) (right : b.shape = [])
    (union : free.IsUnion a.free b.free) (nonzero : b.isZero = false) :
    ∃ r, a.scalarQuotient b = .ok r := by
  simp only [scalarQuotient, expect_scalar_runs left, expect_scalar_runs right, union.joins, nonzero,
    except_ok_bind, Bool.false_eq_true, if_false]
  repeat' split
  all_goals exact ⟨_, rfl⟩

theorem pow_total (left : a.shape = []) (right : b.shape = []) (free : b.free = ∅) :
    ∃ r, a.pow b = .ok r := by
  simp only [pow, expect_scalar_runs left, expect_scalar_runs right, FreeIndices.is_empty_iff.mpr free,
    except_ok_bind, Bool.not_true, Bool.false_eq_true, if_false]
  repeat' split
  all_goals exact ⟨_, rfl⟩

theorem sqrt_total (scalar : a.shape = []) : ∃ r, a.sqrt = .ok r := by
  simp only [sqrt, expect_scalar_runs scalar, except_ok_bind]
  repeat' split
  all_goals exact ⟨_, rfl⟩

omit [Folding] in
theorem subscript_total {items : List IndexItem} {free : FreeIndices} (plain : e.kind ≠ .listTensor)
    (subscribes : Subscribes e.free items e.shape free) : ∃ r, e.subscript items = .ok r := by
  have length : items.length = e.rank := subscribes.length
  have other : ∀ entries shape free, e ≠ .node .listTensor entries shape free :=
    fun _ _ _ same => plain (by rw [same]; rfl)
  rw [subscript]
  · simp only [length, ne_eq, not_true_eq_false, if_false, subscribes.runs, except_ok_bind]
    repeat' split
    all_goals exact ⟨_, rfl⟩
  · exact other

omit [Folding] in
theorem subscript_entry_at {self : Expr} {entries : List Expr} {position : Nat}
    {items : List IndexItem} (inside : position < entries.length) :
    subscriptEntry self entries position items = entries[position].subscript items := by
  induction entries generalizing position with
  | nil => cases inside
  | cons entry entries ih =>
      cases position with
      | zero => rw [subscriptEntry, List.getElem_cons_zero]
      | succ position =>
          rw [subscriptEntry, List.getElem_cons_succ]
          exact ih (Nat.lt_of_succ_lt_succ inside)

omit [Folding] in
/-- The subscripts of a tensor that stores what its operands say, entries of lists among them. -/
theorem typed_subscript_total {items : List IndexItem} {free : FreeIndices} (typed : WellTyped e)
    (subscribes : Subscribes e.free items e.shape free) : ∃ r, e.subscript items = .ok r := by
  -- The subscripts go down one level of lists each.
  induction items generalizing e with
  | nil =>
      refine subscript_total (fun list => ?_) subscribes
      obtain ⟨entries, shape, free, rfl⟩ := kind_list_tensor list
      obtain _ | ⟨types, _⟩ := typed
      cases types
      cases subscribes.length
  | cons item rest ih =>
      by_cases list : e.kind = .listTensor
      · obtain ⟨entries, shape, set, rfl⟩ := kind_list_tensor list
        have below := typed
        obtain _ | ⟨types, _⟩ := typed
        cases types with
        | @listTensor _ inner _ some same =>
            have length : (item :: rest).length = (entries.length :: inner).length :=
              subscribes.length
            have subscribed : set.subscribe (.node .listTensor entries (entries.length :: inner) set)
                (item :: rest) (entries.length :: inner) = .ok free := subscribes.runs
            rw [subscript]
            simp only [rank, shape, Expr.free, length, ne_eq, not_true_eq_false, if_false,
              subscribed, except_ok_bind, List.isEmpty_cons, Bool.false_eq_true]
            cases item with
            | free index => exact ⟨_, rfl⟩
            | fixed position =>
                have inside : position < entries.length :=
                  subscribes.within position entries.length List.mem_cons_self
                have member := List.getElem_mem inside
                simp only [subscript_entry_at inside]
                refine ih (below.operand member) ?_
                rw [(same _ member).1, (same _ member).2]
                refine ⟨Nat.succ.inj length, fun p d pair =>
                  subscribes.within p d (List.mem_cons_of_mem _ pair), fun i d => ?_⟩
                have dims := subscribes.dims i d
                simpa [Expr.free, shape] using dims
      · exact subscript_total list subscribes

omit [Folding] in
theorem typed_component_total {component : Component} (typed : WellTyped e)
    (lies : component.Lies e.shape) : ∃ r, e.component component = .ok r :=
  typed_subscript_total typed (lies_subscribes e.free lies)

end Total

section Indices

variable {e : Expr}

theorem index_sum_total {i : Index} (scalar : e.shape = []) (known : e.free.contains i = true) :
    ∃ r, e.indexSum i = .ok r := by
  simp only [indexSum, expect_scalar_runs scalar, known, except_ok_bind, Bool.not_true,
    Bool.false_eq_true, if_false]
  split <;> exact ⟨_, rfl⟩

theorem index_sums_total {indices : List Index} (scalar : e.shape = []) (distinct : indices.Nodup)
    (known : ∀ i ∈ indices, e.free.contains i = true) : ∃ r, e.indexSums indices = .ok r := by
  -- A sum over one index leaves the others free.
  induction indices generalizing e with
  | nil => exact ⟨e, rfl⟩
  | cons index rest ih =>
      obtain ⟨absent, distinct⟩ := List.nodup_cons.mp distinct
      obtain ⟨here, others⟩ := List.forall_mem_cons.mp known
      obtain ⟨once, first⟩ := index_sum_total scalar here
      have stored : once.shape = [] ∧ once.free = e.free.erase index := by
        obtain ⟨_, _, ⟨_, rfl⟩ | rfl⟩ := index_sum_cases first <;> exact ⟨rfl, rfl⟩
      obtain ⟨r, sums⟩ := ih stored.1 distinct fun i member => by
        obtain ⟨d, found⟩ := FreeIndices.contains_iff.mp (others i member)
        have other : i ≠ index := fun same => absent (same ▸ member)
        rw [stored.2]
        exact FreeIndices.contains_iff.mpr ⟨d, (FreeIndices.erase_dim _ _ _ _).mpr ⟨other, found⟩⟩
      exact ⟨r, (except_bind_ok _ _ _).mpr ⟨once, first, sums⟩⟩

theorem as_tensor_total {indices : List Index} {shape : Shape} {free : FreeIndices}
    (scalar : e.shape = []) (binds : Binds e.free indices shape free) :
    ∃ r, e.asTensor indices = .ok r := by
  simp only [asTensor, expect_scalar_runs scalar, binds.runs, except_ok_bind]
  repeat' split
  all_goals exact ⟨_, rfl⟩

end Indices

section Entries

variable {e r x y : Expr} {entries : List Expr}

theorem component_whole (scalar : e.shape = []) : e.component [] = .ok e := by
  have rank : e.rank = 0 := congrArg List.length scalar
  unfold component
  rw [List.map_nil]
  unfold subscript
  split <;> simp [rank]

/-- The components of zero are zero. -/
theorem component_of_zero {c : Component} (zero : e.isZero = true)
    (run : e.component c = .ok r) : r.isZero = true := by
  obtain ⟨shape, free, rfl⟩ := is_zero_iff.mp zero
  unfold component zeros at run
  rw [subscript] at run
  · obtain ⟨_, run⟩ := except_if_ok (by simp) run
    split at run
    · cases run
      rfl
    · obtain ⟨set, _, run⟩ := (except_bind_ok _ _ _).mp run
      cases run
      rfl
  · simp

/-- The components of a list are those of its entries; a list of zeros is zero. -/
theorem list_tensor_component {position : Nat} {rest : Component} (list : listTensor entries = .ok r)
    (found : entries[position]? = some e) (run : r.component (position :: rest) = .ok x)
    (below : e.component rest = .ok y) : x = y ∨ x.isZero = true ∧ y.isZero = true := by
  obtain ⟨shape, free, _, _, ⟨zero, rfl⟩ | rfl⟩ := list_tensor_cases list
  · exact .inr ⟨component_of_zero rfl run,
      component_of_zero (zero e (List.mem_of_getElem? found)) below⟩
  · rw [component, List.map_cons, subscript] at run
    obtain ⟨_, run⟩ := except_if_ok (by simp) run
    obtain ⟨_, _, run⟩ := (except_bind_ok _ _ _).mp run
    obtain ⟨entry, place, run⟩ := subscript_entry_ok run
    obtain rfl : entry = e := Option.some.inj (place.symm.trans found)
    exact .inl (Except.ok.inj (run.symm.trans below))

theorem list_tensor_total {shape : Shape} {free : FreeIndices} (some : entries ≠ [])
    (same : ∀ e ∈ entries, e.shape = shape ∧ e.free = free) :
    ∃ r, listTensor entries = .ok r ∧ r.shape = entries.length :: shape ∧ r.free = free := by
  refine ⟨_, list_tensor_runs_either some same, ?_⟩
  split <;> exact ⟨rfl, rfl⟩

theorem vector_total (some : entries ≠ []) (scalars : ∀ e ∈ entries, e.shape = [] ∧ e.free = ∅) :
    ∃ r, vector entries = .ok r ∧ r.shape = [entries.length] ∧ r.free = ∅ := by
  obtain ⟨r, list, shape, free⟩ := list_tensor_total some scalars
  refine ⟨r, ?_, shape, free⟩
  have checks : (forIn entries PUnit.unit fun entry _ => do
      expectScalar .vector entry
      pure (ForInStep.yield PUnit.unit)) = (.ok PUnit.unit : Except BuildError PUnit) := by
    refine each_passes fun entry member => ?_
    rw [expect_scalar_runs (scalars entry member).1]
    rfl
  simp only [vector, checks, except_ok_bind, list]

theorem matrix_total {rows : List (List Expr)} {n : Nat} (some : rows ≠ []) (width : n ≠ 0)
    (widths : ∀ row ∈ rows, row.length = n)
    (scalars : ∀ row ∈ rows, ∀ e ∈ row, e.shape = [] ∧ e.free = ∅) :
    ∃ r, matrix rows = .ok r ∧ r.shape = [rows.length, n] ∧ r.free = ∅ := by
  have each (row : List Expr) (member : row ∈ rows) :
      ∃ w, vector row = .ok w ∧ w.shape = [n] ∧ w.free = ∅ := by
    have length := widths row member
    have nonempty : row ≠ [] := fun none => width (by rw [← length, none]; rfl)
    exact length ▸ vector_total nonempty (scalars row member)
  obtain ⟨vectors, made⟩ := mapM_total fun row member => (each row member).imp fun _ => And.left
  have length : vectors.length = rows.length := (mapM_ok made).length_eq.symm
  have nonempty : vectors ≠ [] := fun none =>
    some (List.eq_nil_of_length_eq_zero (by rw [← length, none]; rfl))
  obtain ⟨r, list, shape, free⟩ := list_tensor_total nonempty fun w member => by
    obtain ⟨place, found⟩ := List.mem_iff_getElem?.mp member
    obtain ⟨row, known, run⟩ := mapM_get made found
    obtain ⟨w', run', type⟩ := each row (List.mem_of_getElem? known)
    exact Except.ok.inj (run'.symm.trans run) ▸ type
  exact ⟨r, (except_bind_ok _ _ _).mpr ⟨vectors, made, list⟩, length ▸ shape, free⟩

end Entries

end Expr

end FormCalculus
