import FormCalculus.Proofs.Construction
import FormCalculus.Proofs.Ordering

/-!
When an operator makes a node: exactly of operands it has a type for and that none of its
simplifications applies to.
-/
set_option autoImplicit false

namespace FormCalculus

open Expr

/-! Checks that typed operands pass. -/

namespace FreeIndices

variable {a b r : FreeIndices}

theorem insert_runs {i : Index} {d : Nat} (agrees : ∀ e, a.dim? i = some e → e = d) :
    ∃ r, a.insert i d = .ok r := by
  unfold insert
  cases found : a.dim? i with
  | none => exact ⟨_, rfl⟩
  | some present => exact ⟨a, if_pos (agrees present found)⟩

/-- Entries can be added to a set that is part of one they are all in. -/
theorem insert_all_runs {entries : List (Index × Nat)} (inside : a ⊆ r)
    (known : ∀ entry ∈ entries, r.dim? entry.1 = some entry.2) :
    ∃ b, a.insertAll entries = .ok b := by
  induction entries generalizing a with
  | nil => exact ⟨a, rfl⟩
  | cons head rest ih =>
      obtain ⟨here, others⟩ := List.forall_mem_cons.mp known
      have agrees : ∀ e, a.dim? head.1 = some e → e = head.2 := fun e found =>
        Option.some.inj ((inside head.1 e found).symm.trans here)
      obtain ⟨middle, first⟩ := insert_runs agrees
      have inside : middle ⊆ r := by
        intro i d found
        rcases (insert_dim first i d).mp found with known | ⟨rfl, rfl⟩
        · exact inside i d known
        · exact here
      obtain ⟨last, run⟩ := ih inside others
      exact ⟨last, (except_bind_ok _ _ _).mpr ⟨middle, first, run⟩⟩

theorem IsUnion.runs (union : r.IsUnion a b) : a.union b = .ok r := by
  obtain ⟨s, run⟩ : ∃ s, a.insertAll b.entries = .ok s := insert_all_runs union.left_subset
    fun entry member => union.right_subset _ _ ((mem_entries_iff b _ _).mp member)
  rw [union.unique (union_is_union run)]
  exact run

theorem IsUnion.joins (union : r.IsUnion a b) : a.join b = .ok r :=
  (except_map_error_ok _ _ _).mpr union.runs

end FreeIndices

theorem Subscribes.runs {tensor : Expr} {set free : FreeIndices} {items : List IndexItem}
    {shape : Shape} (subscribes : Subscribes set items shape free) :
    set.subscribe tensor items shape = .ok free := by
  obtain ⟨length, within, dims⟩ := subscribes
  induction items generalizing set shape with
  | nil =>
      cases shape with
      | nil => exact congrArg Except.ok (FreeIndices.ext_dim fun i d => by simp [dims])
      | cons => cases length
  | cons item items ih =>
      cases shape with
      | nil => cases length
      | cons dim shape =>
          replace length := Nat.succ.inj length
          cases item with
          | fixed position =>
              have inside : position < dim := within position dim (by simp)
              rw [FreeIndices.subscribe, if_neg (by omega)]
              refine ih length (fun p d member => within p d (List.mem_cons_of_mem _ member)) ?_
              intro i d
              rw [dims, List.zip_cons_cons, List.mem_cons]
              simp
          | free index =>
              have here : free.dim? index = some dim := (dims index dim).mpr (.inr (by simp))
              obtain ⟨middle, first⟩ := FreeIndices.insert_runs (a := set) (i := index) (d := dim)
                fun e found => Option.some.inj (((dims index e).mpr (.inl found)).symm.trans here)
              have extended : set.extend index dim = .ok middle := (except_map_error_ok _ _ _).mpr first
              rw [FreeIndices.subscribe, except_bind_ok]
              refine ⟨middle, extended, ih length
                (fun p d member => within p d (List.mem_cons_of_mem _ member)) ?_⟩
              intro i d
              rw [dims, FreeIndices.extend_dim extended, List.zip_cons_cons, List.mem_cons, or_assoc]
              simp

theorem Binds.runs {e : Expr} {set free : FreeIndices} {indices : List Index} {shape : Shape}
    (binds : Binds set indices shape free) : bindIndices e set indices = .ok (shape, free) := by
  obtain ⟨length, distinct, found, dims⟩ := binds
  induction indices generalizing set shape with
  | nil =>
      cases shape with
      | nil =>
          have same : set = free := FreeIndices.ext_dim fun i d => by simp [dims]
          rw [bindIndices, same]
      | cons => cases length
  | cons index rest ih =>
      cases shape with
      | nil => cases length
      | cons dim shape =>
          obtain ⟨absent, distinct⟩ := List.nodup_cons.mp distinct
          have here : set.dim? index = some dim := found index dim (by simp)
          have others : bindIndices e (set.erase index) rest = .ok (shape, free) := by
            refine ih (Nat.succ.inj length) distinct (fun i d member => ?_) fun i d => ?_
            · have other : i ≠ index := fun same => absent (same ▸ (List.of_mem_zip member).1)
              exact (FreeIndices.erase_dim _ _ _ _).mpr
                ⟨other, found i d (List.mem_cons_of_mem _ member)⟩
            · rw [dims, FreeIndices.erase_dim, List.mem_cons, not_or]
              exact (and_congr_left' and_comm).trans and_assoc
          rw [bindIndices]
          simp only [here, others]
          rfl

theorem condition_free_runs {op : Comparison} {operands : List Expr} {set free : FreeIndices}
    (checks : ∀ o ∈ operands, o.shape = [] ∧ (op.isLogical = true → o.kind = .condition))
    (dims : ∀ i d, free.dim? i = some d ↔
      set.dim? i = some d ∨ ∃ o ∈ operands, o.free.dim? i = some d) :
    conditionFree op set operands = .ok free := by
  induction operands generalizing set with
  | nil => exact congrArg Except.ok (FreeIndices.ext_dim fun i d => by simp [dims])
  | cons head rest ih =>
      obtain ⟨⟨scalar, logical⟩, others⟩ := List.forall_mem_cons.mp checks
      have inside : set ⊆ free := fun i d found => (dims i d).mpr (.inl found)
      obtain ⟨middle, union⟩ : ∃ middle, set.insertAll head.free.entries = .ok middle :=
        FreeIndices.insert_all_runs inside fun entry member => (dims _ _).mpr
          (.inr ⟨head, List.mem_cons_self, (FreeIndices.mem_entries_iff _ _ _).mp member⟩)
      have joined : set.join head.free = .ok middle := (except_map_error_ok _ _ _).mpr union
      have run : conditionFree op middle rest = .ok free := by
        refine ih others fun i d => ?_
        rw [dims, FreeIndices.join_ok joined, or_assoc, List.exists_mem_cons_iff]
      rw [conditionFree, if_neg (by simpa using logical), (expect_scalar_ok (u := ())).mpr scalar]
      simp only [except_ok_bind, joined, run]

namespace Expr

/-- Whether the subscripts select a component right away. -/
def Selects (e : Expr) (items : List IndexItem) : Prop :=
  (e.kind = .identity ∧ ∃ row column, items = [.fixed row, .fixed column]) ∨
    (e.kind = .listTensor ∧ ∃ position rest, items = .fixed position :: rest)

end Expr

namespace Operator

/-- No simplification of the operator applies to the operands. -/
def Admits : Operator → List Expr → Prop
  | .sum, [a, b] => a.isZero = false ∧ b.isZero = false ∧ fold? .addition a b = none
  | .product, [a, b] => a.isZero = false ∧ b.isZero = false ∧ fold? .multiplication a b = none ∧
      a.isOne = false ∧ b.isOne = false
  | .division, [a, b] => a.isZero = false ∧ b.isZero = false ∧ fold? .division a b = none ∧
      b.isOne = false
  | .power, [a, b] => b.isOne = false ∧ fold? .exponentiation a b = none
  | .sqrt, [a] => a.isZero = false ∧ a.foldRoot? = none
  | .indexed, [a, ii] => a.isZero = false ∧ ∀ items, ii = multiIndex items → ¬ a.Selects items
  | .componentTensor, [a, ii] => a.isZero = false ∧
      ∀ tensor shape free, a ≠ .node .indexed [tensor, ii] shape free
  | .listTensor, entries => ∃ entry ∈ entries, entry.isZero = false
  | .indexSum, a :: _ | .grad, a :: _ | .div, a :: _ => a.isZero = false
  | .inner, [a, b] | .outer, [a, b] | .dot, [a, b] | .cross, [a, b] =>
      a.isZero = false ∧ b.isZero = false
  | _, _ => True

/-- The operands of a derivative live on the domain whose dimension the node shows. -/
def Lives : Operator → List Expr → Shape → FreeIndices → Prop
  | .grad, [f], shape, _ => ∃ gdim, f.geometricDimension = .ok gdim ∧ shape = f.shape ++ [gdim]
  | .spatialDerivative, [f, ii], _, free => ∃ gdim items, f.geometricDimension = .ok gdim ∧
      ii = multiIndex items ∧ Subscribes f.free items (items.map fun _ => gdim) free
  | _, _, _, _ => True

/-- The order in which a node lists its operands. -/
def arrange : Operator → List Expr → List Expr
  | .sum, [a, b] | .product, [a, b] => sortedPair a b
  | _, operands => operands

end Operator

namespace Expr

variable {e : Expr}

theorem is_scalar_iff : e.isScalar = true ↔ e.shape = [] := by
  rw [isScalar, List.isEmpty_iff]

theorem sorted_pair_cases (a b : Expr) : sortedPair a b = [a, b] ∨ sortedPair a b = [b, a] := by
  unfold sortedPair
  split
  · exact .inr rfl
  · exact .inl rfl

/-- Two constants always fold. -/
theorem fold_none_iff {op : Constant.Operation} {a b : Expr} :
    fold? op a b = none ↔ a.constant? = none ∨ b.constant? = none := by
  unfold fold?
  cases a.constant? with
  | none => simp
  | some x =>
      cases b.constant? with
      | none => simp
      | some y => simp [Folding.fold?]

theorem expect_scalar_runs {op : Construction} (scalar : e.shape = []) : expectScalar op e = .ok () :=
  expect_scalar_ok.mpr scalar

theorem expect_same_shape_runs {op : Construction} {a b : Expr} (same : a.shape = b.shape) :
    expectSameShape op a b = .ok () :=
  expect_same_shape_ok.mpr same

theorem expect_same_free_runs {op : Construction} {a b : Expr} (same : a.free = b.free) :
    expectSameFree op a b = .ok () :=
  expect_same_free_ok.mpr same

theorem subscript_runs {items : List IndexItem} {free : FreeIndices} (some : items ≠ [])
    (subscribes : Subscribes e.free items e.shape free) (nonzero : e.isZero = false)
    (stays : ¬ e.Selects items) :
    e.subscript items = .ok (.node .indexed [e, multiIndex items] [] free) := by
  have length : items.length = e.rank := subscribes.length
  have subscribed : e.free.subscribe e items e.shape = .ok free := subscribes.runs
  have nonempty : items.isEmpty = false := by simpa using some
  by_cases list : ∃ entries shape set, e = .node .listTensor entries shape set
  · obtain ⟨entries, shape, set, rfl⟩ := list
    rw [subscript]
    simp only [length, ne_eq, not_true_eq_false, if_false, nonempty, Bool.false_eq_true, subscribed,
      except_ok_bind]
    cases items with
    | nil => exact absurd rfl some
    | cons item rest =>
        cases item with
        | fixed position => exact absurd (.inr ⟨rfl, position, rest, rfl⟩) stays
        | free index => rfl
  · rw [subscript]
    · simp only [length, ne_eq, not_true_eq_false, if_false, nonempty, Bool.false_eq_true,
        subscribed, except_ok_bind]
      split
      · cases nonzero
      · exact absurd (.inl ⟨rfl, _, _, rfl⟩) stays
      · rfl
    · exact fun entries shape set same => list ⟨entries, shape, set, same⟩

theorem as_tensor_runs {indices : List Index} {shape : Shape} {free : FreeIndices}
    (scalar : e.shape = []) (some : indices ≠ []) (binds : Binds e.free indices shape free)
    (nonzero : e.isZero = false)
    (other : ∀ tensor shape free,
      e ≠ .node .indexed [tensor, multiIndex (indices.map .free)] shape free) :
    e.asTensor indices =
      .ok (.node .componentTensor [e, multiIndex (indices.map .free)] shape free) := by
  have nonempty : indices.isEmpty = false := by simpa using some
  have bound : bindIndices e e.free indices = .ok (shape, free) := binds.runs
  simp only [asTensor, nonempty, Bool.false_eq_true, if_false, expect_scalar_runs scalar,
    except_ok_bind, bound, nonzero]
  split
  · split
    · rename_i tensor subscripts _ _ known
      rw [multi_index_some known] at other
      exact absurd rfl (other _ _ _)
    · rfl
  · rfl

/-- The checks of a list tensor pass where the entries have one type. -/
theorem entries_pass {first : Expr} {rest : List Expr}
    (same : ∀ e ∈ rest, e.shape = first.shape ∧ e.free = first.free) :
    (forIn rest PUnit.unit fun entry _ => do
      expectSameShape .listTensor first entry
      expectSameFree .listTensor first entry
      pure (ForInStep.yield PUnit.unit)) = (.ok PUnit.unit : Except BuildError PUnit) := by
  refine each_passes fun entry member => ?_
  obtain ⟨shape, free⟩ := same entry member
  rw [expect_same_shape_runs shape.symm, expect_same_free_runs free.symm]
  rfl

/-- Entries of one type can be listed: to zeros if all of them are zero, else to a node. -/
theorem list_tensor_runs_either {entries : List Expr} {shape : Shape} {free : FreeIndices}
    (some : entries ≠ []) (same : ∀ e ∈ entries, e.shape = shape ∧ e.free = free) :
    listTensor entries = .ok (if entries.all isZero then zeros (entries.length :: shape) free
      else .node .listTensor entries (entries.length :: shape) free) := by
  cases entries with
  | nil => exact absurd rfl some
  | cons first rest =>
      obtain ⟨⟨rfl, rfl⟩, others⟩ := List.forall_mem_cons.mp same
      simp only [listTensor, entries_pass others, except_ok_bind]
      split <;> rfl

theorem list_tensor_runs {entries : List Expr} {shape : Shape} {free : FreeIndices}
    (some : entries ≠ []) (same : ∀ e ∈ entries, e.shape = shape ∧ e.free = free)
    (nonzero : ∃ entry ∈ entries, entry.isZero = false) :
    listTensor entries = .ok (.node .listTensor entries (entries.length :: shape) free) := by
  have other : entries.all isZero = false := by
    obtain ⟨entry, member, nonzero⟩ := nonzero
    exact List.all_eq_false.mpr ⟨entry, member, by simp [nonzero]⟩
  rw [list_tensor_runs_either some same, other]
  rfl

theorem binary_runs {kind : Operator} {op : Construction} {a b : Expr} {free : FreeIndices}
    (shape : Shape) (apart : Apart a b) (union : free.IsUnion a.free b.free)
    (left : a.isZero = false) (right : b.isZero = false) :
    binary kind op a b shape = .ok (.node kind [a, b] shape free) := by
  have none : a.free.repeated b.free = [] := by
    refine List.eq_nil_iff_forall_not_mem.mpr fun ⟨i, d⟩ member => ?_
    obtain ⟨found, shared⟩ := FreeIndices.mem_repeated_iff.mp member
    exact apart i (FreeIndices.contains_iff.mpr ⟨d, found⟩) shared
  have joined : FreeIndices.joinDisjoint op a b = .ok free := by
    simp only [FreeIndices.joinDisjoint, none, union.joins]
  simp only [binary, joined, except_ok_bind, left, right, Bool.or_false, Bool.false_eq_true, if_false]
  rfl

theorem expect_square_runs {op : Construction} {a : Expr} {n : Nat} (shape : a.shape = [n, n]) :
    a.expectSquare op = .ok () := by
  simp only [expectSquare, shape, if_true]

/-- No node is its own operand. -/
theorem not_operand {op : Operator} {operands : List Expr} {shape : Shape} {free : FreeIndices}
    {o : Expr} (member : o ∈ operands) (same : o = .node op operands shape free) : False := by
  have below := size_le_sizes member
  rw [same, size] at below
  omega

theorem Subscripted.size_le {e r : Expr} {items : List IndexItem} (made : Subscripted e items r) :
    r.size ≤ e.size + 2 := by
  induction made with
  | whole => omega
  | zero => simp [zeros, size]
  | identity =>
      unfold int
      split <;> simp [Expr.zero, zeros, size]
  | entry found _ ih =>
      have below := size_le_sizes (List.mem_of_getElem? found)
      rw [size]
      omega
  | node => simp [size, sizes, multiIndex]

/-- An entry of a list tensor is too small to be a subscript of the whole. -/
theorem entry_not_indexed {entries : List Expr} {shape shape' : Shape} {free free' : FreeIndices}
    {entry ii : Expr} {items : List IndexItem} (member : entry ∈ entries)
    (made : Subscripted entry items
      (.node .indexed [.node .listTensor entries shape free, ii] shape' free')) : False := by
  have small := made.size_le
  have below := size_le_sizes member
  have positive : 0 < ii.size := by cases ii <;> simp [size]
  simp only [size, sizes] at small
  omega

theorem kind_identity {e : Expr} (kind : e.kind = .identity) : ∃ dim, e = identity dim := by
  cases e with
  | terminal data => cases data <;> first | exact ⟨_, rfl⟩ | cases kind
  | node op => cases op <;> cases kind
  | labelled => cases kind

theorem kind_list_tensor {e : Expr} (kind : e.kind = .listTensor) :
    ∃ entries shape free, e = .node .listTensor entries shape free := by
  cases e with
  | terminal data => cases data <;> cases kind
  | node op => cases op <;> first | exact ⟨_, _, _, rfl⟩ | cases kind
  | labelled => cases kind

/-- What holds of a tensor when subscripting it selects nothing. -/
theorem subscript_stays {e ii : Expr} {items : List IndexItem} {shape : Shape} {free : FreeIndices}
    (run : e.subscript items = .ok (.node .indexed [e, ii] shape free)) :
    (items ≠ [] ∧ Subscribes e.free items e.shape free ∧ shape = []) ∧ e.isZero = false ∧
      ¬ e.Selects items := by
  have made := subscript_cases run
  refine ⟨?_, ?_, ?_⟩
  · generalize same : Expr.node .indexed [e, ii] shape free = r at made
    cases made with
    | whole => exact (not_operand List.mem_cons_self same.symm).elim
    | zero => cases same
    | identity =>
        unfold int at same
        split at same <;> cases same
    | entry found made =>
        subst same
        exact (entry_not_indexed (List.mem_of_getElem? found) made).elim
    | node some subscribes =>
        cases same
        exact ⟨some, subscribes, rfl⟩
  · cases zero : e.isZero with
    | false => rfl
    | true =>
        obtain ⟨dims, set, rfl⟩ := is_zero_iff.mp zero
        rw [zeros, subscript] at run
        · obtain ⟨_, run⟩ := except_if_ok (by simp) run
          split at run
          · cases run
          · obtain ⟨_, _, run⟩ := (except_bind_ok _ _ _).mp run
            cases run
        · intro _ _ _ same
          cases same
  · rintro (⟨kind, row, column, rfl⟩ | ⟨kind, position, rest, rfl⟩)
    · obtain ⟨dim, rfl⟩ := kind_identity kind
      rw [identity, subscript] at run
      · obtain ⟨_, run⟩ := except_if_ok (by simp) run
        obtain ⟨_, _, run⟩ := (except_bind_ok _ _ _).mp run
        have same := (except_pure_ok _ _).mp run
        unfold int at same
        split at same <;> cases same
      · intro _ _ _ same
        cases same
    · obtain ⟨entries, dims, set, rfl⟩ := kind_list_tensor kind
      rw [subscript] at run
      obtain ⟨_, run⟩ := except_if_ok (by simp) run
      obtain ⟨_, _, run⟩ := (except_bind_ok _ _ _).mp run
      obtain ⟨entry, found, run⟩ := subscript_entry_ok run
      exact entry_not_indexed (List.mem_of_getElem? found) (subscript_cases run)

theorem index_sum_stays {e ii : Expr} {index : Index} {shape : Shape} {free : FreeIndices}
    (run : e.indexSum index = .ok (.node .indexSum [e, ii] shape free)) :
    (e.shape = [] ∧ e.free.contains index = true ∧ shape = [] ∧ free = e.free.erase index) ∧
      e.isZero = false := by
  simp only [indexSum, except_bind_ok, expect_scalar_ok] at run
  obtain ⟨_, scalar, run⟩ := run
  obtain ⟨known, run⟩ := except_if_ok (by simp) run
  split at run
  · cases (except_pure_ok _ _).mp run
  · rename_i nonzero
    cases (except_pure_ok _ _).mp run
    exact ⟨⟨scalar, by simpa using known, rfl, rfl⟩, eq_false_of_ne_true nonzero⟩

theorem as_tensor_stays {e : Expr} {indices : List Index} {shape : Shape} {free : FreeIndices}
    (run : e.asTensor indices =
      .ok (.node .componentTensor [e, multiIndex (indices.map .free)] shape free)) :
    (e.shape = [] ∧ indices ≠ [] ∧ Binds e.free indices shape free) ∧ e.isZero = false ∧
      ∀ tensor shape free, e ≠ .node .indexed [tensor, multiIndex (indices.map .free)] shape free := by
  unfold asTensor at run
  split at run
  · exact (not_operand List.mem_cons_self ((except_pure_ok _ _).mp run)).elim
  · rename_i nonempty
    have some : indices ≠ [] := fun none => nonempty (List.isEmpty_iff.mpr none)
    simp only [except_bind_ok, expect_scalar_ok] at run
    obtain ⟨_, scalar, ⟨dims, set⟩, bound, run⟩ := run
    split at run
    · cases (except_pure_ok _ _).mp run
    · rename_i nonzero
      have other : ∀ tensor shape free,
          e ≠ .node .indexed [tensor, multiIndex (indices.map .free)] shape free := by
        -- Subscripts by the same indices are undone, and the tensor does not contain itself.
        rintro tensor dims' set' rfl
        simp only [multiIndex?, multiIndex, if_true] at run
        have below := congrArg size ((except_pure_ok _ _).mp run)
        simp only [size, sizes] at below
        omega
      split at run
      · split at run
        · rename_i tensor subscripts _ _ _ known
          rw [multi_index_some known] at other
          exact absurd rfl (other _ _ _)
        · cases (except_pure_ok _ _).mp run
          exact ⟨⟨scalar, some, bind_indices_ok bound⟩, eq_false_of_ne_true nonzero, other⟩
      · cases (except_pure_ok _ _).mp run
        exact ⟨⟨scalar, some, bind_indices_ok bound⟩, eq_false_of_ne_true nonzero, other⟩

theorem list_tensor_stays {entries : List Expr} {shape : Shape} {free : FreeIndices}
    (run : listTensor entries = .ok (.node .listTensor entries shape free)) :
    ∃ entry ∈ entries, entry.isZero = false := by
  unfold listTensor at run
  cases entries with
  | nil => simp at run
  | cons first rest =>
      obtain ⟨_, _, run⟩ := (except_bind_ok _ _ _).mp run
      split at run
      · cases (except_pure_ok _ _).mp run
      · rename_i nonzero
        obtain ⟨entry, member, nonzero⟩ := List.all_eq_false.mp (eq_false_of_ne_true nonzero)
        exact ⟨entry, member, eq_false_of_ne_true nonzero⟩

theorem binary_stays {kind : Operator} {op : Construction} {a b : Expr} {shape shape' : Shape}
    {free : FreeIndices} (run : binary kind op a b shape = .ok (.node kind [a, b] shape' free)) :
    (Apart a b ∧ free.IsUnion a.free b.free ∧ shape' = shape) ∧ a.isZero = false ∧
      b.isZero = false := by
  simp only [binary, except_bind_ok] at run
  obtain ⟨set, joined, run⟩ := run
  obtain ⟨apart, union⟩ := join_disjoint_ok joined
  split at run
  · cases (except_pure_ok _ _).mp run
  · rename_i nonzero
    simp only [Bool.or_eq_true, not_or, Bool.not_eq_true] at nonzero
    cases (except_pure_ok _ _).mp run
    exact ⟨⟨apart, union, rfl⟩, nonzero⟩

end Expr

namespace Operator

/-- An operator makes a node of operands that have a type and that it does not simplify. -/
theorem assembles {op : Operator} {operands : List Expr} {shape : Shape} {free : FreeIndices}
    (types : op.Types operands shape free) (admits : op.Admits operands)
    (lives : op.Lives operands shape free) :
    op.assemble operands = .ok (.node op (op.arrange operands) shape free) := by
  cases types with
  | sum shape free =>
      obtain ⟨left, right, unfolded⟩ := admits
      simp only [assemble, add, expect_same_shape_runs shape, expect_same_free_runs free,
        except_ok_bind, left, right, unfolded, Bool.false_eq_true, if_false]
      rfl
  | product sa sb union =>
      obtain ⟨left, right, unfolded, notOne, notOne'⟩ := admits
      simp only [assemble, scalarProduct, expect_scalar_runs sa, expect_scalar_runs sb,
        union.joins, except_ok_bind, left, right, unfolded, notOne, notOne', Bool.or_false,
        Bool.false_eq_true, if_false]
      rfl
  | division sa sb union =>
      obtain ⟨left, right, unfolded, notOne⟩ := admits
      simp only [assemble, scalarQuotient, expect_scalar_runs sa, expect_scalar_runs sb,
        union.joins, except_ok_bind, left, right, unfolded, notOne, Bool.false_eq_true, if_false]
      rfl
  | power sa sb free =>
      obtain ⟨notOne, unfolded⟩ := admits
      have unindexed := FreeIndices.is_empty_iff.mpr free
      simp only [assemble, pow, expect_scalar_runs sa, expect_scalar_runs sb, except_ok_bind,
        unindexed, notOne, unfolded, Bool.not_true, Bool.false_eq_true, if_false]
      rfl
  | sqrt scalar =>
      obtain ⟨nonzero, unfolded⟩ := admits
      simp only [assemble, Expr.sqrt, expect_scalar_runs scalar, except_ok_bind, nonzero, unfolded,
        Bool.false_eq_true, if_false]
      rfl
  | indexed some subscribes =>
      obtain ⟨nonzero, stays⟩ := admits
      exact subscript_runs some subscribes nonzero (stays _ rfl)
  | @indexSum a index scalar known =>
      have nonzero : a.isZero = false := admits
      have items : (multiIndex [.free index]).expectIndices .indexSum = .ok [index] :=
        expect_indices_free .indexSum [index]
      simp only [assemble, items, except_ok_bind, Expr.indexSum, expect_scalar_runs scalar,
        known, nonzero, Bool.not_true, Bool.false_eq_true, if_false]
      rfl
  | @componentTensor a indices _ _ scalar some binds =>
      obtain ⟨nonzero, other⟩ := admits
      show (do a.asTensor (← (multiIndex (indices.map .free)).expectIndices .componentTensor)) = _
      rw [expect_indices_free]
      exact as_tensor_runs scalar some binds nonzero other
  | listTensor some same => exact list_tensor_runs some same admits
  | @conditional test a b _ condition shape free union =>
      simp only [assemble, Expr.conditional, condition, expect_same_shape_runs shape,
        expect_same_free_runs free, union.joins, except_ok_bind, ne_eq, not_true_eq_false, if_false]
      rfl
  | @condition op operands free arity checks dims =>
      have found : conditionFree op ∅ operands = .ok free :=
        condition_free_runs checks (by simpa using dims)
      simp only [assemble, Expr.condition, arity, found, except_ok_bind, ne_eq, not_true_eq_false,
        if_false]
      rfl
  | @grad f gdim nonzero =>
      obtain ⟨dim, found, shape⟩ := lives
      obtain rfl : gdim = dim := by simpa using shape
      simp only [assemble, Expr.grad, found, except_ok_bind, nonzero, Bool.false_eq_true, if_false]
      rfl
  | @div f tensor =>
      have nonzero : f.isZero = false := admits
      have plain : f.isScalar = false := by simpa [isScalar] using tensor
      simp only [assemble, Expr.div, plain, nonzero, Bool.false_eq_true, if_false]
      rfl
  | curl shape =>
      simp only [assemble, Expr.curl, shape, except_ok_bind]
      rfl
  | rot shape =>
      simp only [assemble, Expr.rot, shape, except_ok_bind]
      rfl
  | @spatialDerivative f items gdim free some subscribes =>
      obtain ⟨dim, items', found, same, subscribes⟩ := lives
      obtain rfl : items = items' := by cases same; rfl
      have nonempty : items.isEmpty = false := by simpa using some
      show (do f.spatialDerivative (← (multiIndex items).expectItems .spatialDerivative)) = _
      simp only [expectItems, multiIndex?, multiIndex, except_ok_bind, Expr.spatialDerivative, nonempty,
        found, subscribes.runs, Bool.false_eq_true, if_false]
      rfl
  | variableDerivative labelled free =>
      have unindexed := FreeIndices.is_empty_iff.mpr free
      simp only [assemble, Expr.variableDerivative, labelled, unindexed, ne_eq, not_true_eq_false,
        Bool.not_true, Bool.false_eq_true, if_false]
      rfl
  | restricted => rfl
  | transposed shape =>
      simp only [assemble, Expr.transposed, shape]
      rfl
  | inner shape apart union =>
      simp only [assemble, innerNode, expect_same_shape_runs shape, except_ok_bind]
      exact binary_runs [] apart union admits.1 admits.2
  | outer apart union => exact binary_runs _ apart union admits.1 admits.2
  | dot shape apart union =>
      simp only [assemble, dotNode, shape, ne_eq, not_true_eq_false, if_false]
      exact binary_runs _ apart union admits.1 admits.2
  | cross sa sb apart union =>
      simp only [assemble, Expr.cross, sa, sb, ne_eq, not_true_eq_false, or_self, if_false]
      exact binary_runs _ apart union admits.1 admits.2
  | trace shape =>
      simp only [assemble, Expr.trace, expect_square_runs shape]
      rfl
  | skew shape =>
      simp only [assemble, Expr.skew, expect_square_runs shape, shape]
      rfl
  | determinant shape =>
      simp only [assemble, Expr.determinant, shape]
      rfl
  | inverse shape =>
      simp only [assemble, Expr.inverse, shape]
      rfl
  | cofactor shape =>
      simp only [assemble, Expr.cofactor, expect_square_runs shape, shape]
      rfl
  | deviatoric shape =>
      simp only [assemble, Expr.deviatoric, expect_square_runs shape, shape]
      rfl

theorem constant_not_node (c : Constant) {op : Operator} {operands : List Expr} {shape : Shape}
    {free : FreeIndices} (same : c.toExpr = .node op operands shape free) : False := by
  cases c <;> cases same

/-- What an operator has checked when it makes a node of the operands as they stand. -/
theorem assembled {op : Operator} {operands : List Expr} {shape : Shape} {free : FreeIndices}
    (run : op.assemble operands = .ok (.node op operands shape free)) :
    op.Types operands shape free ∧ op.Admits operands ∧ op.Lives operands shape free := by
  have stuck {o : Expr} (member : o ∈ operands)
      (same : (pure o : Except BuildError Expr) = .ok (.node op operands shape free)) : False :=
    not_operand member ((except_pure_ok _ _).mp same)
  have folded {how : Constant.Operation} {a b c : Expr} (known : fold? how a b = some c)
      (same : (pure c : Except BuildError Expr) = .ok (.node op operands shape free)) : False := by
    obtain ⟨_, _, value, _, _, _, rfl⟩ := fold_some known
    exact constant_not_node value ((except_pure_ok _ _).mp same)
  unfold assemble at run
  split at run
  · simp only [add, except_bind_ok, expect_same_shape_ok, expect_same_free_ok] at run
    obtain ⟨_, shapes, _, frees, run⟩ := run
    split at run
    · exact (stuck (by simp) run).elim
    split at run
    · exact (stuck (by simp) run).elim
    split at run
    · exact (folded ‹_› run).elim
    · obtain ⟨-, -, rfl, rfl⟩ := Expr.node.inj ((except_pure_ok _ _).mp run)
      rename_i left right _ unfolded
      simp only [Bool.not_eq_true] at left right
      exact ⟨.sum shapes frees, ⟨left, right, unfolded⟩, trivial⟩
  · simp only [scalarProduct, except_bind_ok, expect_scalar_ok] at run
    obtain ⟨_, left, _, right, set, joined, run⟩ := run
    split at run
    · cases (except_pure_ok _ _).mp run
    split at run
    · exact (folded ‹_› run).elim
    split at run
    · exact (stuck (by simp) run).elim
    split at run
    · exact (stuck (by simp) run).elim
    · obtain ⟨-, -, rfl, rfl⟩ := Expr.node.inj ((except_pure_ok _ _).mp run)
      rename_i zero _ unfolded notOne notOne'
      simp only [Bool.or_eq_true, not_or, Bool.not_eq_true] at zero notOne notOne'
      exact ⟨.product left right (FreeIndices.join_ok joined),
        ⟨zero.1, zero.2, unfolded, notOne, notOne'⟩, trivial⟩
  · simp only [scalarQuotient, except_bind_ok, expect_scalar_ok] at run
    obtain ⟨_, left, _, right, run⟩ := run
    obtain ⟨divisor, run⟩ := except_if_ok (by simp) run
    simp only [except_bind_ok] at run
    obtain ⟨set, joined, run⟩ := run
    split at run
    · cases (except_pure_ok _ _).mp run
    split at run
    · exact (folded ‹_› run).elim
    split at run
    · exact (stuck (by simp) run).elim
    · rename_i dividend _ unfolded notOne
      cases (except_pure_ok _ _).mp run
      simp only [Bool.not_eq_true] at divisor dividend notOne
      exact ⟨.division left right (FreeIndices.join_ok joined),
        ⟨dividend, divisor, unfolded, notOne⟩, trivial⟩
  · simp only [pow, except_bind_ok, expect_scalar_ok] at run
    obtain ⟨_, left, _, right, run⟩ := run
    obtain ⟨unindexed, run⟩ := except_if_ok (by simp) run
    split at run
    · exact (stuck (by simp) run).elim
    split at run
    · exact (folded ‹_› run).elim
    · rename_i notOne _ unfolded
      cases (except_pure_ok _ _).mp run
      exact ⟨.power left right (FreeIndices.is_empty_iff.mp (by simpa using unindexed)),
        ⟨by simpa using notOne, unfolded⟩, trivial⟩
  · simp only [Expr.sqrt, except_bind_ok, expect_scalar_ok] at run
    obtain ⟨_, scalar, run⟩ := run
    split at run
    · exact (stuck (by simp) run).elim
    split at run
    · obtain ⟨_, value, _, _, rfl⟩ := fold_root_some ‹_›
      exact (constant_not_node value ((except_pure_ok _ _).mp run)).elim
    · rename_i nonzero _ unfolded
      cases (except_pure_ok _ _).mp run
      exact ⟨.sqrt scalar, ⟨by simpa using nonzero, unfolded⟩, trivial⟩
  · obtain ⟨items, known, run⟩ := (except_bind_ok _ _ _).mp run
    obtain rfl := expect_items_ok known
    obtain ⟨⟨some, subscribes, rfl⟩, nonzero, stays⟩ := subscript_stays run
    exact ⟨.indexed some subscribes, ⟨nonzero, fun _ same => by cases same; exact stays⟩, trivial⟩
  · obtain ⟨indices, known, run⟩ := (except_bind_ok _ _ _).mp run
    obtain rfl := expect_indices_ok known
    split at run
    · rename_i index
      obtain ⟨⟨scalar, known, rfl, rfl⟩, nonzero⟩ := index_sum_stays run
      exact ⟨.indexSum scalar known, nonzero, trivial⟩
    · simp at run
  · obtain ⟨indices, known, run⟩ := (except_bind_ok _ _ _).mp run
    obtain rfl := expect_indices_ok known
    obtain ⟨⟨scalar, some, binds⟩, stays⟩ := as_tensor_stays run
    exact ⟨.componentTensor scalar some binds, stays, trivial⟩
  · have stays := list_tensor_stays run
    obtain ⟨dims, set, some, same, ⟨_, zero⟩ | node⟩ := list_tensor_cases run
    · cases zero
    · cases node
      exact ⟨.listTensor some same, stays, trivial⟩
  · obtain ⟨set, types, same⟩ := conditional_cases run
    cases same
    exact ⟨types, trivial, trivial⟩
  · obtain ⟨set, types, same⟩ := condition_cases run
    cases same
    exact ⟨types, trivial, trivial⟩
  · simp only [Expr.grad, except_bind_ok] at run
    obtain ⟨gdim, known, run⟩ := run
    split at run
    · cases (except_pure_ok _ _).mp run
    · rename_i nonzero
      have nonzero := eq_false_of_ne_true nonzero
      cases (except_pure_ok _ _).mp run
      exact ⟨.grad nonzero, nonzero, gdim, known, rfl⟩
  · unfold Expr.div at run
    split at run
    · cases run
    split at run
    · cases run
    · rename_i tensor nonzero
      cases run
      exact ⟨.div fun scalar => tensor (is_scalar_iff.mpr scalar), eq_false_of_ne_true nonzero, trivial⟩
  · obtain ⟨_, known, same⟩ := (except_bind_pure_ok _ _ _).mp run
    cases same
    exact ⟨.curl known, trivial, trivial⟩
  · obtain ⟨_, known, same⟩ := (except_bind_pure_ok _ _ _).mp run
    cases same
    exact ⟨.rot known, trivial, trivial⟩
  · obtain ⟨items, known, run⟩ := (except_bind_ok _ _ _).mp run
    obtain rfl := expect_items_ok known
    unfold Expr.spatialDerivative at run
    split at run
    · exact (stuck (by simp) run).elim
    · rename_i some
      simp only [except_bind_ok] at run
      obtain ⟨gdim, known, set, subscribed, run⟩ := run
      cases (except_pure_ok _ _).mp run
      have subscribes := FreeIndices.subscribe_ok subscribed (by simp)
      exact ⟨.spatialDerivative (fun none => some (List.isEmpty_iff.mpr none)) subscribes, trivial,
        gdim, items, known, rfl, subscribes⟩
  · obtain ⟨labelled, free, same⟩ := variable_derivative_cases run
    cases same
    exact ⟨.variableDerivative labelled free, trivial, trivial⟩
  · cases run
    exact ⟨.restricted, trivial, trivial⟩
  · unfold Expr.transposed at run
    split at run
    · rename_i shape
      cases run
      exact ⟨.transposed shape, trivial, trivial⟩
    · cases run
  · obtain ⟨_, shape, run⟩ := (except_bind_ok _ _ _).mp run
    rw [expect_same_shape_ok] at shape
    obtain ⟨⟨apart, union, rfl⟩, nonzero⟩ := binary_stays run
    exact ⟨.inner shape apart union, nonzero, trivial⟩
  · obtain ⟨⟨apart, union, rfl⟩, nonzero⟩ := binary_stays run
    exact ⟨.outer apart union, nonzero, trivial⟩
  · obtain ⟨shape, run⟩ := except_if_ok (by simp) run
    obtain ⟨⟨apart, union, rfl⟩, nonzero⟩ := binary_stays run
    exact ⟨.dot (not_not.mp shape) apart union, nonzero, trivial⟩
  · obtain ⟨shape, run⟩ := except_if_ok (by simp) run
    obtain ⟨left, right⟩ := not_or.mp shape
    obtain ⟨⟨apart, union, rfl⟩, nonzero⟩ := binary_stays run
    exact ⟨.cross (not_not.mp left) (not_not.mp right) apart union, nonzero, trivial⟩
  · obtain ⟨_, square, same⟩ := (except_bind_pure_ok _ _ _).mp run
    obtain ⟨n, shape⟩ := expect_square_ok square
    cases same
    exact ⟨.trace shape, trivial, trivial⟩
  · obtain ⟨_, square, same⟩ := (except_bind_pure_ok _ _ _).mp run
    obtain ⟨n, shape⟩ := expect_square_ok square
    cases same
    exact ⟨shape ▸ .skew shape, trivial, trivial⟩
  · unfold Expr.determinant at run
    split at run
    · exact (stuck (by simp) run).elim
    · rename_i shape
      cases run
      exact ⟨.determinant shape, trivial, trivial⟩
    · cases run
  · unfold Expr.inverse at run
    split at run
    · obtain ⟨_, _, set, _, ⟨_, same⟩ | known | ⟨_, same⟩ | same⟩ := scalar_quotient_cases run
      · cases same
      · exact (folded known rfl).elim
      · unfold one real at same
        split at same <;> cases same
      · cases same
    · rename_i shape
      cases run
      exact ⟨.inverse shape, trivial, trivial⟩
    · cases run
  · obtain ⟨_, square, same⟩ := (except_bind_pure_ok _ _ _).mp run
    obtain ⟨n, shape⟩ := expect_square_ok square
    cases same
    exact ⟨shape ▸ .cofactor shape, trivial, trivial⟩
  · obtain ⟨_, square, same⟩ := (except_bind_pure_ok _ _ _).mp run
    obtain ⟨n, shape⟩ := expect_square_ok square
    cases same
    exact ⟨shape ▸ .deviatoric shape, trivial, trivial⟩
  · cases run

/-- A node of the operands in their order comes back from them. -/
theorem assembles_arranged {op : Operator} {operands : List Expr} {shape : Shape}
    {free : FreeIndices} (types : op.Types operands shape free) (admits : op.Admits operands)
    (lives : op.Lives operands shape free) :
    op.assemble (op.arrange operands) = .ok (.node op (op.arrange operands) shape free) := by
  have plain (same : op.arrange operands = operands) :
      op.assemble (op.arrange operands) = .ok (.node op (op.arrange operands) shape free) := by
    have run := assembles types admits lives
    rw [same] at run ⊢
    exact run
  -- Two operands that trade places still fit, and are in order then.
  have swapped {a b : Expr} (same : op.arrange [a, b] = [b, a]) (again : op.arrange [b, a] = [b, a])
      (types : op.Types [b, a] shape free) (admits : op.Admits [b, a])
      (lives : op.Lives [b, a] shape free) :
      op.assemble (op.arrange [a, b]) = .ok (.node op (op.arrange [a, b]) shape free) := by
    have run := assembles types admits lives
    rw [again] at run
    rwa [same]
  cases types with
  | @sum a b shapes frees =>
      obtain ⟨left, right, unfolded⟩ := admits
      rcases sorted_pair_cases a b with same | same
      · exact plain same
      · refine swapped same (sorted_pair_sorted same) (same ▸ sum_types shapes frees) ⟨right, left, ?_⟩
          trivial
        exact fold_none_iff.mpr (fold_none_iff.mp unfolded).symm
  | @product a b _ sa sb union =>
      obtain ⟨left, right, unfolded, notOne, notOne'⟩ := admits
      rcases sorted_pair_cases a b with same | same
      · exact plain same
      · refine swapped same (sorted_pair_sorted same) (.product sb sa union.symm)
          ⟨right, left, ?_, notOne', notOne⟩ trivial
        exact fold_none_iff.mpr (fold_none_iff.mp unfolded).symm
  | _ => exact plain rfl

end Operator

end FormCalculus
