import FormCalculus.Proofs.Equality
import FormCalculus.Proofs.Typing

/-!
What each constructor can return: one of its operands, a constant, or a node, and what its checks
have found out by then.
-/
set_option autoImplicit false

namespace FormCalculus

theorem expect_scalar_ok {op : Construction} {e : Expr} {u : Unit} :
    expectScalar op e = .ok u ↔ e.shape = [] := by
  rw [expectScalar, Expr.isScalar]
  by_cases scalar : e.shape = []
  · simp [scalar]
  · simp [scalar]

theorem expect_same_shape_ok {op : Construction} {a b : Expr} {u : Unit} :
    expectSameShape op a b = .ok u ↔ a.shape = b.shape := by
  rw [expectSameShape]
  by_cases same : a.shape = b.shape
  · simp [same]
  · simp [same]

theorem expect_same_free_ok {op : Construction} {a b : Expr} {u : Unit} :
    expectSameFree op a b = .ok u ↔ a.free = b.free := by
  rw [expectSameFree]
  by_cases same : a.free = b.free
  · simp [same]
  · simp [same]

namespace FreeIndices

theorem join_ok {a b free : FreeIndices} (run : a.join b = .ok free) : free.IsUnion a b :=
  union_is_union ((except_map_error_ok _ _ _).mp run)

theorem extend_dim {set free : FreeIndices} {i : Index} {d : Nat}
    (run : set.extend i d = .ok free) (j : Index) (e : Nat) :
    free.dim? j = some e ↔ set.dim? j = some e ∨ (j = i ∧ e = d) :=
  insert_dim ((except_map_error_ok _ _ _).mp run) j e

theorem subscribe_ok {tensor : Expr} {items : List IndexItem} {shape : Shape}
    {set free : FreeIndices} (run : set.subscribe tensor items shape = .ok free)
    (length : items.length = shape.length) : Subscribes set items shape free := by
  induction items generalizing set shape with
  | nil =>
      cases shape with
      | nil => cases run; exact ⟨rfl, nofun, fun i d => by simp⟩
      | cons dim shape => cases length
  | cons item items ih =>
      cases shape with
      | nil => cases length
      | cons dim shape =>
          cases item with
          | fixed position =>
              rw [subscribe] at run
              by_cases outside : dim ≤ position
              · rw [if_pos outside] at run
                cases run
              · rw [if_neg outside] at run
                have rest := ih run (Nat.succ.inj length)
                refine ⟨length, fun p d member => ?_, fun i d => ?_⟩
                · rcases List.mem_cons.mp member with same | member
                  · cases same
                    omega
                  · exact rest.within p d member
                · rw [rest.dims, List.zip_cons_cons, List.mem_cons]
                  simp
          | free index =>
              rw [subscribe] at run
              obtain ⟨middle, extended, run⟩ := (except_bind_ok _ _ _).mp run
              have rest := ih run (Nat.succ.inj length)
              refine ⟨length, fun p d member => ?_, fun i d => ?_⟩
              · rcases List.mem_cons.mp member with same | member
                · cases same
                · exact rest.within p d member
              · rw [rest.dims, extend_dim extended, List.zip_cons_cons, List.mem_cons, or_assoc]
                simp

end FreeIndices

namespace Expr

theorem is_zero_iff {e : Expr} :
    e.isZero = true ↔ ∃ shape free, e = zeros shape free := by
  constructor
  · intro zero
    unfold isZero at zero
    split at zero
    · exact ⟨_, _, rfl⟩
    · cases zero
  · rintro ⟨shape, free, rfl⟩
    rfl

theorem multi_index_some {e : Expr} {items : List IndexItem} (known : e.multiIndex? = some items) :
    e = multiIndex items := by
  unfold multiIndex? at known
  split at known
  · cases known
    rfl
  · cases known

/-- A loop that checks each element of a list ends well only if each passes. -/
theorem check_each {α ε : Type} {pass : α → Prop} {list : List α} {u : Unit}
    {body : α → Unit → Except ε (ForInStep Unit)}
    (sound : ∀ x next, body x () = .ok next → pass x ∧ next = .yield ())
    (run : forIn list () body = .ok u) : ∀ x ∈ list, pass x := by
  induction list with
  | nil => exact nofun
  | cons head rest ih =>
      rw [List.forIn_cons, except_bind_ok] at run
      obtain ⟨next, here, others⟩ := run
      obtain ⟨passed, rfl⟩ := sound head next here
      exact List.forall_mem_cons.mpr ⟨passed, ih others⟩

theorem each_passes {α ε : Type} {list : List α} {body : α → Unit → Except ε (ForInStep Unit)}
    (passes : ∀ x ∈ list, body x () = .ok (.yield ())) : forIn list () body = .ok () := by
  induction list with
  | nil => rfl
  | cons head rest ih =>
      obtain ⟨here, others⟩ := List.forall_mem_cons.mp passes
      rw [List.forIn_cons, here]
      exact ih others

theorem mem_sorted_pair {a b o : Expr} : o ∈ sortedPair a b ↔ o = a ∨ o = b := by
  unfold sortedPair
  split
  · simp [or_comm]
  · simp

theorem sum_types {a b : Expr} (shape : a.shape = b.shape) (free : a.free = b.free) :
    Operator.Types .sum (sortedPair a b) a.shape a.free := by
  unfold sortedPair
  split
  · rw [shape, free]
    exact .sum shape.symm free.symm
  · exact .sum shape free

theorem product_types {a b : Expr} {free : FreeIndices} (left : a.shape = []) (right : b.shape = [])
    (union : free.IsUnion a.free b.free) : Operator.Types .product (sortedPair a b) [] free := by
  unfold sortedPair
  split
  · exact .product right left union.symm
  · exact .product left right union

section Arithmetic

variable [Folding] {a b r : Expr}

theorem fold_some {op : Constant.Operation} (folded : fold? op a b = some r) :
    ∃ x y z, a.constant? = some x ∧ b.constant? = some y ∧ Folding.fold? op x y = some z ∧
      r = z.toExpr := by
  simp only [fold?, Option.bind_eq_bind, Option.bind_eq_some_iff] at folded
  obtain ⟨x, left, y, right, z, found, same⟩ := folded
  exact ⟨x, y, z, left, right, found, (Option.some.inj same).symm⟩

theorem fold_root_some (folded : a.foldRoot? = some r) :
    ∃ x z, a.constant? = some x ∧ Folding.root? x = some z ∧ r = z.toExpr := by
  simp only [foldRoot?, Option.bind_eq_bind, Option.bind_eq_some_iff] at folded
  obtain ⟨x, left, z, found, same⟩ := folded
  exact ⟨x, z, left, found, (Option.some.inj same).symm⟩

theorem add_cases (run : add a b = .ok r) :
    a.shape = b.shape ∧ a.free = b.free ∧
      ((a.isZero = true ∧ r = b) ∨ (b.isZero = true ∧ r = a) ∨ fold? .addition a b = some r ∨
        r = .node .sum (sortedPair a b) a.shape a.free) := by
  simp only [add, except_bind_ok, expect_same_shape_ok, expect_same_free_ok] at run
  obtain ⟨_, shape, _, free, run⟩ := run
  refine ⟨shape, free, ?_⟩
  split at run
  · exact .inl ⟨‹_›, ((except_pure_ok _ _).mp run).symm⟩
  · split at run
    · exact .inr (.inl ⟨‹_›, ((except_pure_ok _ _).mp run).symm⟩)
    · split at run
      · exact .inr (.inr (.inl ((except_pure_ok _ _).mp run ▸ ‹_›)))
      · exact .inr (.inr (.inr ((except_pure_ok _ _).mp run).symm))

theorem scalar_product_cases (run : scalarProduct a b = .ok r) :
    a.shape = [] ∧ b.shape = [] ∧ ∃ free : FreeIndices, free.IsUnion a.free b.free ∧
      (((a.isZero = true ∨ b.isZero = true) ∧ r = zeros [] free) ∨
        fold? .multiplication a b = some r ∨ (a.isOne = true ∧ r = b) ∨ (b.isOne = true ∧ r = a) ∨
        r = .node .product (sortedPair a b) [] free) := by
  simp only [scalarProduct, except_bind_ok, expect_scalar_ok] at run
  obtain ⟨_, left, _, right, free, joined, run⟩ := run
  refine ⟨left, right, free, FreeIndices.join_ok joined, ?_⟩
  split at run
  · exact .inl ⟨Bool.or_eq_true_iff.mp ‹_›, ((except_pure_ok _ _).mp run).symm⟩
  · split at run
    · exact .inr (.inl ((except_pure_ok _ _).mp run ▸ ‹_›))
    · split at run
      · exact .inr (.inr (.inl ⟨‹_›, ((except_pure_ok _ _).mp run).symm⟩))
      · split at run
        · exact .inr (.inr (.inr (.inl ⟨‹_›, ((except_pure_ok _ _).mp run).symm⟩)))
        · exact .inr (.inr (.inr (.inr ((except_pure_ok _ _).mp run).symm)))

theorem zero_product (isZero : a.isZero = true ∨ b.isZero = true) (run : scalarProduct a b = .ok r) :
    ∃ free : FreeIndices, r = zeros [] free := by
  simp only [scalarProduct, except_bind_ok] at run
  obtain ⟨_, _, _, _, free, _, run⟩ := run
  rw [if_pos (by simpa using isZero)] at run
  exact ⟨free, ((except_pure_ok _ _).mp run).symm⟩

theorem scalar_quotient_cases (run : scalarQuotient a b = .ok r) :
    a.shape = [] ∧ b.shape = [] ∧ ∃ free : FreeIndices, free.IsUnion a.free b.free ∧
      ((a.isZero = true ∧ r = zeros [] free) ∨ fold? .division a b = some r ∨
        (b.isOne = true ∧ r = a) ∨ r = .node .division [a, b] [] free) := by
  simp only [scalarQuotient, except_bind_ok, expect_scalar_ok] at run
  obtain ⟨_, left, _, right, run⟩ := run
  split at run
  · simp at run
  simp only [except_bind_ok] at run
  obtain ⟨free, joined, run⟩ := run
  refine ⟨left, right, free, FreeIndices.join_ok joined, ?_⟩
  split at run
  · exact .inl ⟨‹_›, ((except_pure_ok _ _).mp run).symm⟩
  · split at run
    · exact .inr (.inl ((except_pure_ok _ _).mp run ▸ ‹_›))
    · split at run
      · exact .inr (.inr (.inl ⟨‹_›, ((except_pure_ok _ _).mp run).symm⟩))
      · exact .inr (.inr (.inr ((except_pure_ok _ _).mp run).symm))

theorem pow_cases (run : pow a b = .ok r) :
    a.shape = [] ∧ b.shape = [] ∧ b.free = ∅ ∧
      ((b.isOne = true ∧ r = a) ∨ fold? .exponentiation a b = some r ∨
        r = .node .power [a, b] [] a.free) := by
  simp only [pow, except_bind_ok, expect_scalar_ok] at run
  obtain ⟨_, left, _, right, run⟩ := run
  split at run
  · simp at run
  rename_i unindexed
  refine ⟨left, right, FreeIndices.is_empty_iff.mp (by simpa using unindexed), ?_⟩
  split at run
  · exact .inl ⟨‹_›, ((except_pure_ok _ _).mp run).symm⟩
  · split at run
    · exact .inr (.inl ((except_pure_ok _ _).mp run ▸ ‹_›))
    · exact .inr (.inr ((except_pure_ok _ _).mp run).symm)

theorem sqrt_cases (run : sqrt a = .ok r) :
    a.shape = [] ∧ ((a.isZero = true ∧ r = a) ∨ a.foldRoot? = some r ∨
      r = .node .sqrt [a] [] a.free) := by
  simp only [sqrt, except_bind_ok, expect_scalar_ok] at run
  obtain ⟨_, scalar, run⟩ := run
  refine ⟨scalar, ?_⟩
  split at run
  · exact .inl ⟨‹_›, ((except_pure_ok _ _).mp run).symm⟩
  · split at run
    · exact .inr (.inl ((except_pure_ok _ _).mp run ▸ ‹_›))
    · exact .inr (.inr ((except_pure_ok _ _).mp run).symm)

end Arithmetic

section Indexing

theorem expect_items_ok {op : Construction} {e : Expr} {items : List IndexItem}
    (run : e.expectItems op = .ok items) : e = multiIndex items := by
  unfold expectItems at run
  split at run
  · cases run
    exact multi_index_some ‹_›
  · cases run

theorem expect_indices_free (op : Construction) (indices : List Index) :
    (multiIndex (indices.map .free)).expectIndices op = .ok indices := by
  show (indices.map IndexItem.free).mapM _ = _
  induction indices with
  | nil => rfl
  | cons index rest ih =>
      rw [List.map_cons, List.mapM_cons, ih]
      rfl

theorem expect_indices_ok {op : Construction} {e : Expr} {indices : List Index}
    (run : e.expectIndices op = .ok indices) : e = multiIndex (indices.map .free) := by
  obtain ⟨items, known, each⟩ := (except_bind_ok _ _ _).mp run
  obtain rfl := expect_items_ok known
  have pairs := mapM_ok each
  have same : items = indices.map .free := by
    clear run known each
    induction pairs with
    | nil => rfl
    | @cons item index _ _ found _ ih =>
        cases item with
        | fixed position => cases found
        | free index =>
            cases found
            rw [ih, List.map_cons]
  rw [same]

/-- What subscripting can make of a tensor. -/
inductive Subscripted : Expr → List IndexItem → Expr → Prop
  | whole {e : Expr} : e.shape = [] → Subscripted e [] e
  | zero {shape : Shape} {set : FreeIndices} {items : List IndexItem} {free : FreeIndices} :
      Subscribes set items shape free → Subscripted (zeros shape set) items (zeros [] free)
  | identity {dim row column : Nat} : row < dim → column < dim →
      Subscripted (identity dim) [.fixed row, .fixed column] (int (if row = column then 1 else 0))
  | entry {entries : List Expr} {shape : Shape} {free : FreeIndices} {position : Nat}
      {items : List IndexItem} {entry r : Expr} : entries[position]? = some entry →
      Subscripted entry items r →
      Subscripted (.node .listTensor entries shape free) (.fixed position :: items) r
  | node {e : Expr} {items : List IndexItem} {free : FreeIndices} : items ≠ [] →
      Subscribes e.free items e.shape free →
      Subscripted e items (.node .indexed [e, multiIndex items] [] free)

theorem subscript_entry_ok {self r : Expr} {entries : List Expr} {position : Nat}
    {items : List IndexItem} (run : subscriptEntry self entries position items = .ok r) :
    ∃ entry, entries[position]? = some entry ∧ entry.subscript items = .ok r := by
  induction entries generalizing position with
  | nil =>
      rw [subscriptEntry] at run
      cases run
  | cons head rest ih =>
      cases position with
      | zero => exact ⟨head, rfl, by rwa [subscriptEntry] at run⟩
      | succ position =>
          rw [subscriptEntry] at run
          exact ih run

/-- Subscripting whatever is not a list tensor. -/
theorem subscript_other {e r : Expr} {items : List IndexItem}
    (other : ∀ entries shape free, e ≠ .node .listTensor entries shape free)
    (run : e.subscript items = .ok r) : Subscripted e items r := by
  rw [subscript] at run
  swap
  · exact other
  replace run := except_if_ok (by simp) run
  obtain ⟨length, run⟩ := run
  replace length : items.length = e.shape.length := not_not.mp length
  cases items with
  | nil =>
      cases (except_pure_ok _ _).mp run
      exact .whole (List.eq_nil_of_length_eq_zero length.symm)
  | cons item items =>
      replace run := (except_bind_ok _ _ _).mp run
      obtain ⟨free, subscribed, run⟩ := run
      replace subscribed := FreeIndices.subscribe_ok subscribed length
      split at run
      · cases (except_pure_ok _ _).mp run
        exact .zero subscribed
      · rename_i dim row column same
        rw [same] at subscribed ⊢
        cases (except_pure_ok _ _).mp run
        exact .identity (subscribed.within row dim (by simp [shape, Terminal.shape]))
          (subscribed.within column dim (by simp [shape, Terminal.shape]))
      · cases (except_pure_ok _ _).mp run
        exact .node (List.cons_ne_nil _ _) subscribed

theorem subscript_cases {e r : Expr} {items : List IndexItem} (run : e.subscript items = .ok r) :
    Subscripted e items r := by
  induction e generalizing items r with
  | terminal data => exact subscript_other nofun run
  | labelled label body => exact subscript_other nofun run
  | node op entries shape free ih =>
      by_cases list : op = .listTensor
      · subst list
        rw [subscript] at run
        obtain ⟨length, run⟩ := except_if_ok (by simp) run
        have length : items.length = shape.length := not_not.mp length
        cases items with
        | nil =>
            cases (except_pure_ok _ _).mp run
            exact .whole (List.eq_nil_of_length_eq_zero length.symm)
        | cons item items =>
            obtain ⟨free', subscribed, run⟩ := (except_bind_ok _ _ _).mp run
            cases item with
            | fixed position =>
                obtain ⟨entry, found, run⟩ := subscript_entry_ok run
                exact .entry found (ih entry (List.mem_of_getElem? found) run)
            | free index =>
                cases (except_pure_ok _ _).mp run
                exact .node nofun (FreeIndices.subscribe_ok subscribed length)
      · exact subscript_other (fun _ _ _ same => list (by cases same; rfl)) run

theorem index_sum_cases {e r : Expr} {index : Index} (run : e.indexSum index = .ok r) :
    e.shape = [] ∧ e.free.contains index = true ∧
      ((e.isZero = true ∧ r = zeros [] (e.free.erase index)) ∨
        r = .node .indexSum [e, multiIndex [.free index]] [] (e.free.erase index)) := by
  simp only [indexSum, except_bind_ok, expect_scalar_ok] at run
  obtain ⟨_, scalar, run⟩ := run
  obtain ⟨known, run⟩ := except_if_ok (by simp) run
  refine ⟨scalar, by simpa using known, ?_⟩
  split at run
  · exact .inl ⟨‹_›, ((except_pure_ok _ _).mp run).symm⟩
  · exact .inr ((except_pure_ok _ _).mp run).symm

theorem bind_indices_ok {e : Expr} {set free : FreeIndices} {indices : List Index} {shape : Shape}
    (run : bindIndices e set indices = .ok (shape, free)) : Binds set indices shape free := by
  induction indices generalizing set shape with
  | nil =>
      cases run
      exact ⟨rfl, .nil, by simp, fun i d => by simp⟩
  | cons index rest ih =>
      rw [bindIndices] at run
      cases known : set.dim? index with
      | none => simp [known] at run
      | some dim =>
          simp only [known, except_bind_ok, except_pure_ok] at run
          obtain ⟨⟨shape', free'⟩, bound, same⟩ := run
          cases same
          have others := ih bound
          have absent : index ∉ rest := by
            intro member
            obtain ⟨place, small, same⟩ := List.mem_iff_getElem.mp member
            have small' : place < shape'.length := others.length ▸ small
            have pair : (index, shape'[place]) ∈ rest.zip shape' := by
              refine List.mem_iff_getElem.mpr ⟨place, by simp [small, small'], ?_⟩
              simp [same]
            exact ((FreeIndices.erase_dim _ _ _ _).mp (others.found _ _ pair)).1 rfl
          refine ⟨congrArg Nat.succ others.length, List.nodup_cons.mpr ⟨absent, others.distinct⟩, ?_, ?_⟩
          · intro i d member
            rcases List.mem_cons.mp member with same | member
            · cases same
              exact known
            · exact ((FreeIndices.erase_dim _ _ _ _).mp (others.found i d member)).2
          · intro i d
            rw [others.dims, FreeIndices.erase_dim, List.mem_cons, not_or]
            exact and_assoc.symm.trans (and_congr_left' and_comm)

theorem as_tensor_cases {e r : Expr} {indices : List Index} (run : e.asTensor indices = .ok r) :
    (indices = [] ∧ r = e) ∨
      (indices ≠ [] ∧ e.shape = [] ∧ ∃ shape free, Binds e.free indices shape free ∧
        ((e.isZero = true ∧ r = zeros shape free) ∨
          (∃ shape free, e = .node .indexed [r, multiIndex (indices.map .free)] shape free) ∨
          r = .node .componentTensor [e, multiIndex (indices.map .free)] shape free)) := by
  unfold asTensor at run
  split at run
  · exact .inl ⟨List.isEmpty_iff.mp ‹_›, ((except_pure_ok _ _).mp run).symm⟩
  · rename_i nonempty
    simp only [except_bind_ok, expect_scalar_ok] at run
    obtain ⟨_, scalar, ⟨shape, free⟩, bound, run⟩ := run
    refine .inr ⟨fun none => nonempty (List.isEmpty_iff.mpr none), scalar, shape, free,
      bind_indices_ok bound, ?_⟩
    split at run
    · exact .inl ⟨‹_›, ((except_pure_ok _ _).mp run).symm⟩
    · split at run
      · split at run
        · cases (except_pure_ok _ _).mp run
          rename_i same _
          rw [multi_index_some same]
          exact .inr (.inl ⟨_, _, rfl⟩)
        · exact .inr (.inr ((except_pure_ok _ _).mp run).symm)
      · exact .inr (.inr ((except_pure_ok _ _).mp run).symm)

theorem list_tensor_cases {entries : List Expr} {r : Expr} (run : listTensor entries = .ok r) :
    ∃ shape free, entries ≠ [] ∧ (∀ e ∈ entries, e.shape = shape ∧ e.free = free) ∧
      (((∀ e ∈ entries, e.isZero = true) ∧ r = zeros (entries.length :: shape) free) ∨
        r = .node .listTensor entries (entries.length :: shape) free) := by
  unfold listTensor at run
  cases entries with
  | nil => simp at run
  | cons first rest =>
      simp only [except_bind_ok] at run
      obtain ⟨_, checks, run⟩ := run
      refine ⟨first.shape, first.free, List.cons_ne_nil _ _, ?_, ?_⟩
      · refine List.forall_mem_cons.mpr ⟨⟨rfl, rfl⟩, check_each (fun e next body => ?_) checks⟩
        simp only [except_bind_ok, except_pure_ok, expect_same_shape_ok, expect_same_free_ok] at body
        obtain ⟨_, shape, _, free, rfl⟩ := body
        exact ⟨⟨shape.symm, free.symm⟩, rfl⟩
      · split at run
        · exact .inl ⟨List.all_eq_true.mp ‹_›, ((except_pure_ok _ _).mp run).symm⟩
        · exact .inr ((except_pure_ok _ _).mp run).symm

theorem vector_cases {entries : List Expr} {r : Expr} (run : vector entries = .ok r) :
    (∀ e ∈ entries, e.shape = []) ∧ listTensor entries = .ok r := by
  simp only [vector, except_bind_ok] at run
  obtain ⟨_, checks, run⟩ := run
  refine ⟨check_each (fun e next body => ?_) checks, run⟩
  simp only [except_bind_ok, except_pure_ok, expect_scalar_ok] at body
  obtain ⟨_, scalar, rfl⟩ := body
  exact ⟨scalar, rfl⟩

/-- An index sum of several sums sums over the first index first. -/
theorem index_sums_cons {e r : Expr} {index : Index} {rest : List Index}
    (run : e.indexSums (index :: rest) = .ok r) :
    ∃ once, e.indexSum index = .ok once ∧ once.indexSums rest = .ok r :=
  (except_bind_ok _ _ _).mp run

end Indexing

section Derivative

variable {f r : Expr}

theorem grad_cases (run : f.grad = .ok r) :
    ∃ gdim, f.geometricDimension = .ok gdim ∧
      ((f.isZero = true ∧ r = zeros (f.shape ++ [gdim]) f.free) ∨
        (f.isZero = false ∧ r = unary .grad f (f.shape ++ [gdim]))) := by
  simp only [grad, except_bind_ok] at run
  obtain ⟨gdim, known, run⟩ := run
  refine ⟨gdim, known, ?_⟩
  split at run
  · exact .inl ⟨‹_›, ((except_pure_ok _ _).mp run).symm⟩
  · exact .inr ⟨by simpa using ‹¬ f.isZero = true›, ((except_pure_ok _ _).mp run).symm⟩

theorem div_cases (run : f.div = .ok r) :
    f.shape ≠ [] ∧ (r = zeros f.shape.dropLast f.free ∨ r = unary .div f f.shape.dropLast) := by
  unfold div at run
  split at run
  · cases run
  · rename_i tensor
    refine ⟨fun scalar => tensor (by simp [isScalar, scalar]), ?_⟩
    split at run
    · exact .inl (Except.ok.inj run).symm
    · exact .inr (Except.ok.inj run).symm

theorem spatial_derivative_cases {items : List IndexItem}
    (run : f.spatialDerivative items = .ok r) :
    (items = [] ∧ r = f) ∨ (items ≠ [] ∧ ∃ gdim free, f.geometricDimension = .ok gdim ∧
      Subscribes f.free items (items.map fun _ => gdim) free ∧
        r = .node .spatialDerivative [f, multiIndex items] f.shape free) := by
  unfold spatialDerivative at run
  split at run
  · exact .inl ⟨List.isEmpty_iff.mp ‹_›, ((except_pure_ok _ _).mp run).symm⟩
  · rename_i nonempty
    simp only [except_bind_ok, except_pure_ok] at run
    obtain ⟨gdim, known, free, subscribed, same⟩ := run
    exact .inr ⟨fun none => nonempty (List.isEmpty_iff.mpr none), gdim, free, known,
      FreeIndices.subscribe_ok subscribed (by simp), same.symm⟩

theorem variable_derivative_cases {v : Expr} (run : f.variableDerivative v = .ok r) :
    v.kind = .labelled ∧ v.free = ∅ ∧
      r = .node .variableDerivative [f, v] (f.shape ++ v.shape) f.free := by
  unfold variableDerivative at run
  obtain ⟨labelled, run⟩ := except_if_ok (by simp) run
  obtain ⟨unindexed, run⟩ := except_if_ok (by simp) run
  exact ⟨not_not.mp labelled, FreeIndices.is_empty_iff.mp (by simpa using unindexed),
    ((except_pure_ok _ _).mp run).symm⟩

theorem condition_free_ok {op : Comparison} {operands : List Expr} {set free : FreeIndices}
    (run : conditionFree op set operands = .ok free) :
    (∀ o ∈ operands, o.shape = [] ∧ (op.isLogical = true → o.kind = .condition)) ∧
      ∀ i d, free.dim? i = some d ↔ set.dim? i = some d ∨ ∃ o ∈ operands, o.free.dim? i = some d := by
  induction operands generalizing set with
  | nil =>
      cases run
      exact ⟨nofun, by simp⟩
  | cons head rest ih =>
      unfold conditionFree at run
      obtain ⟨logical, run⟩ := except_if_ok (by simp) run
      simp only [except_bind_ok, expect_scalar_ok] at run
      obtain ⟨_, scalar, middle, joined, run⟩ := run
      obtain ⟨checks, dims⟩ := ih run
      refine ⟨List.forall_mem_cons.mpr ⟨⟨scalar, fun connects => ?_⟩, checks⟩, fun i d => ?_⟩
      · simpa [connects] using logical
      · rw [dims, FreeIndices.join_ok joined, or_assoc, List.exists_mem_cons_iff]

theorem condition_cases {op : Comparison} {operands : List Expr}
    (run : condition op operands = .ok r) :
    ∃ free, (Operator.condition op).Types operands [] free ∧
      r = .node (.condition op) operands [] free := by
  unfold condition at run
  obtain ⟨arity, run⟩ := except_if_ok (by simp) run
  simp only [except_bind_ok, except_pure_ok] at run
  obtain ⟨free, found, same⟩ := run
  obtain ⟨checks, dims⟩ := condition_free_ok found
  exact ⟨free, .condition (not_not.mp arity) checks (by simpa using dims), same.symm⟩

theorem conditional_cases {test a b : Expr} (run : conditional test a b = .ok r) :
    ∃ free, Operator.Types .conditional [test, a, b] a.shape free ∧
      r = .node .conditional [test, a, b] a.shape free := by
  unfold conditional at run
  obtain ⟨condition, run⟩ := except_if_ok (by simp) run
  simp only [except_bind_ok, except_pure_ok, expect_same_shape_ok, expect_same_free_ok] at run
  obtain ⟨_, shape, _, free, both, joined, same⟩ := run
  exact ⟨both, .conditional (not_not.mp condition) shape free (FreeIndices.join_ok joined), same.symm⟩

theorem with_label_cases {label : Label} (run : withLabel label f = .ok r) :
    f.kind ≠ .multiIndex ∧ r = .labelled label f := by
  unfold withLabel at run
  split at run
  · cases run
  · exact ⟨‹_›, (Except.ok.inj run).symm⟩

end Derivative

section Algebra

variable {a b r : Expr}

theorem expect_square_ok {op : Construction} {u : Unit} (run : a.expectSquare op = .ok u) :
    ∃ n, a.shape = [n, n] := by
  unfold expectSquare at run
  split at run
  · split at run
    · rename_i m n shape same
      exact ⟨m, by rw [shape, same]⟩
    · cases run
  · cases run

theorem join_disjoint_ok {op : Construction} {free : FreeIndices}
    (run : FreeIndices.joinDisjoint op a b = .ok free) :
    Apart a b ∧ free.IsUnion a.free b.free := by
  unfold FreeIndices.joinDisjoint at run
  split at run
  · rename_i none
    refine ⟨fun i left right => ?_, FreeIndices.join_ok run⟩
    obtain ⟨d, found⟩ := FreeIndices.contains_iff.mp left
    have shared := FreeIndices.mem_repeated_iff.mpr ⟨found, right⟩
    rw [none] at shared
    cases shared
  · cases run

theorem binary_cases {kind : Operator} {op : Construction} {shape : Shape}
    (run : binary kind op a b shape = .ok r) :
    ∃ free, Apart a b ∧ free.IsUnion a.free b.free ∧
      (r = zeros shape free ∨ r = .node kind [a, b] shape free) := by
  simp only [binary, except_bind_ok] at run
  obtain ⟨free, joined, run⟩ := run
  obtain ⟨apart, union⟩ := join_disjoint_ok joined
  refine ⟨free, apart, union, ?_⟩
  split at run
  · exact .inl ((except_pure_ok _ _).mp run).symm
  · exact .inr ((except_pure_ok _ _).mp run).symm

end Algebra

end Expr

end FormCalculus
