import FormCalculus.Proofs.Renumbered

/-!
The constructors of index notation make renumbered expressions of renumbered operands, or refuse both.
-/
set_option autoImplicit false

namespace FormCalculus

open FormCalculus.Expr

namespace Renumbered

variable {ρ : Renumbering} {g : Nat} {a a' b b' x x' : Expr} {op : Construction}

theorem expect_scalar (operand : Renumbered ρ g a a') :
    Agree (fun _ _ => True) (expectScalar op a) (expectScalar op a') :=
  .ite (by rw [operand.scalar_eq]) (.ok trivial) .error

theorem expect_same_shape (left : Renumbered ρ g a a') (right : Renumbered ρ g b b') :
    Agree (fun _ _ => True) (expectSameShape op a b) (expectSameShape op a' b') :=
  .ite (by rw [left.shape_eq, right.shape_eq]) (.ok trivial) .error

theorem expect_same_free (left : Renumbered ρ g a a') (right : Renumbered ρ g b b') :
    Agree (fun _ _ => True) (expectSameFree op a b) (expectSameFree op a' b') :=
  .ite (by rw [left.free_eq, right.free_eq, Renumbering.free_eq_iff]) (.ok trivial) .error

theorem join (left : Renumbered ρ g a a') (right : Renumbered ρ g b b') :
    Agree (fun r r' => r' = ρ.free r) (a.free.join b.free) (a'.free.join b'.free) := by
  rw [left.free_eq, right.free_eq]
  exact ρ.join_agrees _ _

section Arithmetic

variable [Folding]

/-- Two constants fold to the same one; what is made of other operands is renumbered. -/
theorem fold_or {how : Constant.Operation} {act act' : Except BuildError Expr}
    (left : Renumbered ρ g a a') (right : Renumbered ρ g b b')
    (other : Agree (Renumbered ρ g) act act') :
    Agree (Renumbered ρ g)
      (match fold? how a b with
        | some folded => pure folded
        | none => act)
      (match fold? how a' b' with
        | some folded => pure folded
        | none => act') := by
  rw [left.fold_eq right]
  split
  · rename_i folded
    obtain ⟨_, _, c, _, _, _, rfl⟩ := fold_some folded
    exact .pure (.constant c)
  · exact other

theorem add (left : Renumbered ρ g a a') (right : Renumbered ρ g b b') :
    Agree (Renumbered ρ g) (a.add b) (a'.add b') := by
  unfold Expr.add
  refine (expect_same_shape left right).bind fun _ _ _ => ?_
  refine (expect_same_free left right).bind fun _ _ _ => ?_
  refine .ite (by rw [left.zero_eq]) (.pure right) ?_
  refine .ite (by rw [right.zero_eq]) (.pure left) ?_
  rw [left.shape_eq, left.free_eq]
  exact left.fold_or right (.pure (.sorted (.inl rfl) left right))

theorem scalar_product (left : Renumbered ρ g a a') (right : Renumbered ρ g b b') :
    Agree (Renumbered ρ g) (a.scalarProduct b) (a'.scalarProduct b') := by
  unfold Expr.scalarProduct
  refine left.expect_scalar.bind fun _ _ _ => ?_
  refine right.expect_scalar.bind fun _ _ _ => ?_
  refine (left.join right).bind fun free _ same => ?_
  subst same
  refine .ite (by rw [left.zero_eq, right.zero_eq]) (.pure (.zeros _ _)) ?_
  refine left.fold_or right ?_
  refine .ite (by rw [left.one_eq]) (.pure right) ?_
  refine .ite (by rw [right.one_eq]) (.pure left) ?_
  exact .pure (.sorted (.inr rfl) left right)

theorem scalar_quotient (left : Renumbered ρ g a a') (right : Renumbered ρ g b b') :
    Agree (Renumbered ρ g) (a.scalarQuotient b) (a'.scalarQuotient b') := by
  unfold Expr.scalarQuotient
  refine left.expect_scalar.bind fun _ _ _ => ?_
  refine right.expect_scalar.bind fun _ _ _ => ?_
  refine .guard (by rw [right.zero_eq]) ?_
  refine (left.join right).bind fun free _ same => ?_
  subst same
  refine .ite (by rw [left.zero_eq]) (.pure (.zeros _ _)) ?_
  refine left.fold_or right ?_
  refine .ite (by rw [right.one_eq]) (.pure left) ?_
  exact .pure (.of_operands nofun (pair left right))

theorem pow (left : Renumbered ρ g a a') (right : Renumbered ρ g b b') :
    Agree (Renumbered ρ g) (a.pow b) (a'.pow b') := by
  unfold Expr.pow
  refine left.expect_scalar.bind fun _ _ _ => ?_
  refine right.expect_scalar.bind fun _ _ _ => ?_
  refine .guard (by rw [right.free_eq, Renumbering.free_is_empty]) ?_
  refine .ite (by rw [right.one_eq]) (.pure left) ?_
  rw [left.free_eq]
  exact left.fold_or right (.pure (.of_operands nofun (pair left right)))

theorem sqrt (operand : Renumbered ρ g a a') : Agree (Renumbered ρ g) a.sqrt a'.sqrt := by
  unfold Expr.sqrt
  refine operand.expect_scalar.bind fun _ _ _ => ?_
  refine .ite (by rw [operand.zero_eq]) (.pure operand) ?_
  rw [operand.fold_root_eq, operand.free_eq]
  split
  · rename_i folded
    obtain ⟨_, c, _, _, rfl⟩ := fold_root_some folded
    exact .pure (.constant c)
  · exact .pure (.of_operands nofun (.cons operand .nil))

end Arithmetic

section Indexing

variable {items : List IndexItem} {indices : List Index} {i : Index}

theorem subscribe (tensor tensor' : Expr) (free : FreeIndices) (items : List IndexItem)
    (shape : Shape) :
    Agree (fun r r' => r' = ρ.free r) (FreeIndices.subscribe tensor free items shape)
      (FreeIndices.subscribe tensor' (ρ.free free) (items.map ρ.item) shape) := by
  induction items generalizing free shape with
  | nil => exact .ok rfl
  | cons item items ih =>
      cases shape with
      | nil => cases item <;> exact .ok rfl
      | cons dim shape =>
          cases item with
          | fixed position => exact .ite Iff.rfl .error (ih free shape)
          | free index =>
              refine ((ρ.insert_agrees free index dim).mapError _ _).bind fun middle _ same => ?_
              subst same
              exact ih middle shape

/-- Subscripts of a tensor that has no list of entries. -/
theorem subscript_other (renumbered : Renumbered ρ g x x')
    (other : ∀ entries shape free, x ≠ .node .listTensor entries shape free) :
    Agree (Renumbered ρ g) (x.subscript items) (x'.subscript (items.map ρ.item)) := by
  have other' (entries : List Expr) (shape : Shape) (free : FreeIndices) :
      x' ≠ .node .listTensor entries shape free := fun same => by
    cases renumbered with
    | node => cases same; exact other _ _ _ rfl
    | _ => cases same
  rw [Expr.subscript, Expr.subscript]
  · refine .guard (by rw [List.length_map, renumbered.rank_eq]) ?_
    refine .ite (by rw [List.isEmpty_map]) (.pure renumbered) ?_
    rw [renumbered.free_eq, renumbered.shape_eq]
    refine (subscribe x x' x.free items x.shape).bind fun free _ same => ?_
    subst same
    have plain {y y' : Expr} (renumbered : Renumbered ρ g y y') :
        Agree (Renumbered ρ g)
          (pure (.node .indexed [y, multiIndex items] [] free) : Except BuildError Expr)
          (pure (.node .indexed [y', multiIndex (items.map ρ.item)] [] (ρ.free free)) :
            Except BuildError Expr) :=
      .pure (.of_operands (by simp) (pair renumbered (.items items)))
    cases renumbered with
    | zeros => exact .pure (.zeros [] free)
    | items entries => exact plain (.items entries)
    | node notGrad length pairs reordered => exact plain (.node notGrad length pairs reordered)
    | @terminal data notZero notItems lives =>
        cases data with
        | zero => exact absurd rfl notZero
        | identity dim =>
            rcases items with _ | ⟨_ | _, _ | ⟨_ | _, _ | _⟩⟩
            all_goals first
              | exact plain (.terminal notZero notItems lives)
              | exact .pure (.int _)
        | _ => exact plain (.terminal notZero notItems lives)
  · exact fun entries shape free same => other' entries shape free same
  · exact fun entries shape free same => other entries shape free same

theorem subscript_entry {self self' : Expr} {xs vs : List Expr} {position : Nat}
    (pairs : List.Forall₂ (fun x v => Agree (Renumbered ρ g) (x.subscript items)
      (v.subscript (items.map ρ.item))) xs vs) :
    Agree (Renumbered ρ g) (subscriptEntry self xs position items)
      (subscriptEntry self' vs position (items.map ρ.item)) := by
  induction pairs generalizing position with
  | nil =>
      rw [subscriptEntry, subscriptEntry]
      exact .error
  | cons first _ ih =>
      cases position with
      | zero =>
          rw [subscriptEntry, subscriptEntry]
          exact first
      | succ position =>
          rw [subscriptEntry, subscriptEntry]
          exact ih

theorem subscript (renumbered : Renumbered ρ g x x') (items : List IndexItem) :
    Agree (Renumbered ρ g) (x.subscript items) (x'.subscript (items.map ρ.item)) := by
  have whole := renumbered
  induction renumbered generalizing items with
  | zeros | items | terminal => exact whole.subscript_other (by simp [Expr.zeros, multiIndex])
  | @node op xs vs ws shape free _ length pairs reordered ih =>
      -- A list is subscripted in its entry where the first subscript is a position.
      by_cases list : op = .listTensor
      · subst list
        obtain rfl : ws = vs := reordered.elim id fun swapped => by simp at swapped
        rw [Expr.subscript, Expr.subscript]
        refine .guard (by rw [List.length_map, whole.rank_eq]) ?_
        refine .ite (by rw [List.isEmpty_map]) (.pure whole) ?_
        refine (subscribe _ _ free items shape).bind fun free _ same => ?_
        subst same
        rcases items with _ | ⟨position | index, rest⟩
        · exact .pure (.of_operands (by simp) (pair whole (.items _)))
        · exact subscript_entry (List.forall₂_iff_zip.mpr
            ⟨length, fun {x v} pair => ih x v pair rest (pairs x v pair)⟩)
        · exact .pure (.of_operands (by simp) (pair whole (.items _)))
      · exact whole.subscript_other fun _ _ _ same => list (by cases same; rfl)

theorem component (renumbered : Renumbered ρ g x x') (position : Component) :
    Agree (Renumbered ρ g) (x.component position) (x'.component position) := by
  have same : (position.map IndexItem.fixed).map ρ.item = position.map .fixed := by
    rw [List.map_map]
    rfl
  have agree := renumbered.subscript (position.map .fixed)
  rwa [same] at agree

theorem index_sum (renumbered : Renumbered ρ g x x') (i : Index) :
    Agree (Renumbered ρ g) (x.indexSum i) (x'.indexSum (ρ.index i)) := by
  unfold Expr.indexSum
  refine renumbered.expect_scalar.bind fun _ _ _ => ?_
  refine .guard (by rw [renumbered.free_eq, Renumbering.free_contains]) ?_
  rw [renumbered.free_eq, Renumbering.free_erase]
  refine .ite (by rw [renumbered.zero_eq]) (.pure (.zeros _ _)) ?_
  exact .pure (.of_operands nofun (pair renumbered (.items [.free i])))

theorem index_sums (renumbered : Renumbered ρ g x x') (indices : List Index) :
    Agree (Renumbered ρ g) (x.indexSums indices) (x'.indexSums (indices.map ρ.index)) := by
  induction indices generalizing x x' with
  | nil => exact .ok renumbered
  | cons i rest ih => exact (renumbered.index_sum i).bind fun _ _ once => ih once

theorem occurrences_eq (renumbered : Renumbered ρ g x x') (items : List IndexItem) (i : Index) :
    x'.occurrences (items.map ρ.item) (ρ.index i) = x.occurrences items i := by
  unfold occurrences
  rw [renumbered.free_eq, Renumbering.free_contains,
    ← List.count_map_of_injective items ρ.item ρ.item_injective (.free i)]
  rfl

theorem index (renumbered : Renumbered ρ g x x') (items : List IndexItem) :
    Agree (Renumbered ρ g) (x.index items) (x'.index (items.map ρ.item)) := by
  unfold Expr.index
  simp only [ρ.subscript_indices, List.find?_map, List.filter_map, Function.comp_def,
    renumbered.occurrences_eq]
  cases (subscriptIndices items).find? fun i => 2 < x.occurrences items i with
  | some i => exact .error
  | none => exact (renumbered.subscript items).bind fun _ _ component => component.index_sums _

theorem index_by (renumbered : Renumbered ρ g x x') (indices : List Index) :
    Agree (Renumbered ρ g) (x.indexBy indices) (x'.indexBy (indices.map ρ.index)) := by
  unfold indexBy
  rw [ρ.items_of_indices]
  exact renumbered.index _

theorem bind_indices (e e' : Expr) (free : FreeIndices) (indices : List Index) :
    Agree (fun r r' => r' = (r.1, ρ.free r.2)) (bindIndices e free indices)
      (bindIndices e' (ρ.free free) (indices.map ρ.index)) := by
  induction indices generalizing free with
  | nil => exact .ok rfl
  | cons i rest ih =>
      simp only [List.map_cons, bindIndices, ρ.free_dim, ρ.free_erase]
      split
      · exact .error
      · exact (ih (free.erase i)).bind fun r _ same => by
          subst same
          exact .pure rfl

/-- What a subscripted tensor is renumbered to. -/
theorem indexed {tensor subscripts : Expr} {shape : Shape} {free : FreeIndices}
    (renumbered : Renumbered ρ g (.node .indexed [tensor, subscripts] shape free) x') :
    ∃ tensor' subscripts', Renumbered ρ g tensor tensor' ∧ Renumbered ρ g subscripts subscripts' ∧
      x' = .node .indexed [tensor', subscripts'] shape (ρ.free free) := by
  obtain ⟨ws, pairs, rfl⟩ := renumbered.operands nofun
  obtain ⟨tensor', subscripts', rfl, inner, selected⟩ := pairs_two pairs
  exact ⟨_, _, inner, selected, rfl⟩

theorem as_tensor (renumbered : Renumbered ρ g x x') (indices : List Index) :
    Agree (Renumbered ρ g) (x.asTensor indices) (x'.asTensor (indices.map ρ.index)) := by
  unfold asTensor
  refine .ite (by rw [List.isEmpty_map]) (.pure renumbered) ?_
  refine renumbered.expect_scalar.bind fun _ _ _ => ?_
  rw [renumbered.free_eq]
  refine (bind_indices x x' x.free indices).bind fun bound _ same => ?_
  subst same
  obtain ⟨shape, free⟩ := bound
  refine .ite (by rw [renumbered.zero_eq]) (.pure (.zeros _ _)) ?_
  have made : Agree (Renumbered ρ g)
      (pure (.node .componentTensor [x, multiIndex (indices.map .free)] shape free) :
        Except BuildError Expr)
      (pure (.node .componentTensor [x', multiIndex ((indices.map ρ.index).map .free)] shape
        (ρ.free free)) : Except BuildError Expr) := by
    rw [ρ.items_of_indices]
    exact .pure (.of_operands nofun (pair renumbered (.items _)))
  -- To bind the subscripts of a tensor, in their order, gives the tensor back.
  by_cases form : ∃ tensor subscripts shape free, x = .node .indexed [tensor, subscripts] shape free
  · obtain ⟨tensor, subscripts, _, _, rfl⟩ := form
    obtain ⟨tensor', subscripts', inner, selected, rfl⟩ := renumbered.indexed
    refine .ite ?_ (.pure inner) made
    rw [selected.items_eq, ρ.items_of_indices, Option.map_eq_some_iff]
    refine ⟨fun known => ⟨_, known, rfl⟩, fun ⟨_, known, same⟩ => ?_⟩
    rw [known, List.map_injective_iff.mpr ρ.item_injective same]
  · have form' : ¬ ∃ tensor subscripts shape free,
        x' = .node .indexed [tensor, subscripts] shape free := by
      rintro ⟨tensor, subscripts, shape, free, rfl⟩
      obtain ⟨_, _, rfl, length⟩ := renumbered.node_left
      obtain ⟨_, _, rfl⟩ := List.length_eq_two.mp length
      exact form ⟨_, _, _, _, rfl⟩
    split
    · exact absurd ⟨_, _, _, _, rfl⟩ form
    · split
      · exact absurd ⟨_, _, _, _, rfl⟩ form'
      · exact made

theorem list_tensor {xs vs : List Expr} (pairs : List.Forall₂ (Renumbered ρ g) xs vs) :
    Agree (Renumbered ρ g) (listTensor xs) (listTensor vs) := by
  unfold listTensor
  cases pairs with
  | nil => exact .error
  | @cons first first' rest rest' head others =>
      refine (Agree.checks others fun _ _ entry => ?_).bind fun _ _ _ => ?_
      · exact (head.expect_same_shape entry).bind fun _ _ _ =>
          (head.expect_same_free entry).bind fun _ _ _ => .pure ⟨rfl, rfl⟩
      have pairs := List.Forall₂.cons head others
      have zeros : (first :: rest).map isZero = (first' :: rest').map isZero :=
        map_eq_of_pairs pairs.length_eq fun _ _ pair => (List.forall₂_zip pairs pair).zero_eq.symm
      have zeros : (first' :: rest').all isZero = (first :: rest).all isZero := by
        simpa only [List.all_map, Function.id_comp] using congrArg (List.all · id) zeros.symm
      rw [head.shape_eq, head.free_eq, ← pairs.length_eq]
      refine .ite (by rw [zeros]) (.pure (.zeros _ _)) ?_
      exact .pure (.of_operands nofun pairs)

end Indexing

section Derivatives

theorem spatial_derivative (renumbered : Renumbered ρ g x x') (items : List IndexItem) :
    Agree (Renumbered ρ g) (x.spatialDerivative items) (x'.spatialDerivative (items.map ρ.item)) := by
  unfold spatialDerivative
  refine .ite (by rw [List.isEmpty_map]) (.pure renumbered) ?_
  refine renumbered.geometric_dimension.bind fun d d' same => ?_
  obtain ⟨rfl, rfl⟩ := same
  rw [renumbered.free_eq, renumbered.shape_eq, List.map_map]
  refine (subscribe x x' x.free items _).bind fun free _ same => ?_
  subst same
  exact .pure (.of_operands nofun (pair renumbered (.items items)))

theorem condition_free {how : Comparison} {xs vs : List Expr} (free : FreeIndices)
    (pairs : List.Forall₂ (Renumbered ρ g) xs vs) :
    Agree (fun r r' => r' = ρ.free r) (conditionFree how free xs)
      (conditionFree how (ρ.free free) vs) := by
  induction pairs generalizing free with
  | nil => exact .ok rfl
  | cons first _ ih =>
      unfold conditionFree
      refine .guard (by rw [first.kind_eq]) ?_
      refine first.expect_scalar.bind fun _ _ _ => ?_
      rw [first.free_eq]
      refine (ρ.join_agrees free _).bind fun joined _ same => ?_
      subst same
      exact ih joined

theorem condition {how : Comparison} {xs vs : List Expr}
    (pairs : List.Forall₂ (Renumbered ρ g) xs vs) :
    Agree (Renumbered ρ g) (condition how xs) (condition how vs) := by
  unfold Expr.condition
  refine .guard (by rw [pairs.length_eq]) ?_
  refine (condition_free ∅ pairs).bind fun free _ same => ?_
  subst same
  exact .pure (.of_operands nofun pairs)

theorem conditional {test test' : Expr} (first : Renumbered ρ g test test')
    (left : Renumbered ρ g a a') (right : Renumbered ρ g b b') :
    Agree (Renumbered ρ g) (test.conditional a b) (test'.conditional a' b') := by
  unfold Expr.conditional
  refine .guard (by rw [first.kind_eq]) ?_
  refine (left.expect_same_shape right).bind fun _ _ _ => ?_
  refine (left.expect_same_free right).bind fun _ _ _ => ?_
  refine (first.join left).bind fun free _ same => ?_
  subst same
  rw [left.shape_eq]
  exact .pure (.of_operands nofun (.cons first (pair left right)))

theorem variable_derivative (left : Renumbered ρ g a a') (right : Renumbered ρ g b b') :
    Agree (Renumbered ρ g) (a.variableDerivative b) (a'.variableDerivative b') := by
  unfold variableDerivative
  refine .guard (by rw [right.kind_eq]) ?_
  refine .guard (by rw [right.free_eq, Renumbering.free_is_empty]) ?_
  rw [left.shape_eq, right.shape_eq, left.free_eq]
  exact .pure (.of_operands nofun (pair left right))

theorem restricted (operand : Renumbered ρ g a a') (side : Side) :
    Renumbered ρ g (a.restricted side) (a'.restricted side) := by
  unfold Expr.restricted unary
  rw [operand.shape_eq, operand.free_eq]
  exact .of_operands nofun (.cons operand .nil)

end Derivatives

section Assembling

theorem expect_items (renumbered : Renumbered ρ g x x') :
    Agree (fun items items' => items' = items.map ρ.item) (x.expectItems op) (x'.expectItems op) := by
  unfold expectItems
  rw [renumbered.items_eq]
  cases x.multiIndex? with
  | none => exact .error
  | some items => exact .ok rfl

theorem expect_indices (renumbered : Renumbered ρ g x x') :
    Agree (fun indices indices' => indices' = indices.map ρ.index) (x.expectIndices op)
      (x'.expectIndices op) := by
  unfold expectIndices
  refine renumbered.expect_items.bind fun items _ same => ?_
  subst same
  refine .mapM_mapped (fun item => ?_) items
  cases item with
  | fixed => exact .error
  | free index => exact .ok rfl

variable [Folding]

/-- An operator of index notation makes renumbered expressions of renumbered operands. -/
theorem assemble {op : Operator} {operands xs vs : List Expr} {shape : Shape} {free : FreeIndices}
    (types : op.Types operands shape free) (simple : op.kind.isCompound = false) (other : op ≠ .grad)
    (length : xs.length = operands.length) (pairs : List.Forall₂ (Renumbered ρ g) xs vs) :
    Agree (Renumbered ρ g) (op.assemble xs) (op.assemble vs) := by
  cases types with
  | sum =>
      obtain ⟨a, b, a', b', rfl, rfl, left, right⟩ := pairs_of_two pairs length
      exact left.add right
  | product =>
      obtain ⟨a, b, a', b', rfl, rfl, left, right⟩ := pairs_of_two pairs length
      exact left.scalar_product right
  | division =>
      obtain ⟨a, b, a', b', rfl, rfl, left, right⟩ := pairs_of_two pairs length
      exact left.scalar_quotient right
  | power =>
      obtain ⟨a, b, a', b', rfl, rfl, left, right⟩ := pairs_of_two pairs length
      exact left.pow right
  | sqrt =>
      obtain ⟨a, a', rfl, rfl, operand⟩ := pairs_of_one pairs length
      exact operand.sqrt
  | indexed =>
      obtain ⟨a, b, a', b', rfl, rfl, left, right⟩ := pairs_of_two pairs length
      exact right.expect_items.bind fun items _ same => same ▸ left.subscript items
  | indexSum =>
      obtain ⟨a, b, a', b', rfl, rfl, left, right⟩ := pairs_of_two pairs length
      refine right.expect_indices.bind fun indices _ same => ?_
      subst same
      rcases indices with _ | ⟨i, _ | _⟩
      · exact .error
      · exact left.index_sum i
      · exact .error
  | componentTensor =>
      obtain ⟨a, b, a', b', rfl, rfl, left, right⟩ := pairs_of_two pairs length
      exact right.expect_indices.bind fun indices _ same => same ▸ left.as_tensor indices
  | listTensor => exact list_tensor pairs
  | conditional =>
      obtain ⟨a, b, c, rfl⟩ := List.length_eq_three.mp length
      obtain ⟨a', b', c', rfl, first, second, third⟩ := pairs_three pairs
      exact first.conditional second third
  | condition => exact condition pairs
  | spatialDerivative =>
      obtain ⟨a, b, a', b', rfl, rfl, left, right⟩ := pairs_of_two pairs length
      exact right.expect_items.bind fun items _ same => same ▸ left.spatial_derivative items
  | variableDerivative =>
      obtain ⟨a, b, a', b', rfl, rfl, left, right⟩ := pairs_of_two pairs length
      exact left.variable_derivative right
  | restricted =>
      obtain ⟨a, a', rfl, rfl, operand⟩ := pairs_of_one pairs length
      exact .ok (operand.restricted _)
  | grad => exact absurd rfl other
  | _ => cases simple

end Assembling

end Renumbered

end FormCalculus
