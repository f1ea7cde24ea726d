import FormCalculus.Build.Arithmetic
import FormCalculus.Proofs.Equality

/-!
The order of expressions is oriented and goes with their equality, so a pair is sorted the same
way whichever of the two comes first.
-/
set_option autoImplicit false

namespace FormCalculus

/-! Codes tell data apart, also where other codes follow. -/

theorem code_list_append {xs ys rest rest' : List Nat}
    (same : codeList xs ++ rest = codeList ys ++ rest') : xs = ys ∧ rest = rest' := by
  obtain ⟨length, same⟩ := List.cons.inj same
  exact List.append_inj same length

/-- Codes of one length are read off one after the other. -/
theorem flat_map_append {α : Type} {code : α → List Nat} {xs ys : List α} {rest rest' : List Nat}
    (reads : ∀ x y rest rest', code x ++ rest = code y ++ rest' → x = y ∧ rest = rest')
    (length : xs.length = ys.length)
    (same : xs.flatMap code ++ rest = ys.flatMap code ++ rest') : xs = ys ∧ rest = rest' := by
  induction xs generalizing ys with
  | nil =>
      obtain rfl := List.eq_nil_of_length_eq_zero length.symm
      exact ⟨rfl, same⟩
  | cons x xs ih =>
      cases ys with
      | nil => cases length
      | cons y ys =>
          simp only [List.flatMap_cons, List.append_assoc] at same
          obtain ⟨here, others⟩ := reads _ _ _ _ same
          obtain ⟨there, rests⟩ := ih (Nat.succ.inj length) others
          exact ⟨by rw [here, there], rests⟩

theorem FreeIndices.code_append {a b : FreeIndices} {rest rest' : List Nat}
    (same : a.code ++ rest = b.code ++ rest') : a = b ∧ rest = rest' := by
  simp only [FreeIndices.code, List.cons_append, List.cons.injEq] at same
  obtain ⟨entries, others⟩ := flat_map_append (fun x y rest rest' same => by
    simp only [List.cons_append, List.nil_append, List.cons.injEq] at same
    exact ⟨Prod.ext (congrArg Index.mk same.1) same.2.1, same.2.2⟩) same.1 same.2
  cases a
  cases b
  exact ⟨(FreeIndices.mk.injEq ..).mpr entries, others⟩

theorem FreeIndices.code_injective {a b : FreeIndices} (same : a.code = b.code) : a = b :=
  (code_append (congrArg (· ++ []) same)).1

theorem SymmetryMap.code_injective {a b : SymmetryMap} (same : a.code = b.code) : a = b := by
  obtain ⟨length, same⟩ := List.cons.inj same
  refine (flat_map_append (fun x y rest rest' same => ?_) length (congrArg (· ++ []) same)).1
  simp only [List.append_assoc] at same
  obtain ⟨component, same⟩ := code_list_append same
  obtain ⟨target, same⟩ := code_list_append same
  exact ⟨Prod.ext component target, same⟩

theorem FunctionSpace.code_injective {a b : FunctionSpace} (same : a.code = b.code) : a = b := by
  obtain ⟨shape, gdim, symmetry⟩ := a
  obtain ⟨shape', gdim', symmetry'⟩ := b
  simp only [FunctionSpace.code, List.cons_append, List.cons.injEq] at same
  obtain ⟨valueShape, symmetries⟩ := code_list_append same.2
  have equal : symmetry = symmetry' := by
    cases symmetry with
    | none =>
        cases symmetry' with
        | none => rfl
        | some map => cases symmetries
    | some map =>
        cases symmetry' with
        | none => cases symmetries
        | some map' => rw [SymmetryMap.code_injective (List.cons.inj symmetries).2]
  rw [same.1, valueShape, equal]

theorem IndexItem.code_append {a b : IndexItem} {rest rest' : List Nat}
    (same : a.code ++ rest = b.code ++ rest') : a = b ∧ rest = rest' := by
  cases a <;> cases b <;>
    simp only [IndexItem.code, List.cons_append, List.nil_append, List.cons.injEq] at same
  · exact ⟨congrArg _ same.2.1, same.2.2⟩
  · exact absurd same.1 (by decide)
  · exact absurd same.1 (by decide)
  · exact ⟨congrArg (fun number => IndexItem.free ⟨number⟩) same.2.1, same.2.2⟩

theorem items_code_injective {xs ys : List IndexItem}
    (same : xs.flatMap IndexItem.code = ys.flatMap IndexItem.code) : xs = ys := by
  have double (items : List IndexItem) : (items.flatMap IndexItem.code).length = 2 * items.length := by
    induction items with
    | nil => rfl
    | cons item items ih =>
        have two : item.code.length = 2 := by cases item <;> rfl
        simp only [List.flatMap_cons, List.length_append, List.length_cons, ih, two]
        omega
  have length := congrArg List.length same
  rw [double, double] at length
  exact (flat_map_append (fun _ _ _ _ => IndexItem.code_append) (by omega)
    (congrArg (· ++ []) same)).1

theorem Argument.code_injective {a b : Argument} (same : a.code = b.code) : a = b := by
  obtain ⟨number, part, space⟩ := a
  obtain ⟨number', part', space'⟩ := b
  cases part <;> cases part' <;>
    simp only [Argument.code, List.cons_append, List.nil_append, List.cons.injEq] at same
  · rw [same.1, FunctionSpace.code_injective same.2.2]
  · exact absurd same.2.1 (by decide)
  · exact absurd same.2.1 (by decide)
  · rw [same.1, same.2.2.1, FunctionSpace.code_injective same.2.2.2]

theorem Coefficient.code_injective {a b : Coefficient} (same : a.code = b.code) : a = b := by
  obtain ⟨number, space⟩ := a
  obtain ⟨number', space'⟩ := b
  simp only [Coefficient.code, List.cons.injEq] at same
  rw [same.1, FunctionSpace.code_injective same.2]

theorem Kind.rank_injective {a b : Kind} (same : a.rank = b.rank) : a = b := by
  rw [← Kind.ofNat_ctorIdx a, ← Kind.ofNat_ctorIdx b]
  exact congrArg Kind.ofNat same

theorem Terminal.code_injective {s t : Terminal} (kind : s.kind = t.kind)
    (same : s.code = t.code) : s = t := by
  cases s <;> cases t <;> cases kind <;> simp only [Terminal.code, List.cons.injEq, and_true] at same
  case zero.zero.refl =>
    obtain ⟨shape, free⟩ := code_list_append same
    rw [shape, FreeIndices.code_injective free]
  case int.int.refl => rw [Int64.toBitVec_inj.mp (congrArg UInt64.toBitVec (UInt64.toNat_inj.mp same))]
  case real.real.refl x y =>
    cases x
    cases y
    exact congrArg (fun bits => real ⟨bits⟩) (UInt64.toNat_inj.mp same)
  case argument.argument.refl => rw [Argument.code_injective same]
  case coefficient.coefficient.refl => rw [Coefficient.code_injective same]
  case label.label.refl l m =>
    cases l
    cases m
    exact congrArg (fun number => label ⟨number⟩) same
  case multiIndex.multiIndex.refl => rw [items_code_injective same]
  all_goals rw [same]

theorem Operator.header_injective {op op' : Operator} {shape shape' : Shape}
    {free free' : FreeIndices} (kind : op.kind = op'.kind)
    (same : op.header shape free = op'.header shape' free') :
    op = op' ∧ shape = shape' ∧ free = free' := by
  have read (same : codeList shape ++ free.code = codeList shape' ++ free'.code) :
      shape = shape' ∧ free = free' := by
    obtain ⟨shape, free⟩ := code_list_append same
    exact ⟨shape, FreeIndices.code_injective free⟩
  cases op <;> cases op' <;> cases kind
  case condition.condition.refl op op' =>
    obtain ⟨index, same⟩ := List.cons.inj same
    have equal : op = op' := by
      rw [← Comparison.ofNat_ctorIdx op, ← Comparison.ofNat_ctorIdx op', index]
    exact ⟨congrArg _ equal, read same⟩
  case restricted.restricted.refl side side' =>
    obtain ⟨index, same⟩ := List.cons.inj same
    have equal : side = side' := by rw [← Side.ofNat_ctorIdx side, ← Side.ofNat_ctorIdx side', index]
    exact ⟨congrArg _ equal, read same⟩
  all_goals exact ⟨rfl, read same⟩

namespace Expr

theorem order_all_swap {xs ys : List Expr}
    (oriented : ∀ x ∈ xs, ∀ y, order x y = (order y x).swap) :
    orderAll xs ys = (orderAll ys xs).swap := by
  induction xs generalizing ys with
  | nil => cases ys <;> rfl
  | cons x xs ih =>
      cases ys with
      | nil => rfl
      | cons y ys =>
          obtain ⟨here, others⟩ := List.forall_mem_cons.mp oriented
          rw [orderAll, orderAll]
          by_cases same : (x == y) = true
          · rw [if_pos same, if_pos (same_symm same), ih others]
          · rw [if_neg same, if_neg fun back => same (same_symm back), Ordering.swap_then, here y,
              ih others]

theorem order_swap (a b : Expr) : order a b = (order b a).swap := by
  induction a generalizing b with
  | terminal s =>
      cases b with
      | terminal t =>
          rw [order, order, Ordering.swap_then, ← Std.OrientedOrd.eq_swap, ← Std.OrientedOrd.eq_swap]
      | node | labelled => rfl
  | labelled l body =>
      cases b with
      | labelled m => exact Std.OrientedOrd.eq_swap
      | terminal | node => rfl
  | node op xs shape free ih =>
      cases b with
      | node op' ys shape' free' =>
          rw [order, order, Ordering.swap_then, Ordering.swap_then, ← Std.OrientedOrd.eq_swap,
            ← Std.OrientedOrd.eq_swap, order_all_swap ih]
      | terminal | labelled => rfl

theorem order_all_same {xs ys : List Expr}
    (agrees : ∀ x ∈ xs, ∀ y, order x y = .eq → (x == y) = true) (same : orderAll xs ys = .eq) :
    (xs == ys) = true := by
  induction xs generalizing ys with
  | nil =>
      cases ys with
      | nil => rfl
      | cons y ys => cases same
  | cons x xs ih =>
      cases ys with
      | nil => cases same
      | cons y ys =>
          obtain ⟨here, others⟩ := List.forall_mem_cons.mp agrees
          rw [orderAll] at same
          by_cases first : (x == y) = true
          · rw [if_pos first] at same
            exact Bool.and_eq_true_iff.mpr ⟨first, ih others same⟩
          · rw [if_neg first, Ordering.then_eq_eq] at same
            exact absurd (here y same.1) first

/-- Only equal expressions are of equal rank. -/
theorem order_same {a b : Expr} (same : order a b = .eq) : (a == b) = true := by
  induction a generalizing b with
  | terminal s =>
      cases b with
      | terminal t =>
          rw [order, Ordering.then_eq_eq] at same
          obtain rfl := Terminal.code_injective
            (Kind.rank_injective (Std.LawfulEqOrd.eq_of_compare same.1))
            (Std.LawfulEqOrd.eq_of_compare same.2)
          exact same_refl _
      | node | labelled => cases same
  | labelled l body =>
      cases b with
      | labelled m =>
          have number : l.number = m.number := Std.LawfulEqOrd.eq_of_compare same
          cases l
          cases m
          exact (labelled_same _ _ _ _).trans (beq_iff_eq.mpr (congrArg Label.mk number))
      | terminal | node => cases same
  | node op xs shape free ih =>
      cases b with
      | node op' ys shape' free' =>
          rw [order, Ordering.then_eq_eq, Ordering.then_eq_eq] at same
          obtain ⟨kind, header, operands⟩ := same
          obtain ⟨rfl, rfl, rfl⟩ := Operator.header_injective
            (Kind.rank_injective (Std.LawfulEqOrd.eq_of_compare kind))
            (Std.LawfulEqOrd.eq_of_compare header)
          simpa using order_all_same (fun x member y => ih x member) operands
      | terminal | labelled => cases same

theorem compare_swap (a b : Expr) : compare a b = (compare b a).swap := order_swap a b

/-- Sorting twice changes nothing. -/
theorem sorted_pair_sorted {a b x y : Expr} (sorted : sortedPair a b = [x, y]) :
    sortedPair x y = [x, y] := by
  unfold sortedPair at sorted ⊢
  split at sorted
  · rename_i less
    obtain ⟨rfl, same⟩ := List.cons.inj sorted
    obtain rfl := List.singleton_inj.mp same
    rw [compare_swap, less]
    rfl
  · obtain ⟨rfl, same⟩ := List.cons.inj sorted
    obtain rfl := List.singleton_inj.mp same
    rw [if_neg ‹_›]

/-- Without labels, the order of the two does not matter. -/
theorem sorted_pair_comm {a b : Expr} (plain : Unlabelled a) : sortedPair a b = sortedPair b a := by
  unfold sortedPair
  rw [compare_swap a b]
  cases found : compare b a with
  | lt => simp
  | gt => simp
  | eq =>
      have swapped : compare a b = .eq := by rw [compare_swap, found]; rfl
      rw [same_eq plain (order_same swapped)]
      simp

end Expr

end FormCalculus
