import FormCalculus.Proofs.Commuting
import FormCalculus.Proofs.Making
import FormCalculus.Proofs.Renumbering
import FormCalculus.Proofs.Walking

/-!
Expressions that are the same but for the numbers of their indices, and for the order of the operands of
sums and products, which goes by those numbers.
-/
set_option autoImplicit false

namespace FormCalculus

open FormCalculus.Expr

/-- The second expression is the first one with its indices renumbered and the operands of some sums and
products the other way round. Neither has labels or gradients, and the terminals live on a domain of
dimension `g`. -/
inductive Renumbered (ρ : Renumbering) (g : Nat) : Expr → Expr → Prop
  | zeros (shape : Shape) (free : FreeIndices) :
      Renumbered ρ g (zeros shape free) (zeros shape (ρ.free free))
  | items (items : List IndexItem) :
      Renumbered ρ g (multiIndex items) (multiIndex (items.map ρ.item))
  | terminal {data : Terminal} : data.kind ≠ .zero → data.kind ≠ .multiIndex →
      (∀ d, data.gdim? = some d → d = g) → Renumbered ρ g (.terminal data) (.terminal data)
  | node {op : Operator} {xs vs ws : List Expr} {shape : Shape} {free : FreeIndices} : op ≠ .grad →
      xs.length = vs.length → (∀ x v, (x, v) ∈ xs.zip vs → Renumbered ρ g x v) → Reordered op vs ws →
      Renumbered ρ g (.node op xs shape free) (.node op ws shape (ρ.free free))

theorem Reordered.length {op : Operator} {vs ws : List Expr} (reordered : Reordered op vs ws) :
    ws.length = vs.length := by
  obtain rfl | ⟨_, a, b, rfl, rfl⟩ := reordered <;> rfl

namespace Renumbered

variable {ρ : Renumbering} {g : Nat} {a a' b b' x x' : Expr} {op : Operator} {shape : Shape}
  {free : FreeIndices}

theorem of_pairs {xs vs ws : List Expr} (other : op ≠ .grad)
    (pairs : List.Forall₂ (Renumbered ρ g) xs vs) (reordered : Reordered op vs ws) :
    Renumbered ρ g (.node op xs shape free) (.node op ws shape (ρ.free free)) :=
  .node other pairs.length_eq (fun _ _ pair => List.forall₂_zip pairs pair) reordered

theorem of_operands {xs vs : List Expr} (other : op ≠ .grad)
    (pairs : List.Forall₂ (Renumbered ρ g) xs vs) :
    Renumbered ρ g (.node op xs shape free) (.node op vs shape (ρ.free free)) :=
  .of_pairs other pairs (.inl rfl)

theorem pair (left : Renumbered ρ g a a') (right : Renumbered ρ g b b') :
    List.Forall₂ (Renumbered ρ g) [a, b] [a', b'] := .cons left (.cons right .nil)

/-- The two operands of a sum or product, sorted before and after renumbering. -/
theorem sorted (commutes : op = .sum ∨ op = .product) (left : Renumbered ρ g a a')
    (right : Renumbered ρ g b b') :
    Renumbered ρ g (.node op (sortedPair a b) shape free)
      (.node op (sortedPair a' b') shape (ρ.free free)) := by
  have other : op ≠ .grad := by rcases commutes with rfl | rfl <;> nofun
  rcases sorted_pair_cases a b with first | first <;>
    rcases sorted_pair_cases a' b' with second | second <;> rw [first, second]
  · exact .of_operands other (pair left right)
  · exact .of_pairs other (pair left right) (.inr ⟨commutes, a', b', rfl, rfl⟩)
  · exact .of_pairs other (pair right left) (.inr ⟨commutes, b', a', rfl, rfl⟩)
  · exact .of_operands other (pair right left)

theorem constant (c : Constant) : Renumbered ρ g c.toExpr c.toExpr := by
  cases c with
  | zero => exact .zeros [] ∅
  | int => exact .terminal nofun nofun nofun
  | real => exact .terminal nofun nofun nofun

theorem int (value : Int64) : Renumbered ρ g (int value) (int value) := by
  unfold Expr.int
  split
  · exact .zeros [] ∅
  · exact .terminal nofun nofun nofun

theorem real (value : Binary64) : Renumbered ρ g (real value) (real value) := by
  unfold Expr.real
  split
  · exact .zeros [] ∅
  · exact .terminal nofun nofun nofun

theorem shape_eq (renumbered : Renumbered ρ g x x') : x'.shape = x.shape := by
  cases renumbered <;> rfl

theorem rank_eq (renumbered : Renumbered ρ g x x') : x'.rank = x.rank := by
  rw [rank, rank, renumbered.shape_eq]

theorem scalar_eq (renumbered : Renumbered ρ g x x') : x'.isScalar = x.isScalar := by
  rw [isScalar, isScalar, renumbered.shape_eq]

theorem free_eq (renumbered : Renumbered ρ g x x') : x'.free = ρ.free x.free := by
  cases renumbered with
  | @terminal data other =>
      have closed : data.free = ∅ := by cases data <;> first | rfl | exact absurd rfl other
      show data.free = ρ.free data.free
      rw [closed, Renumbering.free_empty]
  | _ => rfl

theorem kind_eq (renumbered : Renumbered ρ g x x') : x'.kind = x.kind := by
  cases renumbered <;> rfl

theorem zero_eq (renumbered : Renumbered ρ g x x') : x'.isZero = x.isZero := by
  cases renumbered <;> rfl

theorem constant_eq (renumbered : Renumbered ρ g x x') : x'.constant? = x.constant? := by
  cases renumbered with
  | zeros shape => cases shape <;> rfl
  | _ => rfl

theorem one_eq (renumbered : Renumbered ρ g x x') : x'.isOne = x.isOne := by
  rw [isOne, isOne, renumbered.constant_eq]

theorem items_eq (renumbered : Renumbered ρ g x x') :
    x'.multiIndex? = x.multiIndex?.map (List.map ρ.item) := by
  cases renumbered with
  | @terminal data _ other =>
      cases data with
      | multiIndex => exact absurd rfl other
      | _ => rfl
  | _ => rfl

theorem fold_eq [Folding] {how : Constant.Operation} (left : Renumbered ρ g a a')
    (right : Renumbered ρ g b b') : fold? how a' b' = fold? how a b := by
  unfold fold?
  rw [left.constant_eq, right.constant_eq]

theorem fold_root_eq [Folding] (operand : Renumbered ρ g a a') : a'.foldRoot? = a.foldRoot? := by
  unfold foldRoot?
  rw [operand.constant_eq]

/-- Operands keep their order, unless they are those of a sum or product. -/
theorem operands {xs : List Expr} (renumbered : Renumbered ρ g (.node op xs shape free) x')
    (ordered : ¬ (op = .sum ∨ op = .product)) :
    ∃ vs, List.Forall₂ (Renumbered ρ g) xs vs ∧ x' = .node op vs shape (ρ.free free) := by
  cases renumbered with
  | node _ length pairs reordered =>
      obtain rfl := reordered.resolve_right fun swapped => ordered swapped.1
      exact ⟨_, List.forall₂_iff_zip.mpr ⟨length, fun {x v} pair => pairs x v pair⟩, rfl⟩

theorem node_left {vs : List Expr} (renumbered : Renumbered ρ g x (.node op vs shape free)) :
    ∃ xs free, x = .node op xs shape free ∧ xs.length = vs.length := by
  cases renumbered with
  | node _ length _ reordered => exact ⟨_, _, rfl, length.trans reordered.length.symm⟩

/-- What holds of both expressions if it holds of two terminals and passes from operands to nodes. -/
theorem both {P : Expr → Prop} (leaf : ∀ data : Terminal,
      (∀ d, data.gdim? = some d → d = g) → P (.terminal data))
    (step : ∀ op xs shape free, op ≠ .grad → (∀ o ∈ xs, P o) → P (.node op xs shape free))
    (renumbered : Renumbered ρ g x x') : P x ∧ P x' := by
  induction renumbered with
  | zeros => exact ⟨leaf _ nofun, leaf _ nofun⟩
  | items => exact ⟨leaf _ nofun, leaf _ nofun⟩
  | terminal _ _ lives => exact ⟨leaf _ lives, leaf _ lives⟩
  | node other length _ reordered ih =>
      refine ⟨step _ _ _ _ other fun o member => ?_, step _ _ _ _ other fun o member => ?_⟩
      · obtain ⟨v, pair⟩ := partner_right length member
        exact (ih o v pair).1
      · obtain ⟨o', pair⟩ := partner_left length (reordered.mem.mp member)
        exact (ih o' o pair).2

theorem unlabelled (renumbered : Renumbered ρ g x x') : Unlabelled x ∧ Unlabelled x' :=
  renumbered.both (fun data _ => unlabelled_terminal data) fun op _ _ _ _ below =>
    unlabelled_of_operands (by cases op <;> nofun) below

theorem on_domain (renumbered : Renumbered ρ g x x') : OnDomain g x ∧ OnDomain g x' := by
  refine renumbered.both (P := OnDomain g) (fun data lives other inside => ?_)
    fun op xs shape free _ below data inside => ?_
  · cases inside with
    | refl => exact lives
    | step member => cases member
  · cases inside with
    | step member inside => exact below _ member data inside

/-- The terminals of both expressions are the same, but for zeros and subscripts. -/
theorem within_iff (renumbered : Renumbered ρ g x x') {data : Terminal} {d : Nat}
    (lives : data.gdim? = some d) : Within (.terminal data) x ↔ Within (.terminal data) x' := by
  -- Zeros and subscripts, which may differ, live on no domain.
  have none {other : Terminal} (nowhere : other.gdim? = none) :
      ¬ Within (.terminal data) (.terminal other) := fun inside => by
    cases inside with
    | refl => exact nomatch nowhere.symm.trans lives
    | step member => cases member
  induction renumbered with
  | zeros => exact ⟨fun inside => absurd inside (none rfl), fun inside => absurd inside (none rfl)⟩
  | items => exact ⟨fun inside => absurd inside (none rfl), fun inside => absurd inside (none rfl)⟩
  | terminal => exact Iff.rfl
  | node _ length _ reordered ih =>
      constructor
      · intro inside
        cases inside with
        | step member inside =>
            obtain ⟨v, pair⟩ := partner_right length member
            exact .step (reordered.mem.mpr (List.of_mem_zip pair).2) ((ih _ v pair).mp inside)
      · intro inside
        cases inside with
        | step member inside =>
            obtain ⟨o, pair⟩ := partner_left length (reordered.mem.mp member)
            exact .step (List.of_mem_zip pair).1 ((ih o _ pair).mpr inside)

theorem geometric_dimension (renumbered : Renumbered ρ g x x') :
    Agree (fun d d' => d = g ∧ d' = g) x.geometricDimension x'.geometricDimension := by
  obtain ⟨on, on'⟩ := renumbered.on_domain
  obtain ⟨plain, plain'⟩ := renumbered.unlabelled
  cases run : x.geometricDimension with
  | ok d =>
      obtain ⟨data, inside, lives⟩ := geometric_dimension_ok run
      obtain rfl := on data inside d lives
      rw [geometric_dimension_runs (consistent_of_unlabelled plain') on'
        ((renumbered.within_iff lives).mp inside) lives]
      exact .ok ⟨rfl, rfl⟩
  | error =>
      cases run' : x'.geometricDimension with
      | error => exact .error
      | ok d =>
          obtain ⟨data, inside, lives⟩ := geometric_dimension_ok run'
          obtain rfl := on' data inside d lives
          rw [geometric_dimension_runs (consistent_of_unlabelled plain) on
            ((renumbered.within_iff lives).mpr inside) lives] at run
          cases run

end Renumbered

end FormCalculus
