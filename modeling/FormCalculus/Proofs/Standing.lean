import FormCalculus.Proofs.Making
import FormCalculus.Sharing.Marking

/-!
What a node needs of the expressions that stand for its operands, to be rebuilt from them as a
node of the same operator, shape and free indices.
-/
set_option autoImplicit false

namespace FormCalculus

open Expr

namespace Expr

/-- A parent that has looked at `x` finds nothing else when it looks at `v`, except that `v` may
be labelled. -/
structure Stands (x v : Expr) : Prop where
  shape : v.shape = x.shape
  free : v.free = x.free
  zero : v.isZero = x.isZero
  constant : v.constant? = x.constant?
  items : x.kind = .multiIndex → v = x
  labelled : x.kind = .labelled → v.kind = .labelled
  kind : v.kind = x.kind ∨ v.kind = .labelled
  indexed : ∀ tensor ii shape free, v = .node .indexed [tensor, ii] shape free →
    ∃ tensor', x = .node .indexed [tensor', ii] shape free

theorem Stands.refl (x : Expr) : Stands x x :=
  ⟨rfl, rfl, rfl, rfl, fun _ => rfl, id, .inl rfl, fun _ _ _ _ same => ⟨_, same⟩⟩

theorem Stands.trans {x y z : Expr} (first : Stands x y) (second : Stands y z) : Stands x z := by
  refine ⟨second.shape.trans first.shape, second.free.trans first.free,
    second.zero.trans first.zero, second.constant.trans first.constant, fun kind => ?_,
    fun kind => second.labelled (first.labelled kind), ?_, fun tensor ii shape free same => ?_⟩
  · obtain rfl := first.items kind
    exact second.items kind
  · rcases second.kind with kind | kind
    · rw [kind]
      exact first.kind
    · exact .inr kind
  · obtain ⟨tensor', same⟩ := second.indexed tensor ii shape free same
    exact first.indexed tensor' ii shape free same

theorem Stands.multi_index {items : List IndexItem} {v : Expr} (stands : Stands (multiIndex items) v) :
    v = multiIndex items :=
  stands.items rfl

/-- What stands for an expression that can be named stands for it under a label too. -/
theorem Stands.label {x v : Expr} {label : Label} (stands : Stands x v) (plain : x.kind ≠ .labelled)
    (named : x.kind.isUnnamed = false) : Stands x (.labelled label v) := by
  have nameable : x.isZero = false ∧ x.constant? = none ∧ x.kind ≠ .multiIndex := by
    cases x with
    | terminal data => cases data <;> first | (cases named; done) | exact ⟨rfl, rfl, nofun⟩
    | node op => exact ⟨rfl, rfl, by cases op <;> nofun⟩
    | labelled => exact ⟨rfl, rfl, nofun⟩
  obtain ⟨zero, constant, items⟩ := nameable
  exact ⟨stands.shape, stands.free, zero.symm, constant.symm, fun kind => absurd kind items,
    fun kind => absurd kind plain, .inr rfl, nofun⟩

theorem Stands.one {x v : Expr} (stands : Stands x v) : v.isOne = x.isOne := by
  rw [isOne, isOne, stands.constant]

end Expr

namespace Operator

/-- The operands that have to be conditions. -/
def tested : Operator → List Expr → List Expr
  | .conditional, operands => operands.take 1
  | .condition op, operands => if op.isLogical then operands else []
  | _, _ => []

theorem mem_tested_condition {op : Comparison} {operands : List Expr} {o : Expr} :
    o ∈ (condition op).tested operands ↔ op.isLogical = true ∧ o ∈ operands := by
  rw [tested]
  split <;> simp [*]

theorem tested_mem {op : Operator} {operands : List Expr} {o : Expr} (member : o ∈ op.tested operands) :
    o ∈ operands := by
  cases op with
  | conditional => exact List.mem_of_mem_take member
  | condition => exact (mem_tested_condition.mp member).2
  | _ => cases member

/-- Where the operator asks for conditions it gets them. -/
def Tests (op : Operator) (operands : List Expr) : Prop :=
  ∀ o ∈ op.tested operands, o.kind = .condition

variable {op : Operator} {xs vs : List Expr} {shape : Shape} {free : FreeIndices}

theorem types_test (types : op.Types xs shape free) : op.Tests xs := by
  cases types with
  | conditional condition => exact fun o member => List.mem_singleton.mp member ▸ condition
  | condition _ checks =>
      intro o member
      obtain ⟨logical, member⟩ := mem_tested_condition.mp member
      exact (checks o member).2 logical
  | _ => exact nofun

theorem fold_stands {how : Constant.Operation} {a b v w : Expr} (left : Stands a v)
    (right : Stands b w) : fold? how v w = fold? how a b := by
  unfold fold?
  rw [left.constant, right.constant]

theorem apart_stands {a b v w : Expr} (left : Stands a v) (right : Stands b w) (apart : Apart a b) :
    Apart v w := by
  unfold Apart
  rw [left.free, right.free]
  exact apart

theorem types_stand (types : op.Types xs shape free) (stands : List.Forall₂ Stands xs vs)
    (tests : op.Tests vs) : op.Types vs shape free := by
  cases types with
  | sum shape free =>
      obtain ⟨v, w, rfl, left, right⟩ := pairs_two stands
      rw [← left.shape, ← left.free]
      exact .sum (by rw [left.shape, right.shape, shape]) (by rw [left.free, right.free, free])
  | product sa sb union =>
      obtain ⟨v, w, rfl, left, right⟩ := pairs_two stands
      exact .product (left.shape.trans sa) (right.shape.trans sb) (by rwa [left.free, right.free])
  | division sa sb union =>
      obtain ⟨v, w, rfl, left, right⟩ := pairs_two stands
      exact .division (left.shape.trans sa) (right.shape.trans sb) (by rwa [left.free, right.free])
  | power sa sb free =>
      obtain ⟨v, w, rfl, left, right⟩ := pairs_two stands
      rw [← left.free]
      exact .power (left.shape.trans sa) (right.shape.trans sb) (right.free.trans free)
  | sqrt scalar =>
      obtain ⟨v, rfl, operand⟩ := pairs_one stands
      rw [← operand.free]
      exact .sqrt (operand.shape.trans scalar)
  | indexed some subscribes =>
      obtain ⟨v, ii, rfl, tensor, items⟩ := pairs_two stands
      obtain rfl := items.multi_index
      exact .indexed some (by rwa [tensor.shape, tensor.free])
  | indexSum scalar known =>
      obtain ⟨v, ii, rfl, summand, items⟩ := pairs_two stands
      obtain rfl := items.multi_index
      rw [← summand.free]
      exact .indexSum (summand.shape.trans scalar) (by rwa [summand.free])
  | componentTensor scalar some binds =>
      obtain ⟨v, ii, rfl, component, items⟩ := pairs_two stands
      obtain rfl := items.multi_index
      exact .componentTensor (component.shape.trans scalar) some (by rwa [component.free])
  | listTensor some same =>
      rw [stands.length_eq]
      refine .listTensor (fun none => ?_) fun v member => ?_
      · rw [none] at stands
        cases stands
        exact some rfl
      · obtain ⟨x, inside, stands⟩ := pairs_member stands member
        rw [stands.shape, stands.free]
        exact same x inside
  | conditional condition shape free union =>
      obtain ⟨test, v, w, rfl, first, left, right⟩ := pairs_three stands
      rw [← left.shape]
      exact .conditional (tests test List.mem_cons_self) (by rw [left.shape, right.shape, shape])
        (by rw [left.free, right.free, free]) (by rwa [first.free, left.free])
  | condition arity checks dims =>
      refine .condition (stands.length_eq ▸ arity) (fun v member => ?_) fun i d => ?_
      · obtain ⟨x, inside, stands⟩ := pairs_member stands member
        exact ⟨stands.shape.trans (checks x inside).1, fun logical =>
          tests v (mem_tested_condition.mpr ⟨logical, member⟩)⟩
      · rw [dims]
        constructor
        · rintro ⟨x, inside, found⟩
          obtain ⟨v, pair⟩ := partner_right stands.length_eq inside
          exact ⟨v, (List.of_mem_zip pair).2, (List.forall₂_zip stands pair).free ▸ found⟩
        · rintro ⟨v, member, found⟩
          obtain ⟨x, inside, stands⟩ := pairs_member stands member
          exact ⟨x, inside, stands.free ▸ found⟩
  | grad nonzero =>
      obtain ⟨v, rfl, operand⟩ := pairs_one stands
      rw [← operand.shape, ← operand.free]
      exact .grad (operand.zero.trans nonzero)
  | div tensor =>
      obtain ⟨v, rfl, operand⟩ := pairs_one stands
      rw [← operand.shape, ← operand.free]
      exact .div (by rwa [operand.shape])
  | curl known =>
      obtain ⟨v, rfl, operand⟩ := pairs_one stands
      rw [← operand.free]
      exact .curl (by rw [curlShape, operand.shape]; exact known)
  | rot known =>
      obtain ⟨v, rfl, operand⟩ := pairs_one stands
      rw [← operand.free]
      exact .rot (by rw [curlShape, operand.shape]; exact known)
  | spatialDerivative some subscribes =>
      obtain ⟨v, ii, rfl, operand, items⟩ := pairs_two stands
      obtain rfl := items.multi_index
      rw [← operand.shape]
      exact .spatialDerivative some (by rwa [operand.free])
  | variableDerivative labelled free =>
      obtain ⟨v, w, rfl, left, right⟩ := pairs_two stands
      rw [← left.shape, ← left.free, ← right.shape]
      exact .variableDerivative (right.labelled labelled) (right.free.trans free)
  | restricted =>
      obtain ⟨v, rfl, operand⟩ := pairs_one stands
      rw [← operand.shape, ← operand.free]
      exact .restricted
  | transposed shape =>
      obtain ⟨v, rfl, operand⟩ := pairs_one stands
      rw [← operand.free]
      exact .transposed (operand.shape.trans shape)
  | inner shape apart union =>
      obtain ⟨v, w, rfl, left, right⟩ := pairs_two stands
      exact .inner (by rw [left.shape, right.shape, shape]) (apart_stands left right apart)
        (by rwa [left.free, right.free])
  | outer apart union =>
      obtain ⟨v, w, rfl, left, right⟩ := pairs_two stands
      rw [← left.shape, ← right.shape]
      exact .outer (apart_stands left right apart) (by rwa [left.free, right.free])
  | dot shape apart union =>
      obtain ⟨v, w, rfl, left, right⟩ := pairs_two stands
      rw [← left.shape, ← right.shape]
      exact .dot (by rw [left.shape, right.shape, shape]) (apart_stands left right apart)
        (by rwa [left.free, right.free])
  | cross sa sb apart union =>
      obtain ⟨v, w, rfl, left, right⟩ := pairs_two stands
      exact .cross (left.shape.trans sa) (right.shape.trans sb) (apart_stands left right apart)
        (by rwa [left.free, right.free])
  | trace shape =>
      obtain ⟨v, rfl, operand⟩ := pairs_one stands
      rw [← operand.free]
      exact .trace (operand.shape.trans shape)
  | skew shape =>
      obtain ⟨v, rfl, operand⟩ := pairs_one stands
      rw [← operand.free]
      exact .skew (operand.shape.trans shape)
  | determinant shape =>
      obtain ⟨v, rfl, operand⟩ := pairs_one stands
      rw [← operand.free]
      exact .determinant (operand.shape.trans shape)
  | inverse shape =>
      obtain ⟨v, rfl, operand⟩ := pairs_one stands
      rw [← operand.free]
      exact .inverse (operand.shape.trans shape)
  | cofactor shape =>
      obtain ⟨v, rfl, operand⟩ := pairs_one stands
      rw [← operand.free]
      exact .cofactor (operand.shape.trans shape)
  | deviatoric shape =>
      obtain ⟨v, rfl, operand⟩ := pairs_one stands
      rw [← operand.free]
      exact .deviatoric (operand.shape.trans shape)

theorem admits_stand (types : op.Types xs shape free) (admits : op.Admits xs)
    (stands : List.Forall₂ Stands xs vs) : op.Admits vs := by
  cases types with
  | sum =>
      obtain ⟨v, w, rfl, left, right⟩ := pairs_two stands
      obtain ⟨nonzero, nonzero', unfolded⟩ := admits
      exact ⟨left.zero.trans nonzero, right.zero.trans nonzero', (fold_stands left right).trans unfolded⟩
  | product =>
      obtain ⟨v, w, rfl, left, right⟩ := pairs_two stands
      obtain ⟨nonzero, nonzero', unfolded, notOne, notOne'⟩ := admits
      exact ⟨left.zero.trans nonzero, right.zero.trans nonzero',
        (fold_stands left right).trans unfolded, left.one.trans notOne, right.one.trans notOne'⟩
  | division =>
      obtain ⟨v, w, rfl, left, right⟩ := pairs_two stands
      obtain ⟨nonzero, nonzero', unfolded, notOne⟩ := admits
      exact ⟨left.zero.trans nonzero, right.zero.trans nonzero',
        (fold_stands left right).trans unfolded, right.one.trans notOne⟩
  | power =>
      obtain ⟨v, w, rfl, left, right⟩ := pairs_two stands
      obtain ⟨notOne, unfolded⟩ := admits
      exact ⟨right.one.trans notOne, (fold_stands left right).trans unfolded⟩
  | sqrt =>
      obtain ⟨v, rfl, operand⟩ := pairs_one stands
      obtain ⟨nonzero, unfolded⟩ := admits
      exact ⟨operand.zero.trans nonzero, by rw [foldRoot?, operand.constant]; exact unfolded⟩
  | indexed =>
      obtain ⟨v, ii, rfl, tensor, items⟩ := pairs_two stands
      obtain rfl := items.multi_index
      obtain ⟨nonzero, stays⟩ := admits
      refine ⟨tensor.zero.trans nonzero, fun items same selects => stays items same ?_⟩
      -- A labelled tensor selects nothing.
      rcases tensor.kind with kind | kind
      · simpa [Selects, kind] using selects
      · simp [Selects, kind] at selects
  | indexSum =>
      obtain ⟨v, ii, rfl, summand, _⟩ := pairs_two stands
      exact summand.zero.trans admits
  | componentTensor =>
      obtain ⟨v, ii, rfl, component, items⟩ := pairs_two stands
      obtain rfl := items.multi_index
      obtain ⟨nonzero, other⟩ := admits
      refine ⟨component.zero.trans nonzero, fun tensor shape free same => ?_⟩
      obtain ⟨tensor', same⟩ := component.indexed _ _ _ _ same
      exact other _ _ _ same
  | listTensor =>
      obtain ⟨entry, inside, nonzero⟩ := admits
      obtain ⟨v, pair⟩ := partner_right stands.length_eq inside
      exact ⟨v, (List.of_mem_zip pair).2, (List.forall₂_zip stands pair).zero.trans nonzero⟩
  | grad | div =>
      obtain ⟨v, rfl, operand⟩ := pairs_one stands
      exact operand.zero.trans admits
  | inner | outer | dot | cross =>
      obtain ⟨v, w, rfl, left, right⟩ := pairs_two stands
      exact ⟨left.zero.trans admits.1, right.zero.trans admits.2⟩
  | _ => trivial

theorem spreads_stand (spreads : op.Spreads xs) (stands : List.Forall₂ Stands xs vs) :
    op.Spreads vs := by
  intro product v member
  obtain ⟨x, inside, stands⟩ := pairs_member stands member
  rw [stands.shape]
  exact spreads product x inside

/-- A node is rebuilt from what stands for its operands. -/
theorem assembles_standing (run : op.assemble xs = .ok (.node op xs shape free))
    (stands : List.Forall₂ Stands xs vs) (tests : op.Tests vs) (lives : op.Lives vs shape free) :
    op.assemble vs = .ok (.node op (op.arrange vs) shape free) := by
  obtain ⟨types, admits, _⟩ := assembled run
  exact assembles (types_stand types stands tests) (admits_stand types admits stands) lives

end Operator

end FormCalculus
