import FormCalculus.Proofs.Commuting
import FormCalculus.Proofs.Passing
import FormCalculus.Proofs.Standing
import FormCalculus.Proofs.Walking

/-!
What naming repeated subexpressions does to an expression: labels around some of its nodes, and
the operands of sums and products in a new order.
-/
set_option autoImplicit false

namespace FormCalculus

namespace Expr

/-- What each derivative in it is taken of lives on one domain. -/
def Uniform (e : Expr) : Prop :=
  ∀ d, Within d e → d.kind = .grad ∨ d.kind = .spatialDerivative → ∃ g, OnDomain g d

theorem Uniform.within {x e : Expr} (uniform : Uniform e) (inside : Within x e) : Uniform x :=
  fun d below => uniform d (below.trans inside)

end Expr

open Expr

/-- The expression that each label stands for. -/
structure Bodies where
  body? : Label → Option Expr

namespace Bodies

/-- Labels are added and keep what they stand for. -/
instance : Preorder Bodies where
  le w w' := ∀ label body, w.body? label = some body → w'.body? label = some body
  le_refl _ _ _ := id
  le_trans _ _ _ first second label body known := second label body (first label body known)

def insert (w : Bodies) (label : Label) (body : Expr) : Bodies :=
  ⟨fun other => if other = label then some body else w.body? other⟩

theorem insert_body (w : Bodies) (label : Label) (body : Expr) :
    (w.insert label body).body? label = some body :=
  if_pos rfl

theorem le_insert {w : Bodies} {label : Label} {body : Expr} (fresh : w.body? label = none) :
    w ≤ w.insert label body := by
  intro other known found
  have differs : other ≠ label := by
    rintro rfl
    rw [fresh] at found
    cases found
  exact (if_neg differs).trans found

/-- The labels of `e` stand for the bodies they have there. -/
def Covers (w : Bodies) (e : Expr) : Prop :=
  ∀ label body, Within (labelled label body) e → w.body? label = some body

theorem Covers.grows {w w' : Bodies} {e : Expr} (covers : w.Covers e) (later : w ≤ w') :
    w'.Covers e :=
  fun label body inside => later label body (covers label body inside)

theorem Covers.within {w : Bodies} {x e : Expr} (covers : w.Covers e) (inside : Within x e) :
    w.Covers x :=
  fun label body below => covers label body (below.trans inside)

end Bodies

namespace Expr

/-- `v` is `x` with labels around some of its nodes. A new label stands for an expression that it
can name in place of `x` too. -/
inductive Marked (w : Bodies) : Expr → Expr → Prop
  | terminal (data : Terminal) : Marked w (.terminal data) (.terminal data)
  | node {op : Operator} {xs vs ws : List Expr} {shape : Shape} {free : FreeIndices} :
      xs.length = vs.length → (∀ x v, (x, v) ∈ xs.zip vs → Marked w x v) → Reordered op vs ws →
      Marked w (.node op xs shape free) (.node op ws shape free)
  | kept {label : Label} {body v : Expr} : w.body? label = some body → Marked w body v →
      Marked w (.labelled label body) (.labelled label v)
  | named {label : Label} {o x v : Expr} : w.body? label = some o → Marked w o v → Marked w x v →
      x.kind ≠ .labelled → x.kind.isUnnamed = false → Marked w x (.labelled label v)

namespace Marked

variable {w w' : Bodies} {e o x y v : Expr}

theorem grows (later : w ≤ w') (marked : Marked w x v) : Marked w' x v := by
  induction marked with
  | terminal data => exact .terminal data
  | node length _ reordered ih => exact .node length ih reordered
  | kept known _ ih => exact .kept (later _ _ known) ih
  | named known _ _ plain nameable ih ih' => exact .named (later _ _ known) ih ih' plain nameable

theorem refl (covers : w.Covers x) : Marked w x x := by
  induction x with
  | terminal data => exact .terminal data
  | labelled label body ih =>
      exact .kept (covers label body (.refl _)) (ih (covers.within (.operand List.mem_cons_self)))
  | node op operands shape free ih =>
      refine .node rfl (fun x v pair => ?_) (.inl rfl)
      obtain ⟨member, _⟩ := List.of_mem_zip pair
      obtain rfl : x = v := by
        obtain ⟨place, small, same⟩ := List.mem_iff_getElem.mp pair
        rw [List.getElem_zip] at same
        cases same
        rfl
      exact ih x member (covers.within (.operand member))

theorem of_pairs {op : Operator} {xs vs : List Expr} {shape : Shape} {free : FreeIndices}
    (pairs : List.Forall₂ (Marked w) xs vs) :
    Marked w (.node op xs shape free) (.node op (op.arrange vs) shape free) :=
  .node pairs.length_eq (fun _ _ pair => List.forall₂_zip pairs pair) (arrange_reordered op vs)

/-- What is marked of an equal expression is marked of this one. -/
theorem alike (covers : w.Covers e) (inside : Within x e) (same : (x == y) = true)
    (marked : Marked w o y) : Marked w x y := by
  induction marked generalizing x with
  | terminal data => cases x <;> simp_all; exact .terminal _
  | kept known below =>
      cases x with
      | terminal => simp at same
      | node => simp at same
      | labelled label body =>
          obtain rfl : label = _ := by simpa using same
          have here := covers label body inside
          rw [known] at here
          cases here
          exact .kept known below
  | named known below =>
      cases x with
      | terminal => simp at same
      | node => simp at same
      | labelled label body =>
          obtain rfl : label = _ := by simpa using same
          have here := covers label body inside
          rw [known] at here
          cases here
          exact .kept known below
  | @node op xs vs ws shape free length _ reordered ih =>
      cases x with
      | terminal => simp at same
      | labelled => simp at same
      | node op' operands shape' free' =>
          simp only [node_same, Bool.and_eq_true, beq_iff_eq, operands_same_iff] at same
          obtain ⟨⟨⟨rfl, rfl⟩, rfl⟩, pairs⟩ := same
          refine .node pairs.length_eq (fun a b pair => ?_) (.inl rfl)
          obtain ⟨member, member'⟩ := List.of_mem_zip pair
          obtain ⟨x, partner⟩ := partner_left length (reordered.mem.mp member')
          exact ih x b partner ((Within.operand member).trans inside) (List.forall₂_zip pairs pair)

/-- Marking adds no terminal. -/
theorem terminals (marked : Marked w x v) {data : Terminal} (inside : Within (.terminal data) v) :
    Within (.terminal data) x := by
  induction marked with
  | terminal => exact inside
  | kept _ _ ih =>
      cases inside with
      | step member below =>
          obtain rfl := List.mem_singleton.mp member
          exact .step List.mem_cons_self (ih below)
  | named _ _ _ _ _ _ ih =>
      cases inside with
      | step member below =>
          obtain rfl := List.mem_singleton.mp member
          exact ih below
  | node length _ reordered ih =>
      cases inside with
      | step member below =>
          obtain ⟨o, pair⟩ := partner_left length (reordered.mem.mp member)
          exact .step (List.of_mem_zip pair).1 (ih o _ pair below)

/-- Every label in it stands for what is marked under it. -/
theorem registered (marked : Marked w x v) {label : Label} {b : Expr}
    (inside : Within (.labelled label b) v) : ∃ o, w.body? label = some o ∧ Marked w o b := by
  induction marked with
  | terminal =>
      cases inside with
      | step member => cases member
  | @kept _ body _ known below ih =>
      cases inside with
      | refl => exact ⟨body, known, below⟩
      | step member inside =>
          obtain rfl := List.mem_singleton.mp member
          exact ih inside
  | @named _ o _ _ known below _ _ _ ih =>
      cases inside with
      | refl => exact ⟨o, known, below⟩
      | step member inside =>
          obtain rfl := List.mem_singleton.mp member
          exact ih inside
  | node length _ reordered ih =>
      cases inside with
      | step member inside =>
          obtain ⟨o, pair⟩ := partner_left length (reordered.mem.mp member)
          exact ih o _ pair inside

theorem multi_index {items : List IndexItem} (marked : Marked w (Expr.multiIndex items) v) :
    v = Expr.multiIndex items := by
  cases marked with
  | terminal => rfl
  | named _ _ _ _ nameable => cases nameable

/-- What is marked stands for the expression in its parents. -/
theorem stands (typed : WellTyped x) (marked : Marked w x v) : Stands x v := by
  induction marked with
  | terminal data => exact .refl _
  | kept _ _ ih =>
      have below := ih (typed.operand List.mem_cons_self)
      exact ⟨below.shape, below.free, rfl, rfl, nofun, id, .inl rfl, nofun⟩
  | named _ _ _ plain nameable _ ih => exact (ih typed).label plain nameable
  | @node op xs vs ws shape free length pairs reordered _ =>
      have other : op.kind ≠ .multiIndex := by cases op <;> nofun
      refine ⟨rfl, rfl, rfl, rfl, fun kind => absurd kind other, id, .inl rfl,
        fun tensor ii shape' free' same => ?_⟩
      cases same
      obtain rfl | ⟨product, _⟩ := reordered
      · obtain _ | ⟨types, _⟩ := typed
        cases types with
        | @indexed a items =>
            have second := pairs (Expr.multiIndex items) ii (by simp)
            obtain rfl := second.multi_index
            exact ⟨a, rfl⟩
      · rcases product with product | product <;> cases product

end Marked

end Expr

end FormCalculus
