import FormCalculus.Proofs.Marking
import FormCalculus.Proofs.Transforming

/-!
Expressions that differ only in their labels and in the order of the operands of sums and products.
What marking returns is such an echo of the expression, and so is what lowering makes of either if
there is nothing to lower.
-/
set_option autoImplicit false

namespace FormCalculus

open Expr

namespace Reordered

variable {op : Operator} {us vs ws : List Expr}

theorem symm (reordered : Reordered op vs ws) : Reordered op ws vs := by
  obtain rfl | ⟨commutes, a, b, rfl, rfl⟩ := reordered
  · exact .inl rfl
  · exact .inr ⟨commutes, b, a, rfl, rfl⟩

theorem trans (first : Reordered op us vs) (second : Reordered op vs ws) : Reordered op us ws := by
  obtain rfl | ⟨commutes, a, b, rfl, rfl⟩ := first
  · exact second
  · obtain rfl | ⟨_, c, d, same, rfl⟩ := second
    · exact .inr ⟨commutes, a, b, rfl, rfl⟩
    · cases same
      exact .inl rfl

theorem same (reordered : Reordered op vs ws) (other : op ≠ .sum ∧ op ≠ .product) : ws = vs := by
  obtain same | ⟨commutes, _⟩ := reordered
  · exact same
  · exact absurd commutes (not_or.mpr other)

/-- What goes along with the operands can be put in their new order. -/
theorem pairs {β : Expr → Expr → Prop} {ts : List Expr} (reordered : Reordered op vs ws)
    (along : List.Forall₂ β vs ts) : ∃ us, Reordered op ts us ∧ List.Forall₂ β ws us := by
  obtain rfl | ⟨commutes, a, b, rfl, rfl⟩ := reordered
  · exact ⟨ts, .inl rfl, along⟩
  · obtain ⟨t, u, rfl, first, second⟩ := pairs_two along
    exact ⟨[u, t], .inr ⟨commutes, t, u, rfl, rfl⟩, .cons second (.cons first .nil)⟩

end Reordered

theorem pairs_trans {α β γ : Type} {R : α → β → Prop} {S : β → γ → Prop} {T : α → γ → Prop}
    {xs : List α} {ys : List β} {zs : List γ} (first : List.Forall₂ R xs ys)
    (second : List.Forall₂ S ys zs) (both : ∀ x y z, R x y → S y z → T x z) :
    List.Forall₂ T xs zs := by
  induction first generalizing zs with
  | nil =>
      cases second
      exact .nil
  | cons here _ ih =>
      cases second with
      | cons next others => exact .cons (both _ _ _ here next) (ih others)

namespace Expr

/-- `v` is `x` with other labels, and with operands of sums and products in another order. -/
inductive Echoes : Expr → Expr → Prop
  | terminal (data : Terminal) : Echoes (.terminal data) (.terminal data)
  | node {op : Operator} {xs vs ws : List Expr} {shape : Shape} {free : FreeIndices} :
      xs.length = vs.length → (∀ x v, (x, v) ∈ xs.zip vs → Echoes x v) → Reordered op vs ws →
      Echoes (.node op xs shape free) (.node op ws shape free)
  | left {label : Label} {body v : Expr} : Echoes body v → Echoes (.labelled label body) v
  | right {label : Label} {x body : Expr} : Echoes x body → Echoes x (.labelled label body)

namespace Echoes

variable {x y z v body : Expr} {label : Label}

theorem of_pairs {op : Operator} {xs vs ws : List Expr} {shape : Shape} {free : FreeIndices}
    (pairs : List.Forall₂ Echoes xs vs) (reordered : Reordered op vs ws) :
    Echoes (.node op xs shape free) (.node op ws shape free) :=
  .node pairs.length_eq (fun _ _ pair => List.forall₂_zip pairs pair) reordered

theorem refl (x : Expr) : Echoes x x := by
  induction x with
  | terminal data => exact .terminal data
  | labelled label body ih => exact .left (.right ih)
  | node op operands shape free ih =>
      exact of_pairs (List.forall₂_same.mpr fun o member => ih o member) (.inl rfl)

theorem symm (echoes : Echoes x v) : Echoes v x := by
  induction echoes with
  | terminal data => exact .terminal data
  | left _ ih => exact .right ih
  | right _ ih => exact .left ih
  | @node op xs vs ws shape free length _ reordered ih =>
      have back : List.Forall₂ Echoes vs xs := List.Forall₂.flip
        (List.forall₂_iff_zip.mpr ⟨length, fun {x v} pair => ih x v pair⟩)
      obtain ⟨ys, reordered', pairs⟩ := reordered.pairs back
      exact of_pairs pairs reordered'.symm

/-- A label has no part in it. -/
theorem of_left (echoes : Echoes (.labelled label body) v) : Echoes body v := by
  generalize same : Expr.labelled label body = x at echoes
  induction echoes with
  | terminal | node => cases same
  | left below =>
      cases same
      exact below
  | right _ ih => exact .right (ih same)

theorem trans (first : Echoes x y) (second : Echoes y z) : Echoes x z := by
  induction first generalizing z with
  | terminal data => exact second
  | left _ ih => exact .left (ih second)
  | right _ ih => exact ih second.of_left
  | @node op xs vs ws shape free length _ reordered ih =>
      generalize same : Expr.node op ws shape free = y at second
      induction second with
      | terminal | left => cases same
      | right _ ih' => exact .right (ih' same)
      | @node op xs' us ws' shape free length' pairs' reordered' =>
          cases same
          have along : List.Forall₂ Echoes ws us :=
            List.forall₂_iff_zip.mpr ⟨length', fun {x v} pair => pairs' x v pair⟩
          obtain ⟨ts, reordered'', pairs⟩ := reordered.symm.pairs along
          have before : List.Forall₂ (fun x v => ∀ z, Echoes v z → Echoes x z) xs vs :=
            List.forall₂_iff_zip.mpr ⟨length, fun {x v} pair z => ih x v pair⟩
          exact of_pairs (pairs_trans before pairs fun x v z first second => first z second)
            (reordered''.symm.trans reordered')

theorem shape (echoes : Echoes x v) : v.shape = x.shape := by
  induction echoes with
  | terminal | node => rfl
  | left _ ih | right _ ih => exact ih

theorem free (echoes : Echoes x v) : v.free = x.free := by
  induction echoes with
  | terminal | node => rfl
  | left _ ih | right _ ih => exact ih

/-- It has a node of a kind only where the expression has one. -/
theorem within (echoes : Echoes x v) {p : Expr} (inside : Within p v) (plain : p.kind ≠ .labelled) :
    ∃ o, Within o x ∧ o.kind = p.kind := by
  induction echoes with
  | terminal data => exact ⟨p, inside, rfl⟩
  | left _ ih =>
      obtain ⟨o, below, kind⟩ := ih inside
      exact ⟨o, below.trans (.operand List.mem_cons_self), kind⟩
  | right _ ih =>
      cases inside with
      | refl => exact absurd rfl plain
      | step member inside => exact ih (List.mem_singleton.mp member ▸ inside)
  | node length _ reordered ih =>
      cases inside with
      | refl => exact ⟨_, .refl _, rfl⟩
      | step member inside =>
          obtain ⟨o, pair⟩ := partner_left length (reordered.mem.mp member)
          obtain ⟨q, below, kind⟩ := ih o _ pair inside
          exact ⟨q, below.trans (.operand (List.of_mem_zip pair).1), kind⟩

end Echoes

theorem Marked.echoes {w : Bodies} {x v : Expr} (marked : Marked w x v) : Echoes x v := by
  induction marked with
  | terminal data => exact .terminal data
  | node length _ reordered ih => exact .node length ih reordered
  | kept _ _ ih => exact .left (.right ih)
  | named _ _ _ _ _ _ ih => exact .right ih

end Expr

end FormCalculus
