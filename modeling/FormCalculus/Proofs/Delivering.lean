import FormCalculus.Proofs.FormulaCases

/-!
Computations that give what is promised or fail for a declared reason, and the reasons that the closed
forms have. What they check first they decline truly.
-/
set_option autoImplicit false

namespace FormCalculus

open Expr

section Delivery

variable {ε δ α β : Type} {declared declared' : ε → Prop}

/-- The result satisfies `post`; where there is none, the error is one of those declared. -/
def Delivers (declared : ε → Prop) (result : Except ε α) (post : α → Prop) : Prop :=
  match result with
  | .ok r => post r
  | .error e => declared e

variable {act : Except ε α} {next : α → Except ε β} {post post' : α → Prop} {after : β → Prop} {r : α}

namespace Delivers

theorem of_ok (run : act = .ok r) (holds : post r) : Delivers declared act post := by
  rw [run]
  exact holds

theorem imp (delivers : Delivers declared act post) (imp : ∀ r, post r → post' r) :
    Delivers declared act post' := by
  cases act with
  | ok r => exact imp r delivers
  | error e => exact delivers

theorem widen (delivers : Delivers declared act post) (errors : ∀ e, declared e → declared' e) :
    Delivers declared' act post := by
  cases act with
  | ok r => exact delivers
  | error e => exact errors e delivers

theorem bind (first : Delivers declared act post)
    (rest : ∀ r, post r → Delivers declared (next r) after) : Delivers declared (act >>= next) after := by
  cases act with
  | ok r => exact rest r first
  | error e => exact first

theorem map_error {declared : δ → Prop} (f : ε → δ)
    (delivers : Delivers (fun e => declared (f e)) act post) : Delivers declared (act.mapError f) post := by
  cases act with
  | ok r => exact delivers
  | error e => exact delivers

/-- What a loop checks of each element holds of all of them. -/
theorem each {list : List α} {body : α → Unit → Except ε (ForInStep Unit)} {passed : α → Prop}
    (checks : ∀ x ∈ list, Delivers declared (body x ()) fun step => step = .yield () ∧ passed x) :
    Delivers declared (forIn list () body) fun _ => ∀ x ∈ list, passed x := by
  induction list with
  | nil =>
      intro x member
      exact absurd member List.not_mem_nil
  | cons head rest ih =>
      obtain ⟨here, others⟩ := List.forall_mem_cons.mp checks
      rw [List.forIn_cons]
      apply here.bind
      rintro _ ⟨rfl, passes⟩
      apply (ih others).imp
      intro _ passed
      exact List.forall_mem_cons.mpr ⟨passes, passed⟩

section Fresh

variable {supply later : Supply} {post : α × Supply → Prop} {after : β × Supply → Prop}

theorem lift {post : α → Prop} (delivers : Delivers declared act post) :
    Delivers declared ((liftM act : Fresh ε α) supply) fun pair => post pair.1 := by
  cases act with
  | ok r => exact delivers
  | error e => exact delivers

theorem lift_ok (run : act = .ok r) (holds : post (r, supply)) :
    Delivers declared ((liftM act : Fresh ε α) supply) post := by
  rw [run]
  exact holds

theorem lift_step {next : α → Fresh ε β} (run : act = .ok r)
    (rest : Delivers declared (next r supply) after) :
    Delivers declared (((liftM act : Fresh ε α) >>= next) supply) after := by
  rw [run]
  exact rest

variable {act : Fresh ε α} {next : α → Fresh ε β}

theorem fresh_bind (first : Delivers declared (act supply) post)
    (rest : ∀ r later, post (r, later) → Delivers declared (next r later) after) :
    Delivers declared ((act >>= next) supply) after := by
  show Delivers declared (act supply >>= fun pair => next pair.1 pair.2) after
  exact first.bind fun pair => rest pair.1 pair.2

theorem fresh_step (run : act supply = .ok (r, later)) (rest : Delivers declared (next r later) after) :
    Delivers declared ((act >>= next) supply) after := by
  show Delivers declared (act supply >>= fun pair => next pair.1 pair.2) after
  rw [run]
  exact rest

theorem fresh_map_error {declared : δ → Prop} (f : ε → δ)
    (delivers : Delivers (fun e => declared (f e)) (act supply) post) :
    Delivers declared (Fresh.mapError f act supply) post := delivers.map_error f

end Fresh

end Delivers

end Delivery

/-! Reasons to decline. -/

/-- The shapes that a closed form is written for. -/
def Formula.Takes (formula : Formula) (shape : Shape) : Prop :=
  match formula with
  | .cross => shape = [3]
  | .determinant | .inverse => shape = [] ∨ shape.length = 2
  | _ => shape.length = 2

/-- The dimensions that a closed form is written for. -/
def Formula.Knows (formula : Formula) (dim : Nat) : Prop :=
  match formula with
  | .adjugate | .cofactor => dim = 2 ∨ dim = 3 ∨ dim = 4
  | .deviatoric => dim = 2 ∨ dim = 3
  | _ => True

/-- The refusal of a dimension that a closed form is not written for. -/
def Formula.Unknown (formula : Formula) (dim : Nat) (e : LoweringError) : Prop :=
  ¬ formula.Knows dim ∧ e = .dimensionNotImplemented formula dim

/-- A closed form has nothing to say about the operand, and why. -/
inductive Declines (a : Expr) : LoweringError → Prop
  | notSquare {m n : Nat} : a.shape = [m, n] → m ≠ n → Declines a (.notSquare a.shape)
  | dimension {formula : Formula} {m n : Nat} : a.shape = [m, n] → ¬ formula.Knows n →
      Declines a (.dimensionNotImplemented formula n)
  | shape {formula : Formula} : ¬ formula.Takes a.shape →
      Declines a (.unsupportedShape formula a.shape)
  | indexed {formula : Formula} : a.free ≠ ∅ → Declines a (.freeIndices formula a)

/-- Something is divided by zero. -/
inductive DividesByZero : LoweringError → Prop
  | intro (dividend : Expr) : DividesByZero (.build (.invalidOperand .division (.zeroDivisor dividend)))

namespace Formula

variable {formula : Formula} {a : Expr}

theorem expect_index_free_delivers :
    Delivers (Declines a) (formula.expectIndexFree a) fun _ => a.free = ∅ := by
  unfold expectIndexFree
  by_cases unindexed : a.free = ∅
  · rw [if_pos (FreeIndices.is_empty_iff.mpr unindexed)]
    exact unindexed
  · rw [if_neg fun none => unindexed (FreeIndices.is_empty_iff.mp none)]
    exact .indexed unindexed

theorem matrix_shape_delivers (other : a.shape.length ≠ 2 → ¬ formula.Takes a.shape) :
    Delivers (Declines a) (formula.matrixShape a) fun dims => a.shape = [dims.1, dims.2] := by
  cases run : formula.matrixShape a with
  | ok dims => exact matrix_shape_ok run
  | error e =>
      have rank : a.shape.length ≠ 2 := fun two => by
        obtain ⟨m, n, shape⟩ := List.length_eq_two.mp two
        cases run.symm.trans (matrix_shape_runs shape)
      unfold matrixShape at run
      split at run
      · cases run
      · cases run
        exact .shape (other rank)

theorem square_dim_delivers (other : a.shape.length ≠ 2 → ¬ formula.Takes a.shape) :
    Delivers (Declines a) (formula.squareDim a) fun n => a.shape = [n, n] ∧ a.free = ∅ := by
  unfold squareDim
  apply (matrix_shape_delivers other).bind
  intro (m, n) shape
  by_cases square : m = n
  · subst square
    simp only [ne_eq, not_true_eq_false, if_false]
    apply expect_index_free_delivers.bind
    intro _ unindexed
    exact ⟨shape, unindexed⟩
  · simp only [ne_eq, square, not_false_eq_true, if_true]
    exact .notSquare shape square

end Formula

end FormCalculus
