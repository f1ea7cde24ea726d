import Mathlib.Algebra.Field.Rat
import Mathlib.Algebra.Module.LinearMap.Basic
import Mathlib.Algebra.Algebra.Bilinear
import FormCalculus.Proofs.Depending

/-!
The analysis is sound. In every interpretation that reads the operators as what they are with
respect to linearity, an expression that the analysis accepts is affine in each argument, and does
not depend on an argument that its dependencies do not mention.
-/
set_option autoImplicit false

namespace FormCalculus

/-- Values of expressions in a field, at the sites of a domain: a site may be made up of a point, a
component and values of free indices. Operators that are linear or bilinear may be any maps that
are; what is left open by that may be any function of the operands. -/
structure Interpretation (Site K : Type*) [Field K] where
  terminal : Terminal → Site → K
  /-- Linear in the first operand, given the others. -/
  linear : Expr → List (Site → K) → (Site → K) →ₗ[K] (Site → K)
  bilinear : Expr → (Site → K) →ₗ[K] (Site → K) →ₗ[K] (Site → K)
  /-- What a numerator is multiplied by, for a denominator. -/
  reciprocal : (Site → K) → Site → K
  /-- The place in a tuple, and the site of the entry there. -/
  entry : Site → Nat × Site
  holds : (Site → K) → Site → Bool
  other : Expr → List (Site → K) → Site → K

namespace Interpretation

variable {Site K : Type*} [Field K]

/-- What an operator makes of the values of the operands of `e`. -/
def apply (I : Interpretation Site K) (e : Expr) (op : Operator) (values : List (Site → K)) : Site → K :=
  match op, values with
  | .sum, [x, y] => x + y
  | .grad, x :: rest | .div, x :: rest | .curl, x :: rest | .rot, x :: rest
  | .restricted _, x :: rest | .transposed, x :: rest | .trace, x :: rest | .skew, x :: rest
  | .indexed, x :: rest | .indexSum, x :: rest | .componentTensor, x :: rest
  | .spatialDerivative, x :: rest | .variableDerivative, x :: rest => I.linear e rest x
  | .division, [x, y] => x * I.reciprocal y
  | .listTensor, entries => fun s => (entries.map (· (I.entry s).2)).getD (I.entry s).1 0
  | .conditional, [test, x, y] => fun s => if I.holds test s then x s else y s
  | .product, [x, y] | .inner, [x, y] | .outer, [x, y] | .dot, [x, y] | .cross, [x, y] =>
      I.bilinear e x y
  | _, values => I.other e values

mutual
/-- The value of an expression, for values of the arguments. -/
def value (I : Interpretation Site K) (u : Argument → Site → K) : Expr → Site → K
  | .terminal data =>
      match data with
      | .argument a => u a
      | _ => I.terminal data
  | e@(.node op operands _ _) => I.apply e op (values I u operands)
  | .labelled _ body => value I u body
def values (I : Interpretation Site K) (u : Argument → Site → K) : List Expr → List (Site → K)
  | [] => []
  | e :: rest => value I u e :: values I u rest
end

variable (I : Interpretation Site K) (u : Argument → Site → K)

theorem values_map (operands : List Expr) : I.values u operands = operands.map (I.value u) := by
  induction operands with
  | nil => rfl
  | cons o rest ih => rw [values, ih, List.map_cons]

theorem value_node (op : Operator) (operands : List Expr) (shape : Shape) (free : FreeIndices) :
    I.value u (.node op operands shape free) =
      I.apply (.node op operands shape free) op (operands.map (I.value u)) := by
  rw [value, values_map]

end Interpretation

section

variable {Site K : Type*} [Field K] {β : Type*} {a : Argument}
  {F G : (Argument → Site → K) → Site → K} {A B D : DependencySet}

/-- Changing the value of `a` alone does not change the result. -/
def IndependentOf (a : Argument) (F : (Argument → Site → K) → β) : Prop :=
  ∀ u x, F (Function.update u a x) = F u

/-- With the other arguments fixed, the result is an affine function of `a`. -/
def AffineIn (a : Argument) (F : (Argument → Site → K) → Site → K) : Prop :=
  ∀ u x y (p q : K), p + q = 1 → F (Function.update u a (p • x + q • y)) =
    p • F (Function.update u a x) + q • F (Function.update u a y)

/-- Affine in every argument, and dependent on none but those that `D` mentions. -/
def Respects (D : DependencySet) (F : (Argument → Site → K) → Site → K) : Prop :=
  ∀ a, AffineIn a F ∧ (¬ D.Mentions a → IndependentOf a F)

theorem IndependentOf.affine (independent : IndependentOf a F) : AffineIn a F := by
  intro u x y p q total
  rw [independent, independent, independent, ← add_smul, total, one_smul]

omit [Field K] in
theorem IndependentOf.map {γ : Type*} {F : (Argument → Site → K) → β} (independent : IndependentOf a F)
    (f : β → γ) : IndependentOf a fun u => f (F u) :=
  fun u x => congrArg f (independent u x)

theorem respects_empty {F : (Argument → Site → K) → Site → K} :
    Respects ∅ F ↔ ∀ a, IndependentOf a F := by
  constructor
  · exact fun respects a => (respects a).2 (DependencySet.not_mentions_empty a)
  · exact fun independent a => ⟨(independent a).affine, fun _ => independent a⟩

theorem respects_argument (b : Argument) : Respects (.ofArgument b) fun u : Argument → Site → K => u b := by
  intro a
  by_cases same : b = a
  · subst same
    refine ⟨fun u x y p q _ => ?_, fun absent => ?_⟩
    · simp only [Function.update_self]
    · exact absurd ⟨.single b, OrderedSet.mem_single.mpr rfl, OrderedSet.mem_single.mpr rfl⟩ absent
  · have independent : IndependentOf a fun u : Argument → Site → K => u b :=
      fun u x => Function.update_of_ne same x u
    exact ⟨independent.affine, fun _ => independent⟩

/-- A linear map may depend on what does not depend on the arguments. -/
theorem respects_linear {L : (Argument → Site → K) → (Site → K) →ₗ[K] (Site → K)}
    (respects : Respects D F) (steady : ∀ a, IndependentOf a L) : Respects D fun u => L u (F u) := by
  refine fun a => ⟨fun u x y p q total => ?_, fun absent u x => ?_⟩
  · dsimp only
    rw [steady a, steady a, steady a, (respects a).1 u x y p q total, map_add, map_smul, map_smul]
  · dsimp only
    rw [steady a, (respects a).2 absent]

theorem respects_sum (left : Respects A F) (right : Respects B G) :
    Respects (A.union B) fun u => F u + G u := by
  refine fun a => ⟨fun u x y p q total => ?_, fun absent u x => ?_⟩
  · dsimp only
    rw [(left a).1 u x y p q total, (right a).1 u x y p q total, smul_add, smul_add,
      add_add_add_comm]
  · have none := not_or.mp (mt DependencySet.mentions_union.mpr absent)
    dsimp only
    rw [(left a).2 none.1, (right a).2 none.2]

/-- The factors of a product share no argument, so each argument is in one of them at most. -/
theorem respects_product {P : (Site → K) →ₗ[K] (Site → K) →ₗ[K] (Site → K)}
    (run : A.combine? B = some D) (left : Respects A F) (right : Respects B G) :
    Respects D fun u => P (F u) (G u) := by
  refine fun a => ⟨?_, fun absent u x => ?_⟩
  · by_cases first : A.Mentions a
    · have second : ¬ B.Mentions a := by
        obtain ⟨s, member, inside⟩ := first
        rintro ⟨t, member', inside'⟩
        exact DependencySet.combine_apart run member member' a inside inside'
      intro u x y p q total
      have fixed := (right a).2 second
      dsimp only
      rw [fixed, fixed, fixed, (left a).1 u x y p q total, map_add, map_smul, map_smul,
        LinearMap.add_apply, LinearMap.smul_apply, LinearMap.smul_apply]
    · intro u x y p q total
      have fixed := (left a).2 first
      dsimp only
      rw [fixed, fixed, fixed, (right a).1 u x y p q total, map_add, map_smul, map_smul]
  · have none := not_or.mp (mt (DependencySet.mentions_combine run).mpr absent)
    dsimp only
    rw [(left a).2 none.1, (right a).2 none.2]

/-- Which of several values is taken at a site does not depend on the arguments. -/
theorem respects_choice {ι : Type*} (pick : (Argument → Site → K) → Site → ι) (place : Site → Site)
    {choice : ι → (Argument → Site → K) → Site → K} (steady : ∀ a, IndependentOf a pick)
    (respects : ∀ i, Respects D (choice i)) : Respects D fun u s => choice (pick u s) u (place s) := by
  refine fun a => ⟨fun u x y p q total => ?_, fun absent u x => ?_⟩
  · funext s
    dsimp only [Pi.add_apply, Pi.smul_apply]
    rw [steady a, steady a, steady a]
    exact congrFun ((respects _ a).1 u x y p q total) (place s)
  · funext s
    dsimp only
    rw [steady a]
    exact congrFun ((respects _ a).2 absent u x) (place s)

end

section

variable {Site K : Type*} [Field K] (I : Interpretation Site K) {D : DependencySet} {e : Expr}

theorem independent_values {operands : List Expr}
    (each : ∀ o ∈ operands, Respects ∅ fun u => I.value u o) (a : Argument) :
    IndependentOf a fun u => operands.map (I.value u) :=
  fun u x => List.map_congr_left fun o member => respects_empty.mp (each o member) a u x

theorem respects_entry {entries : List Expr} (each : ∀ o ∈ entries, Respects D fun u => I.value u o)
    (k : Nat) : Respects D fun u s => ((entries.map (I.value u)).map (· s)).getD k 0 := by
  cases found : entries[k]? with
  | none =>
      -- Beyond the last entry the value is zero.
      have zero (u : Argument → Site → K) (s : Site) :
          ((entries.map (I.value u)).map (· s)).getD k 0 = 0 := by
        simp [List.getD_eq_getElem?_getD, found]
      simp only [zero]
      exact fun a => ⟨IndependentOf.affine fun _ _ => rfl, fun _ _ _ => rfl⟩
  | some o =>
      have value (u : Argument → Site → K) (s : Site) :
          ((entries.map (I.value u)).map (· s)).getD k 0 = I.value u o s := by
        simp [List.getD_eq_getElem?_getD, found]
      simp only [value]
      exact each o (List.mem_of_getElem? found)

/-- What the rule of each operator finds is respected by the meaning of the operator. -/
theorem Depends.respects (depends : Depends e D) (typed : e.WellTyped) :
    Respects D fun u => I.value u e := by
  induction depends with
  | argument a => exact respects_argument a
  | @terminal data other =>
      refine respects_empty.mpr fun a u x => ?_
      cases data with
      | argument => cases other
      | _ => rfl
  | labelled _ ih => exact ih (typed.operand List.mem_cons_self)
  | @linear op a rest shape free D kind _ _ first others =>
      have first := first (typed.operand List.mem_cons_self)
      have steady := independent_values I fun o member =>
        others o member (typed.operand (List.mem_cons_of_mem _ member))
      have mapped := respects_linear first fun b =>
        (steady b).map (I.linear (.node op (a :: rest) shape free))
      simp only [Interpretation.value_node, List.map_cons]
      cases typed with
      | node types _ =>
          cases types with
          | @division _ b =>
              exact respects_linear first fun b =>
                (steady b).map fun ys => LinearMap.mulRight K (I.reciprocal (ys.headD 0))
          | grad | div | curl | rot | restricted | transposed | trace | skew | indexed | indexSum
          | componentTensor | spatialDerivative | variableDerivative => exact mapped
          | _ => exact absurd kind (by simp [Dependency.linearKinds, Dependency.linearInFirstKinds, Operator.kind])
  | @nonlinear op operands shape free kind _ ih =>
      have steady := independent_values I fun o member => ih o member (typed.operand member)
      refine respects_empty.mpr fun a => ?_
      simp only [Interpretation.value_node]
      exact (steady a).map (I.apply (.node op operands shape free) op)
  | sum _ _ left right =>
      have left := left (typed.operand List.mem_cons_self)
      have right := right (typed.operand (List.mem_cons_of_mem _ List.mem_cons_self))
      simp only [Interpretation.value_node]
      exact respects_sum left right
  | @product op a b shape free A B D kind _ _ combined left right =>
      have left := left (typed.operand List.mem_cons_self)
      have right := right (typed.operand (List.mem_cons_of_mem _ List.mem_cons_self))
      have multiplied := respects_product (P := I.bilinear (.node op [a, b] shape free)) combined left right
      simp only [Interpretation.value_node]
      cases op with
      | product | inner | outer | dot | cross => exact multiplied
      | _ => exact absurd kind (by simp [Dependency.productKinds, Operator.kind])
  | @listTensor entries shape free D _ _ ih =>
      have each := respects_entry I fun o member => ih o member (typed.operand member)
      simp only [Interpretation.value_node]
      exact respects_choice (fun _ s => (I.entry s).1) (fun s => (I.entry s).2) (fun _ _ _ => rfl) each
  | @conditional test a b shape free D _ _ _ condition left right =>
      have condition := respects_empty.mp (condition (typed.operand List.mem_cons_self))
      have left := left (typed.operand (by simp [Expr.operands]))
      have right := right (typed.operand (by simp [Expr.operands]))
      have branch (holds : Bool) :
          Respects D fun u s => if holds then I.value u a s else I.value u b s := by
        cases holds with
        | true => exact left
        | false => exact right
      simp only [Interpretation.value_node]
      exact respects_choice (fun u s => I.holds (I.value u test) s) id
        (fun c => (condition c).map I.holds) branch

end

/-- An expression that is accepted is affine in each argument, and does not depend on an argument
that none of its terms is a product of. -/
theorem dependencies_sound {Site K : Type*} [Field K] (I : Interpretation Site K) {e : Expr}
    {D : DependencySet} (made : e.Constructible) (consistent : e.Consistent)
    (run : e.dependencies = .ok D) (a : Argument) (u : Argument → Site → K) :
    (∀ (x y : Site → K) (p q : K), p + q = 1 →
      I.value (Function.update u a (p • x + q • y)) e =
        p • I.value (Function.update u a x) e + q • I.value (Function.update u a y) e) ∧
    ((∀ t ∈ D, a ∉ t) →
      ∀ x y : Site → K, I.value (Function.update u a x) e = I.value (Function.update u a y) e) := by
  have typed := made.well_typed
  have depends := (dependencies_ok typed consistent).mp run
  obtain ⟨affine, independent⟩ := depends.respects I typed a
  refine ⟨affine u, fun absent x y => ?_⟩
  have fixed := independent fun ⟨t, member, inside⟩ => absent t member inside
  exact (fixed u x).trans (fixed u y).symm

def spareArgument : Argument := ⟨2, none, .scalar 2⟩

/-- At one point, where derivatives are taken to be the identity. -/
def pointwise : Interpretation Unit ℚ where
  terminal _ _ := 1
  linear _ _ := LinearMap.id
  bilinear _ := LinearMap.mul ℚ (Unit → ℚ)
  reciprocal y s := (y s)⁻¹
  entry s := (0, s)
  holds x s := x s != 0
  other _ _ _ := 0

/-- The value of the integrand where the other argument is three. -/
def massAt (a : Argument) (x : Unit → ℚ) : Unit → ℚ :=
  pointwise.value (Function.update (fun _ _ => 3) a x) mass

theorem mass_sound :
    (massAt testArgument ((2 : ℚ) • (fun _ => 5) + (-1 : ℚ) • fun _ => 4) =
      (2 : ℚ) • massAt testArgument (fun _ => 5) + (-1 : ℚ) • massAt testArgument fun _ => 4) ∧
    massAt spareArgument (fun _ => 5) = massAt spareArgument fun _ => 4 := by
  have absent : ∀ t ∈ (.single (.ofList [testArgument, trialArgument]) : DependencySet),
      spareArgument ∉ t := by
    intro t member
    rw [OrderedSet.mem_single.mp member, OrderedSet.mem_of_list]
    decide
  have sound (a : Argument) := dependencies_sound pointwise mass_constructible mass_consistent
    mass_dependencies a fun _ _ => 3
  exact ⟨(sound testArgument).1 (fun _ => 5) (fun _ => 4) 2 (-1) (by norm_num),
    (sound spareArgument).2 absent (fun _ => 5) fun _ => 4⟩

end FormCalculus
