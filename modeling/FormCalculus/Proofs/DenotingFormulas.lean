import Mathlib.Tactic.FieldSimp
import FormCalculus.Proofs.Denoting
import FormCalculus.Proofs.RepresentingFormulas

/-!
The closed forms of a matrix without free indices: what they make has the entries of the adjugate,
of the cofactors, of the inverse and so on of the matrix of its components.
-/
set_option autoImplicit false

namespace FormCalculus.Denotes

open Expr Formula

variable {K : Type} [Field K] {M : Reading K} [Folding] (exact : M.Exact) {a b e r : Expr}
  {shape : Shape} {A B : Index → Nat → Prop} {f g : Meaning K}

include exact

section Matrices

variable {n : Nat} (matrix : Denotes M a [n, n] A f)

include matrix

theorem cofactor_formula (run : a.cofactorFormula = .ok r) :
    Denotes M r [n, n] Closed fun s ρ => entryOf (squareOf n (f s ρ)).adjugate.transpose :=
  of_represents fun s => (matrix.represents s).cofactor_formula (M.valuation_exact exact s) run

theorem square_determinant (rows : n ≠ 0) (run : a.squareDeterminant = .ok r) :
    Denotes M r [] Closed fun s ρ _ => (squareOf n (f s ρ)).det :=
  of_represents fun s => (matrix.represents s).square_determinant (M.valuation_exact exact s).ring rows run

theorem determinant_formula {supply after : Supply} (rows : n ≠ 0)
    (run : a.determinantFormula supply = .ok (r, after)) :
    Denotes M r [] Closed fun s ρ _ => (squareOf n (f s ρ)).det := by
  obtain ⟨vanishes, rfl⟩ | ⟨scalar, _⟩ | ⟨_, _, made⟩ | ⟨m, k, shape, other, _⟩ :=
    determinant_formula_cases run
  · refine matrix.square_determinant exact rows ?_
    unfold squareDeterminant
    rw [if_pos vanishes]
  · simp [matrix.shaped] at scalar
  · exact matrix.square_determinant exact rows made
  · simp only [matrix.shaped, List.cons.injEq, and_true] at shape
    exact absurd (shape.1.symm.trans shape.2) other

theorem inverse_formula (rigid : M.Rigid) {supply after : Supply}
    (one : ∀ s ρ c, M.value one s ρ c = 1) (run : a.inverseFormula supply = .ok (r, after)) :
    Denotes M r [n, n] Closed fun s ρ => entryOf (squareOf n (f s ρ))⁻¹ := by
  unfold inverseFormula at run
  simp only [matrix.shaped, if_true] at run
  exact of_represents fun s => (matrix.represents s).square_inverse (M.valuation_exact exact s)
    (Reading.valuation_steady rigid s) (one s) run

end Matrices

/-- The product of two scalars less that of two others. -/
theorem minor {p q s t : Except BuildError Expr} {fp fq fs ft : Meaning K}
    (first : ∀ e, p = .ok e → Denotes M e [] Closed fp)
    (second : ∀ e, q = .ok e → Denotes M e [] Closed fq)
    (third : ∀ e, s = .ok e → Denotes M e [] Closed fs)
    (fourth : ∀ e, t = .ok e → Denotes M e [] Closed ft) (made : IsMinor p q s t r) :
    Denotes M r [] Closed fun s ρ c => fp s ρ c * fq s ρ c - fs s ρ c * ft s ρ c := by
  obtain ⟨w, x, y, z, left, right, foundp, foundq, times, founds, foundt, times', difference⟩ := made
  exact ((first w foundp).closed_product exact (second x foundq) times).scalar_sub exact
    ((third y founds).closed_product exact (fourth z foundt) times') difference

/-- The components of the cross product are minors. -/
theorem cross_formula {b : Expr} (left : Denotes M a [3] A f) (right : Denotes M b [3] B g)
    (run : a.crossFormula b = .ok r) :
    Denotes M r [3] Closed fun s ρ => vectorOf (crossAt (f s ρ) (g s ρ)) := by
  obtain ⟨checks, x, y, z, first, second, third, run⟩ := cross_formula_cases run
  have left := left.close (checks a (by simp)).2
  have right := right.close (checks b (by simp)).2
  have of_left (i : Nat) (e : Expr) (run : a.component [i] = .ok e) := left.component run
  have of_right (i : Nat) (e : Expr) (run : b.component [i] = .ok e) := right.component run
  have first := minor exact (of_left 1) (of_right 2) (of_left 2) (of_right 1) first
  have second := minor exact (of_left 2) (of_right 0) (of_left 0) (of_right 2) second
  have third := minor exact (of_left 0) (of_right 1) (of_left 1) (of_right 0) third
  have each (k : Nat) (e : Expr) (found : [x, y, z][k]? = some e) :
      Denotes M e [] Closed fun s ρ _ => crossAt (f s ρ) (g s ρ) k := by
    match k, found with
    | 0, rfl => exact first
    | 1, rfl => exact second
    | 2, rfl => exact third
  refine (vector each run).congr fun s ρ c length => ?_
  obtain ⟨i, rfl⟩ := List.length_eq_one_iff.mp length
  show (if i < 3 then _ else _) = crossAt _ _ i
  split
  · rfl
  · match i with
    | i + 3 => rfl

section Shares

/-- The share of an entry in its sum. -/
noncomputable def shareOf (M : Reading K) (s : Option Side) (ρ : Assignment) (entry : Component → K)
    (share : DiagonalShare) : K :=
  let part := M.value (fraction share.numerator share.denominator) s ρ [] *
    entry [share.place, share.place]
  if share.negative then -part else part

/-- The fractions in the diagonal of a deviatoric part are read as they are written. -/
def ReadsShares (M : Reading K) (n : Nat) : Prop :=
  ∀ row share, share ∈ deviatoricDiagonal n row → ∀ s ρ c, (share.denominator : K) *
    M.value (fraction share.numerator share.denominator) s ρ c = share.numerator

def deviatoricOf {n : Nat} (m : Matrix (Fin n) (Fin n) K) : Matrix (Fin n) (Fin n) K :=
  m - (m.trace / n) • 1

/-- What a share is worth where its fraction is read as it is written. -/
def exactShare (entry : Component → K) (share : DiagonalShare) : K :=
  let part := (share.numerator : K) / share.denominator * entry [share.place, share.place]
  if share.negative then -part else part

omit [Folding] exact in
/-- The shares in a diagonal entry make up what is left of it without the mean. -/
theorem shares_total {n : Nat} (known : n = 2 ∨ n = 3) (reads : ReadsShares M n) (row : Fin n)
    (s : Option Side) (ρ : Assignment) (entry : Component → K) :
    ((deviatoricDiagonal n row).map (shareOf M s ρ entry)).sum =
      deviatoricOf (squareOf n entry) row row := by
  -- One of the shares of the first row is one part in `n`, so that `n` is a unit.
  have unit : (n : K) ≠ 0 := by
    obtain rfl | rfl := known
    · exact left_ne_zero_of_mul_eq_one ((reads 0 ⟨false, 1, 2, 0⟩ 
        (by simp [deviatoricDiagonal]) s ρ []).trans Int.cast_one)
    · exact left_ne_zero_of_mul_eq_one ((reads 0 ⟨true, 1, 3, 2⟩ 
        (by simp [deviatoricDiagonal]) s ρ []).trans Int.cast_one)
  have parts (share : DiagonalShare) (member : share ∈ deviatoricDiagonal n row) :
      shareOf M s ρ entry share = exactShare entry share := by
    have whole : ∀ row : Fin n, ∀ share ∈ deviatoricDiagonal n row, share.denominator = n := by
      obtain rfl | rfl := known <;> decide
    have read := reads row share member s ρ []
    rw [shareOf, exactShare, eq_div_of_mul_eq (whole row share member ▸ unit) ((mul_comm _ _).trans read)]
  rw [List.map_congr_left parts]
  obtain rfl | rfl := known
  · rw [Nat.cast_ofNat] at unit
    fin_cases row <;>
      simp [deviatoricDiagonal, exactShare, deviatoricOf, Matrix.trace_fin_two, squareOf] <;>
      field_simp <;> ring
  · rw [Nat.cast_ofNat] at unit
    fin_cases row <;>
      simp [deviatoricDiagonal, exactShare, deviatoricOf, Matrix.trace_fin_three, squareOf] <;>
      field_simp <;> ring

variable {n : Nat} (matrix : Denotes M a [n, n] Closed f)

include matrix

theorem diagonal_share {share : DiagonalShare} (run : a.diagonalShare share = .ok r) :
    Denotes M r [] Closed fun s ρ _ =>
      M.value (fraction share.numerator share.denominator) s ρ [] * f s ρ [share.place, share.place] := by
  obtain ⟨entry, found, times⟩ := diagonal_share_cases run
  obtain ⟨scalar, closed⟩ := real_stored
    (.ofFloat (Float.ofInt share.numerator / Float.ofNat share.denominator))
  have part : Denotes M (fraction share.numerator share.denominator) [] Closed
      fun s ρ _ => M.value (fraction share.numerator share.denominator) s ρ [] :=
    ⟨tame_of_built (.real _), scalar, fun i d found => by simp [fraction, closed] at found,
      fun s ρ c empty => by rw [List.eq_nil_of_length_eq_zero empty]⟩
  exact part.closed_product exact (matrix.component found) times

theorem adds_shares {shares : List DiagonalShare} (start : Denotes M e [] Closed g)
    (sum : AddsShares a e shares r) :
    Denotes M r [] Closed fun s ρ c => g s ρ c + (shares.map (shareOf M s ρ (f s ρ))).sum := by
  induction sum generalizing g with
  | nil => exact start.congr fun s ρ c _ => (add_zero _).symm
  | @cons total part next r share rest made step _ ih =>
      have part := matrix.diagonal_share exact made
      have next : Denotes M next [] Closed fun s ρ c => g s ρ c + shareOf M s ρ (f s ρ) share := by
        unfold shareOf
        split at step
        · refine (start.scalar_sub exact part step).congr fun s ρ c _ => ?_
          rw [if_pos ‹_›, sub_eq_add_neg]
        · refine (start.add exact part step).congr fun s ρ c _ => ?_
          rw [if_neg ‹_›]
      refine (ih next).congr fun s ρ c _ => ?_
      rw [List.map_cons, List.sum_cons, add_assoc]

theorem diagonal_shares {first : DiagonalShare} {rest : List DiagonalShare}
    (plus : first.negative = false) (run : a.diagonalShares (first :: rest) = .ok r) :
    Denotes M r [] Closed fun s ρ _ => ((first :: rest).map (shareOf M s ρ (f s ρ))).sum := by
  obtain ⟨start, made, sum⟩ := diagonal_shares_cons run
  refine (matrix.adds_shares exact (matrix.diagonal_share exact made) sum).congr fun s ρ c _ => ?_
  rw [List.map_cons, List.sum_cons, shareOf, plus]
  rfl

/-- An entry of the deviatoric part. -/
theorem deviatoric_entry (known : n = 2 ∨ n = 3) (reads : ReadsShares M n) (i j : Fin n)
    (run : a.deviatoricEntry n i j = .ok r) :
    Denotes M r [] Closed fun s ρ _ => deviatoricOf (squareOf n (f s ρ)) i j := by
  unfold deviatoricEntry at run
  by_cases same : i = j
  · subst same
    rw [if_pos rfl] at run
    have shares : ∃ first rest, deviatoricDiagonal n i = first :: rest ∧ first.negative = false := by
      obtain rfl | rfl := known <;> fin_cases i <;> exact ⟨_, _, rfl, rfl⟩
    obtain ⟨first, rest, list, plus⟩ := shares
    rw [list] at run
    refine (matrix.diagonal_shares exact plus run).congr fun s ρ c _ => ?_
    rw [← list, shares_total known reads i s ρ (f s ρ)]
  · rw [if_neg fun equal => same (Fin.ext equal)] at run
    refine (matrix.component run).congr fun s ρ c _ => ?_
    rw [deviatoricOf, Matrix.sub_apply, Matrix.smul_apply, Matrix.one_apply_ne same, smul_zero, sub_zero]
    rfl

omit matrix in
theorem deviatoric_formula (matrix : Denotes M a [n, n] A f) (reads : ReadsShares M n)
    (run : a.deviatoricFormula = .ok r) :
    Denotes M r [n, n] Closed fun s ρ => entryOf (deviatoricOf (squareOf n (f s ρ))) := by
  obtain ⟨unindexed, m, table, known, shape, made, run⟩ := deviatoric_formula_cases run
  obtain rfl : n = m := by simpa [matrix.shaped] using shape
  have height : table.length = n := by simpa using (mapM_ok made).length_eq.symm
  -- The row at `i` holds the entries of that row.
  have line (i : Nat) (row : List Expr) (found : table[i]? = some row) :
      (List.range n).mapM (a.deviatoricEntry n i) = .ok row := by
    obtain ⟨i', place, each⟩ := mapM_get made found
    obtain ⟨_, rfl⟩ := List.getElem?_eq_some_iff.mp place
    simpa using each
  refine Denotes.square height (fun row member => ?_) (fun i j row e found inside => ?_) run
  · obtain ⟨i, found⟩ := List.mem_iff_getElem?.mp member
    simpa using (mapM_ok (line i row found)).length_eq.symm
  · obtain ⟨j', place, run⟩ := mapM_get (line i row found) inside
    obtain ⟨_, rfl⟩ := List.getElem?_eq_some_iff.mp place
    exact (matrix.close unindexed).deviatoric_entry exact known reads i j (by simpa using run)

end Shares

end FormCalculus.Denotes
