import FormCalculus.Proofs.EinsteinProduct
import FormCalculus.Proofs.RepresentingFormulas

/-!
Matrices without free indices, in a commutative ring: their products over an index that entries
share, their Gram matrices, columns and transposes. All but the transposes can always be built.
-/
set_option autoImplicit false

namespace FormCalculus

open Expr Denotes

namespace Expr

variable {a : Expr}

/-- What occurs once in a list is paired with one dimension only. -/
theorem zip_once {items : List IndexItem} {shape : Shape} {item : IndexItem} {d d' : Nat}
    (once : items.count item = 1) (here : (item, d) ∈ items.zip shape)
    (there : (item, d') ∈ items.zip shape) : d' = d := by
  induction items generalizing shape with
  | nil => cases once
  | cons first rest ih =>
      cases shape with
      | nil => cases here
      | cons dim shape =>
          by_cases same : first = item
          · -- The rest of the list has it no more.
            subst same
            have absent : first ∉ rest := List.count_eq_zero.mp (by simpa using once)
            have alone (e : Nat) (member : (first, e) ∈ (first :: rest).zip (dim :: shape)) : e = dim := by
              rcases List.mem_cons.mp member with same | below
              · exact congrArg Prod.snd same
              · exact absurd (List.of_mem_zip below).1 absent
            rw [alone d here, alone d' there]
          · have other (e : Nat) (member : (item, e) ∈ (first :: rest).zip (dim :: shape)) :
                (item, e) ∈ rest.zip shape := by
              rcases List.mem_cons.mp member with equal | below
              · exact absurd (congrArg Prod.fst equal).symm same
              · exact below
            rw [List.count_cons_of_ne same] at once
            exact ih once (other d here) (other d' there)

/-- A tensor without free indices can be subscripted by different indices and positions on its axes. -/
theorem index_total (items : List IndexItem) (typed : WellTyped a) (closed : a.free = ∅)
    (length : items.length = a.shape.length) (once : ∀ i, .free i ∈ items → items.count (.free i) = 1)
    (within : ∀ position dim, (.fixed position, dim) ∈ items.zip a.shape → position < dim) :
    ∃ r, a.index items = .ok r := by
  -- The dimensions of an index could only differ on two axes, and it is on one.
  obtain ⟨free, subscribes⟩ := exists_subscribes a.free length within fun i d d' here other => by
    have there := other.resolve_left (by simp [closed])
    exact zip_once (once i (List.of_mem_zip here).1) here there
  rw [index_of_once fun i inside => by simp [occurrences, once i inside, closed]]
  exact typed_subscript_total typed subscribes

end Expr

variable {R : Type*} [CommRing R]

/-- The components of a matrix, by row and column. -/
def tableOf (entry : Nat → Nat → R) (c : Component) : R := entry (c.getD 0 0) (c.getD 1 0)

/-- Products of the columns of a matrix of `m` rows. -/
def gramOf (m : Nat) (entry : Component → R) : Component → R :=
  tableOf fun i j => ∑ k ∈ Finset.range m, entry [k, i] * entry [k, j]

theorem gram_entries (m n : Nat) (entry : Component → R) :
    (Matrix.of fun i j : Fin n => gramOf m entry [(i : Nat), (j : Nat)]) =
      (Matrix.of fun (i : Fin m) (j : Fin n) => entry [(i : Nat), (j : Nat)]).transpose *
        Matrix.of fun (i : Fin m) (j : Fin n) => entry [(i : Nat), (j : Nat)] := by
  ext i j
  rw [Matrix.mul_apply]
  exact (Fin.sum_univ_eq_sum_range (fun k => entry [k, i] * entry [k, j]) m).symm

/-- Three indices taken in a row are different. -/
theorem Fresh.three_indices {ε α : Type} {next : Index → Index → Index → Fresh ε α} {r : α}
    {supply after : Supply}
    (run : (do
      let i ← Fresh.newIndex
      let j ← Fresh.newIndex
      let k ← Fresh.newIndex
      next i j k) supply = .ok (r, after)) :
    ∃ i j k later, [i, j, k].Nodup ∧ next i j k later = .ok (r, after) := by
  simp only [Fresh.bind_ok, Fresh.new_index_ok] at run
  obtain ⟨_, _, ⟨rfl, rfl⟩, _, _, ⟨rfl, rfl⟩, _, _, ⟨rfl, rfl⟩, run⟩ := run
  exact ⟨_, _, _, _, Fresh.next_indices_distinct supply 3, run⟩

namespace Represents

variable {P : Expr → Prop} [kept : KeptByBuilding P] {v : RingValuation R} {a r : Expr}
  {m n p : Nat} {g : Component → R} {supply after : Supply}

/-- The component of a matrix at two indices. -/
theorem at_pair {i j : Index} (matrix : Represents P v a [m, n] Closed fun _ => g) (distinct : i ≠ j)
    (run : a.indexBy [i, j] = .ok r) :
    r.free.dim? i = some m ∧ r.free.dim? j = some n ∧
      Represents P v r [] (fun x d => x = i ∧ d = m ∨ x = j ∧ d = n) fun ρ _ => g [ρ i, ρ j] := by
  have fresh : FreshFor Closed [i, j] := ⟨by simpa using distinct, nofun⟩
  obtain ⟨_, indexed, entry⟩ := matrix.index_by fresh run
  refine ⟨indexed i m (by simp), indexed j n (by simp), entry.weaken fun x d known => ?_⟩
  simpa using known.resolve_left id

/-- A column of a matrix, at an index. -/
theorem column_at {j : Nat} {k : Index} (matrix : Represents P v a [m, n] Closed fun _ => g)
    (run : a.index [.free k, .fixed j] = .ok r) : r.free.dim? k = some m ∧
      Represents P v r [] (fun x d => x = k ∧ d = m) fun ρ _ => g [ρ k, j] := by
  have once : a.subscript [.free k, .fixed j] = .ok r := by
    refine index_once (fun i inside => ?_) run
    obtain rfl : i = k := by simpa using inside
    simp [occurrences, matrix.closed_free]
  obtain ⟨indexed, entry⟩ := matrix.subscript_fresh (fun _ _ _ => id) once
  refine ⟨indexed k m (by simp), entry.weaken fun x d known => ?_⟩
  simpa using known.resolve_left id

theorem column_total (matrix : Represents P v a [m, n] Closed fun _ => g) {j : Nat} (inside : j < n)
    (supply : Supply) : ∃ k column, a.columnAt j supply =
        .ok ((k, column), { supply with index := supply.index + 1 }) ∧
      column.free.dim? k = some m ∧
        Represents P v column [] (fun x d => x = k ∧ d = m) fun ρ _ => g [ρ k, j] := by
  obtain ⟨column, run⟩ := index_total [.free ⟨supply.index⟩, .fixed j] matrix.typed
    matrix.closed_free (by simp [matrix.shaped]) (by simp) (by simp [matrix.shaped, inside])
  refine ⟨⟨supply.index⟩, column, ?_, matrix.column_at run⟩
  simp only [columnAt, Fresh.bind_ok, Fresh.new_index_ok, Fresh.lift_ok, Fresh.pure_ok]
  exact ⟨_, _, ⟨rfl, rfl⟩, column, _, ⟨run, rfl⟩, rfl, rfl⟩

theorem pair_total {i j : Index} (matrix : Represents P v a [m, n] Closed fun _ => g)
    (distinct : i ≠ j) :
    ∃ entry, a.indexBy [i, j] = .ok entry ∧ entry.free.dim? i = some m ∧ entry.free.dim? j = some n ∧
      Represents P v entry [] (fun x d => x = i ∧ d = m ∨ x = j ∧ d = n) fun ρ _ => g [ρ i, ρ j] := by
  have different : ¬ j = i := fun same => distinct same.symm
  obtain ⟨entry, run⟩ := index_total [.free i, .free j] matrix.typed matrix.closed_free
    (by simp [matrix.shaped]) (by simp [distinct, different]) (by simp [matrix.shaped])
  exact ⟨entry, run, matrix.at_pair distinct run⟩

section Vectors

variable {e : Expr} {f : Nat → R}

/-- The tensor over an index of a scalar in which it alone is free. -/
theorem vector_over (steady : v.Steady) {k : Index}
    (component : Represents P v e [] (fun x d => x = k ∧ d = m) fun ρ _ => f (ρ k))
    (found : e.free.dim? k = some m) :
    ∃ r, e.asTensor [k] = .ok r ∧ Represents P v r [m] Closed fun _ c => f (c.headD 0) := by
  have known : ∀ i ∈ [k], e.free.contains i = true :=
    List.forall_mem_singleton.mpr (FreeIndices.contains_iff.mpr ⟨m, found⟩)
  obtain ⟨_, _, binds⟩ := FreeIndices.exists_binds (List.nodup_singleton k) known
  obtain ⟨r, run⟩ := as_tensor_total component.shaped binds
  have fresh : FreshFor Closed [k] := ⟨List.nodup_singleton k, nofun⟩
  refine ⟨r, run, (over_fresh steady fresh (component.weaken fun x d known => ?_) rfl run).congr
    fun ρ c length => ?_⟩
  · exact .inr (by simpa using known)
  · obtain ⟨z, rfl⟩ := List.length_eq_one_iff.mp length
    exact congrArg f (Assignment.bind_same ρ k z)

theorem at_index_total (vector : Represents P v a [m] Closed fun _ c => f (c.headD 0)) (k : Index) :
    ∃ entry, a.indexBy [k] = .ok entry ∧ entry.free.dim? k = some m ∧
      Represents P v entry [] (fun x d => x = k ∧ d = m) fun ρ _ => f (ρ k) := by
  obtain ⟨entry, run⟩ := index_total [.free k] vector.typed vector.closed_free
    (by simp [vector.shaped]) (by simp) (by simp [vector.shaped])
  obtain ⟨_, indexed, component⟩ := vector.index_by ⟨List.nodup_singleton k, nofun⟩ run
  refine ⟨entry, run, indexed k m (by simp), component.weaken fun x d known => ?_⟩
  simpa using known.resolve_left id

end Vectors

variable [Folding] (exact : v.Exact) (steady : v.Steady)

include exact steady

/-- The product of two matrices over an index that their entries share. -/
theorem matrix_product {i j k : Index} {left right product : Expr} {G H : Nat → Nat → R}
    (distinct : [i, j, k].Nodup)
    (first : Represents P v left [] (fun x d => x = i ∧ d = n ∨ x = k ∧ d = m)
      fun ρ _ => G (ρ i) (ρ k))
    (second : Represents P v right [] (fun x d => x = k ∧ d = m ∨ x = j ∧ d = p)
      fun ρ _ => H (ρ k) (ρ j))
    (found : left.free.dim? k = some m) (known : right.free.contains k = true)
    (times : left.contractedProduct right = .ok product) (run : product.asTensor [i, j] = .ok r) :
    Represents P v r [n, p] Closed fun _ =>
      tableOf fun x y => ∑ z ∈ Finset.range m, G x z * H z y := by
  obtain ⟨ij, ik, jk⟩ : i ≠ j ∧ i ≠ k ∧ j ≠ k := by simpa [and_assoc] using distinct
  have total := first.product_along exact second found known
    (fun x d d' here there => by
      rcases here with ⟨rfl, _⟩ | ⟨rfl, _⟩
      · rcases there with ⟨same, _⟩ | ⟨same, _⟩
        · exact absurd same ik
        · exact absurd same ij
      · rfl)
    (fun d here => by simpa [ik.symm, jk.symm] using here) times
  have fresh : FreshFor Closed [i, j] := ⟨by simpa using ij, nofun⟩
  -- Summed over the shared index, only those of the row and the column can be free.
  have free (x : Index) (d : Nat) (here : x ≠ k ∧ ((x = i ∧ d = n ∨ x = k ∧ d = m) ∨
      (x = k ∧ d = m ∨ x = j ∧ d = p))) : Closed x d ∨ (x, d) ∈ [i, j].zip [n, p] := by
    obtain ⟨other, (here | ⟨same, _⟩) | (⟨same, _⟩ | here)⟩ := here
    · simp [here]
    · exact absurd same other
    · exact absurd same other
    · simp [here]
  have scalar := (total.weaken free).congr (g := fun ρ _ => ∑ z ∈ Finset.range m, G (ρ i) z * H z (ρ j))
    fun ρ c _ => Finset.sum_congr rfl fun z _ => by
      rw [Assignment.bind_same, Assignment.bind_other ik, Assignment.bind_other jk]
  refine (scalar.over_fresh steady fresh rfl run).congr fun ρ c length => ?_
  obtain ⟨x, y, rfl⟩ := List.length_eq_two.mp length
  obtain ⟨row, column⟩ := bind_pair ρ fresh.distinct x y
  rw [row, column]
  rfl

omit kept exact steady in
/-- Entries that share an index and no other can be multiplied over it, to a matrix by the others. -/
theorem matrix_product_total {i j k : Index} {left right : Expr} {G H : Assignment → Component → R}
    (distinct : [i, j, k].Nodup)
    (first : Represents P v left [] (fun x d => x = i ∧ d = n ∨ x = k ∧ d = m) G)
    (second : Represents P v right [] (fun x d => x = k ∧ d = m ∨ x = j ∧ d = p) H)
    (row : left.free.dim? i = some n) (column : right.free.dim? j = some p) :
    ∃ product r, left.contractedProduct right = .ok product ∧ product.asTensor [i, j] = .ok r := by
  obtain ⟨ij, ik, jk⟩ : i ≠ j ∧ i ≠ k ∧ j ≠ k := by simpa [and_assoc] using distinct
  have apart : ¬ right.free.contains i = true := fun known => by
    obtain ⟨d, found⟩ := FreeIndices.contains_iff.mp known
    exact (second.free i d found).elim (fun there => ik there.1) fun there => ij there.1
  have apart' : ¬ left.free.contains j = true := fun known => by
    obtain ⟨d, found⟩ := FreeIndices.contains_iff.mp known
    exact (first.free j d found).elim (fun here => ij here.1.symm) fun here => jk here.1
  obtain ⟨product, times⟩ := contracted_product_total first.shaped second.shaped fun x d d' here there => by
    rcases first.free x d here with ⟨rfl, _⟩ | ⟨rfl, rfl⟩
    · exact absurd (FreeIndices.contains_iff.mpr ⟨d', there⟩) apart
    · exact (second.free _ d' there).elim (fun there => there.2.symm) fun there => absurd there.1.symm jk
  -- The two indices that are not shared stay free, to be bound to rows and columns.
  obtain ⟨scalar, dims⟩ := contracted_product_type times
  have rows : product.free.contains i = true :=
    FreeIndices.contains_iff.mpr ⟨n, (dims i n).mpr ⟨fun both => apart both.2, .inl row⟩⟩
  have columns : product.free.contains j = true :=
    FreeIndices.contains_iff.mpr ⟨p, (dims j p).mpr ⟨fun both => apart' both.1, .inr column⟩⟩
  have known : ∀ x ∈ [i, j], product.free.contains x = true := by simp [rows, columns]
  obtain ⟨_, _, binds⟩ := FreeIndices.exists_binds (by simpa using ij) known
  obtain ⟨r, run⟩ := as_tensor_total scalar binds
  exact ⟨product, r, times, run⟩

theorem gram_matrix (matrix : Represents P v a [m, n] Closed fun _ => g)
    (run : a.gramMatrix supply = .ok (r, after)) :
    Represents P v r [n, n] Closed fun _ => gramOf m g := by
  obtain ⟨i, j, k, _, distinct, run⟩ := Fresh.three_indices run
  obtain ⟨_, ik, jk⟩ : i ≠ j ∧ i ≠ k ∧ j ≠ k := by simpa [and_assoc] using distinct
  simp only [Fresh.bind_ok, Fresh.lift_ok] at run
  obtain ⟨left, _, ⟨first, _⟩, right, _, ⟨second, _⟩, product, _, ⟨times, _⟩, last, _⟩ := run
  obtain ⟨found, _, left⟩ := matrix.at_pair ik.symm first
  obtain ⟨known, _, right⟩ := matrix.at_pair jk.symm second
  exact matrix_product exact steady distinct (left.weaken fun x d => Or.symm) right found
    (FreeIndices.contains_iff.mpr ⟨m, known⟩) times last

theorem gram_total (matrix : Represents P v a [m, n] Closed fun _ => g) (supply : Supply) :
    ∃ r after, a.gramMatrix supply = .ok (r, after) ∧
      Represents P v r [n, n] Closed fun _ => gramOf m g := by
  let i : Index := ⟨supply.index⟩
  let j : Index := ⟨supply.index + 1⟩
  let k : Index := ⟨supply.index + 1 + 1⟩
  have distinct : [i, j, k].Nodup := Fresh.next_indices_distinct supply 3
  obtain ⟨_, ik, jk⟩ : i ≠ j ∧ i ≠ k ∧ j ≠ k := by simpa [and_assoc] using distinct
  obtain ⟨left, first, _, row, left_represents⟩ := matrix.pair_total ik.symm
  obtain ⟨right, second, _, column, right_represents⟩ := matrix.pair_total jk.symm
  obtain ⟨product, r, times, last⟩ := matrix_product_total distinct
    (left_represents.weaken fun x d => Or.symm) right_represents row column
  have run : a.gramMatrix supply = .ok (r, { supply with index := supply.index + 1 + 1 + 1 }) := by
    simp only [gramMatrix, Fresh.bind_ok, Fresh.new_index_ok, Fresh.lift_ok]
    exact ⟨i, _, ⟨rfl, rfl⟩, j, _, ⟨rfl, rfl⟩, k, _, ⟨rfl, rfl⟩, left, _, ⟨first, rfl⟩, right, _,
      ⟨second, rfl⟩, product, _, ⟨times, rfl⟩, last, rfl⟩
  exact ⟨r, _, run, matrix.gram_matrix exact steady run⟩

omit steady in
/-- The square of the length of a vector, given by its component at an index. -/
theorem length_square {k : Index} {entry : Expr} {f : Nat → R}
    (component : Represents P v entry [] (fun x d => x = k ∧ d = m) fun ρ _ => f (ρ k))
    (found : entry.free.dim? k = some m) (times : entry.contractedProduct entry = .ok r) :
    Represents P v r [] Closed fun _ _ => ∑ z ∈ Finset.range m, f z * f z := by
  have total := component.product_along exact component found (FreeIndices.contains_iff.mpr ⟨m, found⟩)
    (fun x d d' here _ => here.1) (fun d here => here.elim And.right And.right) times
  refine (total.weaken fun x d known => ?_).congr fun ρ c _ => ?_
  · exact known.1 (known.2.elim And.left And.left)
  · exact Finset.sum_congr rfl fun z _ => by rw [Assignment.bind_same]

omit steady in
theorem length_total {k : Index} {e : Expr} {f : Nat → R}
    (component : Represents P v e [] (fun x d => x = k ∧ d = m) fun ρ _ => f (ρ k))
    (found : e.free.dim? k = some m) :
    ∃ r, e.contractedProduct e = .ok r ∧
      Represents P v r [] Closed fun _ _ => ∑ z ∈ Finset.range m, f z * f z := by
  obtain ⟨r, run⟩ := contracted_product_total component.shaped component.shaped fun i d d' here here' =>
    Option.some.inj (here.symm.trans here')
  exact ⟨r, run, component.length_square exact found run⟩

omit steady in
/-- The square of the length of a single column. -/
theorem column_square {k : Index} {column : Expr} (matrix : Represents P v a [m, 1] Closed fun _ => g)
    (run : a.index [.free k, .fixed 0] = .ok column) (times : column.contractedProduct column = .ok r) :
    Represents P v r [] Closed fun _ _ => gramOf m g [0, 0] := by
  obtain ⟨found, entry⟩ := matrix.column_at run
  exact entry.length_square (f := fun z => g [z, 0]) exact found times

omit [Folding] exact in
theorem transposed {i j : Index} {entry : Expr} (matrix : Represents P v a [m, n] Closed fun _ => g)
    (distinct : i ≠ j) (first : a.indexBy [i, j] = .ok entry) (run : entry.asTensor [j, i] = .ok r) :
    Represents P v r [n, m] Closed fun _ => tableOf fun x y => g [y, x] := by
  obtain ⟨_, _, entry⟩ := matrix.at_pair distinct first
  have fresh : FreshFor Closed [j, i] := ⟨by simpa using distinct.symm, nofun⟩
  have scalar := entry.weaken (B := fun x d => Closed x d ∨ (x, d) ∈ [j, i].zip [n, m])
    fun x d known => .inr (by simpa [or_comm] using known)
  refine (scalar.over_fresh steady fresh rfl run).congr fun ρ c length => ?_
  obtain ⟨x, y, rfl⟩ := List.length_eq_two.mp length
  obtain ⟨column, row⟩ := bind_pair ρ fresh.distinct x y
  rw [row, column]
  rfl

end Represents

end FormCalculus
