import FormCalculus.Proofs.Rebuilding
import FormCalculus.Proofs.RingValues
import FormCalculus.Proofs.Totality

/-!
Binding indices. A scalar can be made into the tensor over any different indices that are free in it,
and the tensor has the scalar along them for its components, in any commutative ring; but not where
the scalar is itself the component of a tensor along just these indices, with one of them free in that
tensor.
-/
set_option autoImplicit false

namespace FormCalculus.Expr

universe u

variable {e : Expr} {indices : List Index}

/-- The scalar is the component of a tensor along the indices, with one of them free in the tensor. -/
def LeavesFree (e : Expr) (indices : List Index) : Prop :=
  ∃ tensor shape free, e = .node .indexed [tensor, multiIndex (indices.map .free)] shape free ∧
    ∃ i ∈ indices, tensor.free.contains i = true

theorem as_tensor_bound {t : Expr} {shape : Shape} {free : FreeIndices} (typed : WellTyped e)
    (scalar : e.shape = []) (binds : Binds e.free indices shape free)
    (run : e.asTensor indices = .ok t) :
    (t.shape = shape ∧ t.free = free) ↔ ¬ e.LeavesFree indices := by
  by_cases some : indices = []
  · -- Over no indices the scalar is the tensor.
    subst some
    have none : Binds e.free [] [] e.free := ⟨rfl, .nil, nofun, by simp⟩
    obtain ⟨rfl, rfl⟩ := binds.unique none
    cases run
    refine ⟨fun _ leaves => ?_, fun _ => ⟨scalar, rfl⟩⟩
    obtain ⟨_, _, _, _, _, member, _⟩ := leaves
    cases member
  · obtain ⟨_, _, binds', type⟩ := as_tensor_type some typed run
    obtain ⟨rfl, rfl⟩ := binds.unique binds'
    exact type

/-- A scalar can be made into a tensor over any different indices that are free in it. Unless it leaves
one of them free, the tensor has their dimensions for its shape, the other indices are free in it, and
its components are the scalar with the indices at their positions. -/
theorem as_tensor_binds (made : Constructible e) (scalar : e.shape = []) (distinct : indices.Nodup)
    (known : ∀ i ∈ indices, e.free.contains i = true) :
    ∃ t shape free, e.asTensor indices = .ok t ∧ Binds e.free indices shape free ∧
      ((t.shape = shape ∧ t.free = free) ↔ ¬ e.LeavesFree indices) ∧
      (¬ e.LeavesFree indices → ∀ {R : Type u} [CommRing R] (v : RingValuation R), v.Steady → ∀ ρ c,
        c.length = indices.length → v.value t ρ c = v.value e (ρ.bindAll (indices.zip c)) []) := by
  have typed : WellTyped e := made.well_typed
  obtain ⟨shape, free, binds⟩ := FreeIndices.exists_binds distinct known
  obtain ⟨t, run⟩ := as_tensor_total scalar binds
  refine ⟨t, shape, free, run, binds, as_tensor_bound typed scalar binds run,
    fun bound R _ v steady ρ c length => v.value_as_tensor steady typed ?_ length run⟩
  intro tensor shape free same i member inside
  exact bound ⟨tensor, shape, free, same, i, member, inside⟩

section Sample

/-- A matrix field of two rows and two columns. -/
def smallSquare : Expr := .terminal (.coefficient ⟨0, .tensor [2, 2] 2⟩)

/-- Its component at a row and a column. -/
def squareEntry : Expr :=
  .node .indexed [smallSquare, multiIndex [.free ⟨0⟩, .free ⟨1⟩]] [] ⟨[(⟨0⟩, 2), (⟨1⟩, 2)], by decide⟩

/-- The row as a vector. -/
def squareRow : Expr := .node .componentTensor [squareEntry, multiIndex [.free ⟨1⟩]] [2] (.single ⟨0⟩ 2)

/-- The component of the row at the index of the row. -/
def rowDiagonal : Expr := .node .indexed [squareRow, multiIndex [.free ⟨0⟩]] [] (.single ⟨0⟩ 2)

theorem square_entry_constructible : Constructible squareEntry := by
  have run : Operator.assemble .indexed [smallSquare, multiIndex [.free ⟨0⟩, .free ⟨1⟩]] =
      .ok squareEntry := by rfl
  exact .assemble .indexed (by decide) (operands_pair (.terminal _) (.terminal _)) run

theorem square_row_constructible : Constructible squareRow := by
  have run : Operator.assemble .componentTensor [squareEntry, multiIndex [.free ⟨1⟩]] =
      .ok squareRow := by rfl
  exact .assemble .componentTensor (by decide) (operands_pair square_entry_constructible (.terminal _)) run

theorem row_diagonal_constructible : Constructible rowDiagonal := by
  have run : Operator.assemble .indexed [squareRow, multiIndex [.free ⟨0⟩]] = .ok rowDiagonal := by rfl
  exact .assemble .indexed (by decide) (operands_pair square_row_constructible (.terminal _)) run

/-- Over its second index the entry of the matrix becomes the row. Over the index of the row, the entry on
the diagonal becomes the row as well, in which that index is free. -/
theorem row_bound : (squareEntry.asTensor [⟨1⟩] = .ok squareRow ∧
      ∀ v : RingValuation ℤ, v.Steady → ∀ ρ c, c.length = 1 →
        v.value squareRow ρ c = v.value squareEntry (ρ.bindAll ([⟨1⟩].zip c)) []) ∧
    rowDiagonal.asTensor [⟨0⟩] = .ok squareRow ∧
      ¬ Binds rowDiagonal.free [⟨0⟩] squareRow.shape squareRow.free := by
  obtain ⟨t, _, _, run, _, _, value⟩ := as_tensor_binds.{0} square_entry_constructible rfl
    (List.nodup_singleton ⟨1⟩) (by decide)
  obtain ⟨t', _, _, run', binds, bound, _⟩ := as_tensor_binds.{0} row_diagonal_constructible rfl
    (List.nodup_singleton ⟨0⟩) (by decide)
  cases run
  cases run'
  refine ⟨⟨rfl, value ?_⟩, rfl, fun bound' => ?_⟩
  · rintro ⟨_, _, _, same, _⟩
    cases same
  · have types := bound'.unique binds
    exact bound.mp types ⟨squareRow, _, _, rfl, ⟨0⟩, by decide, by decide⟩

end Sample

end FormCalculus.Expr
