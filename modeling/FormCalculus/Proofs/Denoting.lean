import FormCalculus.Proofs.ReadingBuild
import FormCalculus.Proofs.Representing

/-!
What the constructors make of tame expressions of which the shape, the free indices and the value
are known: one statement for each of them, to be put together along a construction.
-/
set_option autoImplicit false

namespace FormCalculus

open Expr

variable {K : Type} [Field K]

/-- A tame expression of the given shape and value, in which at most the given indices are free. -/
structure Denotes (M : Reading K) (e : Expr) (shape : Shape) (dims : Index → Nat → Prop)
    (f : Meaning K) : Prop where
  tame : Tame e
  shaped : e.shape = shape
  free : ∀ i d, e.free.dim? i = some d → dims i d
  value : ∀ s ρ c, c.length = shape.length → M.value e s ρ c = f s ρ c

namespace Denotes

variable {M : Reading K} {a b r : Expr} {shape : Shape} {A B : Index → Nat → Prop}
  {f g : Meaning K}

theorem represents (a_denotes : Denotes M a shape A f) (s : Option Side) :
    Represents Tame (M.valuation s).toRing a shape A (f s) :=
  ⟨a_denotes.tame, a_denotes.tame.fairly_subscripted, a_denotes.shaped, a_denotes.free,
    a_denotes.value s⟩

theorem of_represents (each : ∀ s, Represents Tame (M.valuation s).toRing a shape A (f s)) :
    Denotes M a shape A f :=
  ⟨(each none).good, (each none).shaped, (each none).free, fun s => (each s).value⟩

theorem weaken (a_denotes : Denotes M a shape A f) (more : ∀ i d, A i d → B i d) :
    Denotes M a shape B f :=
  { a_denotes with free := fun i d found => more i d (a_denotes.free i d found) }

theorem congr (a_denotes : Denotes M a shape A f)
    (same : ∀ s ρ c, c.length = shape.length → f s ρ c = g s ρ c) : Denotes M a shape A g :=
  { a_denotes with value := fun s ρ c length => (a_denotes.value s ρ c length).trans (same s ρ c length) }

theorem close (tensor : Denotes M a shape A f) (none : a.free = ∅) : Denotes M a shape Closed f :=
  { tensor with free := fun i d found => by simp [none] at found }

theorem self (tame : Tame a) :
    Denotes M a a.shape (fun i d => a.free.dim? i = some d) (M.value a) :=
  ⟨tame, rfl, fun _ _ found => found, fun _ _ _ _ => rfl⟩

section Arithmetic

variable [Folding] (exact : M.Exact)

include exact

theorem add (left : Denotes M a shape A f) (right : Denotes M b shape A g) (run : a.add b = .ok r) :
    Denotes M r shape A fun s ρ c => f s ρ c + g s ρ c :=
  of_represents fun s =>
    (left.represents s).add (M.valuation_exact exact s).ring (right.represents s) run

theorem scalar_product (left : Denotes M a [] A f) (right : Denotes M b [] B g)
    (run : a.scalarProduct b = .ok r) :
    Denotes M r [] (fun i d => A i d ∨ B i d) fun s ρ c => f s ρ c * g s ρ c :=
  of_represents fun s =>
    (left.represents s).scalar_product (M.valuation_exact exact s).ring (right.represents s) run

theorem scalar_quotient (left : Denotes M a [] A f) (right : Denotes M b [] B g)
    (run : a.scalarQuotient b = .ok r) :
    Denotes M r [] (fun i d => A i d ∨ B i d) fun s ρ c => f s ρ c / g s ρ c :=
  of_represents fun s =>
    (left.represents s).scalar_quotient (M.valuation_exact exact s) (right.represents s) run

theorem pow (base : Denotes M a [] A f) (exponent : Denotes M b [] B g) (run : a.pow b = .ok r) :
    Denotes M r [] A fun s ρ c => M.pow (f s ρ c) (g s ρ c) := by
  have stored : r.shape = [] ∧ ∀ i d, r.free.dim? i = some d → A i d := by
    obtain ⟨_, _, _, ⟨_, rfl⟩ | folded | rfl⟩ := pow_cases run
    · exact ⟨base.shaped, base.free⟩
    · obtain ⟨_, scalar, closed⟩ := fold_stored folded
      exact ⟨scalar, fun i d found => by simp [closed] at found⟩
    · exact ⟨rfl, base.free⟩
  refine ⟨tame_of_built (.pow nofun (.given base.tame) (.given exponent.tame) run), stored.1, stored.2,
    fun s ρ c length => ?_⟩
  rw [M.value_pow exact run, base.value s ρ c length, exponent.value s ρ c length]

theorem sqrt (operand : Denotes M a [] A f) (run : a.sqrt = .ok r) :
    Denotes M r [] A fun s ρ c => M.sqrt (f s ρ c) := by
  have stored : r.shape = [] ∧ ∀ i d, r.free.dim? i = some d → A i d := by
    obtain ⟨_, ⟨_, rfl⟩ | folded | rfl⟩ := sqrt_cases run
    · exact ⟨operand.shaped, operand.free⟩
    · obtain ⟨_, z, _, _, rfl⟩ := fold_root_some folded
      obtain ⟨scalar, closed⟩ := to_expr_stored z
      exact ⟨scalar, fun i d found => by simp [closed] at found⟩
    · exact ⟨rfl, operand.free⟩
  refine ⟨tame_of_built (.sqrt nofun (.given operand.tame) run), stored.1, stored.2,
    fun s ρ c length => ?_⟩
  rw [M.value_sqrt exact run, operand.value s ρ c length]

end Arithmetic

section Indexing

theorem subscript {items : List IndexItem} (tensor : Denotes M a shape A f)
    (fresh : ∀ i d, .free i ∈ items → ¬ A i d) (run : a.subscript items = .ok r) :
    items.length = shape.length ∧
      Denotes M r [] (fun i d => A i d ∨ (.free i, d) ∈ items.zip shape)
        fun s ρ _ => f s ρ (items.map (IndexItem.position ρ)) := by
  have tame : Tame r := KeptByBuilding.subscript tensor.tame (fun i inside known => by
    obtain ⟨d, found⟩ := FreeIndices.contains_iff.mp known
    exact fresh i d inside (tensor.free i d found)) run
  have fair := tame.fairly_subscripted
  exact ⟨((tensor.represents none).subscript fresh fair run).1,
    of_represents fun s => ((tensor.represents s).subscript fresh fair run).2⟩

theorem component {position : Component} (tensor : Denotes M a shape A f)
    (run : a.component position = .ok r) : Denotes M r [] A fun s ρ _ => f s ρ position := by
  obtain ⟨_, entry⟩ := tensor.subscript (fun i d inside => by simp at inside) run
  refine (entry.weaken fun i d known => known.resolve_right fun inside => ?_).congr fun s ρ c _ => ?_
  · simpa using (List.of_mem_zip inside).1
  · rw [List.map_map]
    exact congrArg _ (List.map_id position)

theorem index_sum {i : Index} {d : Nat} (summand : Denotes M a [] A f) (dim : ∀ d', A i d' → d' = d)
    (run : a.indexSum i = .ok r) :
    Denotes M r [] (fun j d => j ≠ i ∧ A j d)
      fun s ρ c => ∑ position ∈ Finset.range d, f s (ρ.bind i position) c :=
  of_represents fun s => (summand.represents s).index_sum dim run

theorem index_by {indices : List Index} (tensor : Denotes M a shape A f) (fresh : FreshFor A indices)
    (run : a.indexBy indices = .ok r) :
    indices.length = shape.length ∧ (∀ i d, (i, d) ∈ indices.zip shape → r.free.dim? i = some d) ∧
      Denotes M r [] (fun i d => A i d ∨ (i, d) ∈ indices.zip shape)
        fun s ρ _ => f s ρ (indices.map ρ) := by
  obtain ⟨length, indexed, _⟩ := (tensor.represents none).index_by fresh run
  exact ⟨length, indexed, of_represents fun s => ((tensor.represents s).index_by fresh run).2.2⟩

end Indexing

section Products

theorem int (value : Int64) : Denotes M (int value) [] Closed fun _ _ _ => (value.toInt : K) := by
  obtain ⟨scalar, closed⟩ := int_stored value
  exact ⟨tame_of_built (.int value), scalar, fun i d found => by simp [closed] at found,
    fun s ρ c _ => M.value_int value⟩

variable [Folding] (exact : M.Exact)

include exact

/-- A product sums over the indices that are free in both factors. -/
theorem contracted_product (left : Denotes M a [] A f) (right : Denotes M b [] B g)
    (entries : List (Index × Nat))
    (increasing : entries.Pairwise fun a b => a.1.number < b.1.number)
    (shared : ∀ i d, (i, d) ∈ entries → a.free.dim? i = some d ∧ b.free.contains i = true)
    (only : ∀ i d d', A i d → B i d' → (i, d) ∈ entries)
    (dims : ∀ i d d', (i, d) ∈ entries → A i d' ∨ B i d' → d' = d)
    (run : a.contractedProduct b = .ok r) :
    Denotes M r [] (fun i d => i ∉ entries.map Prod.fst ∧ (A i d ∨ B i d)) fun s ρ c =>
      sumOver (entries.map Prod.snd) fun k =>
        f s (ρ.bindAll ((entries.map Prod.fst).zip k)) c *
          g s (ρ.bindAll ((entries.map Prod.fst).zip k)) c :=
  of_represents fun s => (left.represents s).contracted_product
    (M.valuation_exact exact s) (right.represents s) entries increasing shared only dims run

theorem product_apart (left : Denotes M a [] A f) (right : Denotes M b [] B g)
    (apart : ∀ i d d', A i d → ¬ B i d') (run : a.contractedProduct b = .ok r) :
    Denotes M r [] (fun i d => A i d ∨ B i d) fun s ρ c => f s ρ c * g s ρ c := by
  have product := left.contracted_product exact right [] .nil nofun
    (fun i d d' known known' => (apart i d d' known known').elim) nofun run
  exact product.weaken fun i d known => known.2

theorem closed_product (left : Denotes M a [] Closed f) (right : Denotes M b [] Closed g)
    (run : a.contractedProduct b = .ok r) :
    Denotes M r [] Closed fun s ρ c => f s ρ c * g s ρ c :=
  (left.product_apart exact right (fun _ _ _ known => known.elim) run).weaken
    fun _ _ known => known.elim id id

theorem scalar_neg (operand : Denotes M a [] A f) (run : a.scalarNeg = .ok r) :
    Denotes M r [] A fun s ρ c => -f s ρ c := by
  have product := (int (-1)).product_apart exact operand (fun _ _ _ known => known.elim) run
  refine (product.weaken fun _ _ known => known.resolve_left id).congr fun s ρ c _ => ?_
  have minus : ((-1 : Int64).toInt : K) = -1 := by
    show ((-1 : Int) : K) = -1
    rw [Int.cast_neg, Int.cast_one]
  rw [minus, neg_one_mul]

theorem scalar_sub (left : Denotes M a [] A f) (right : Denotes M b [] A g)
    (run : a.scalarSub b = .ok r) : Denotes M r [] A fun s ρ c => f s ρ c - g s ρ c := by
  obtain ⟨negated, first, sum⟩ := (except_bind_ok _ _ _).mp run
  exact (left.add exact (right.scalar_neg exact first) sum).congr fun s ρ c _ => (sub_eq_add_neg _ _).symm

end Products

section Tensors

/-- Assignments that agree on what may be free give one value. -/
theorem steady {s : Option Side} {ρ ρ' : Assignment} {c : Component} (tensor : Denotes M a shape A f)
    (rigid : M.Rigid) (agree : ∀ i d, A i d → ρ i = ρ' i) (length : c.length = shape.length) :
    f s ρ c = f s ρ' c :=
  (tensor.represents s).steady (Reading.valuation_steady rigid s) agree length

/-- The tensor over indices has the scalar along them as its components. -/
theorem as_tensor {indices : List Index} (rigid : M.Rigid) (scalar : Denotes M a [] A f)
    (length : indices.length = shape.length)
    (dims : ∀ i d d', (i, d) ∈ indices.zip shape → A i d' → d = d')
    (run : a.asTensor indices = .ok r) :
    Denotes M r shape (fun i d => i ∉ indices ∧ A i d) fun s ρ c =>
      f s (ρ.bindAll (indices.zip c)) [] :=
  of_represents fun s => (scalar.represents s).as_tensor (Reading.valuation_steady rigid s) length dims run

/-- The tensor over fresh indices of a scalar with nothing else in it but these. -/
theorem over_fresh {indices : List Index} (rigid : M.Rigid) (fresh : FreshFor A indices)
    (scalar : Denotes M a [] (fun i d => A i d ∨ (i, d) ∈ indices.zip shape) f)
    (length : indices.length = shape.length) (run : a.asTensor indices = .ok r) :
    Denotes M r shape A fun s ρ c => f s (ρ.bindAll (indices.zip c)) [] :=
  of_represents fun s => (scalar.represents s).over_fresh (Reading.valuation_steady rigid s) fresh length run

/-- Fresh indices bound to a component change nothing else. -/
theorem fresh_steady {indices : List Index} {s : Option Side} {ρ : Assignment} {c k : Component}
    (rigid : M.Rigid) (fresh : FreshFor A indices) (tensor : Denotes M a shape A f)
    (length : k.length = shape.length) : f s (ρ.bindAll (indices.zip c)) k = f s ρ k :=
  (tensor.represents s).fresh_steady (Reading.valuation_steady rigid s) fresh length

theorem list_tensor {entries : List Expr} {entry : Nat → Meaning K}
    (each : ∀ k e, entries[k]? = some e → Denotes M e shape A (entry k))
    (run : listTensor entries = .ok r) :
    Denotes M r (entries.length :: shape) A fun s ρ =>
      Represents.stackOf entries.length fun k => entry k s ρ :=
  of_represents fun s => Represents.list_tensor (fun k e found => (each k e found).represents s) run

theorem vector {entries : List Expr} {entry : Nat → Meaning K}
    (each : ∀ k e, entries[k]? = some e → Denotes M e [] A (entry k))
    (run : vector entries = .ok r) :
    Denotes M r [entries.length] A fun s ρ =>
      vectorOf fun k => if k < entries.length then entry k s ρ [] else 0 :=
  of_represents fun s => Represents.vector (fun k e found => (each k e found).represents s) run

theorem square {rows : List (List Expr)} {n : Nat}
    {m : Option Side → Assignment → Matrix (Fin n) (Fin n) K} (height : rows.length = n)
    (widths : ∀ row ∈ rows, row.length = n)
    (each : ∀ (i j : Fin n) row e, rows[(i : Nat)]? = some row → row[(j : Nat)]? = some e →
      Denotes M e [] A fun s ρ _ => m s ρ i j) (run : Expr.matrix rows = .ok r) :
    Denotes M r [n, n] A fun s ρ => entryOf (m s ρ) :=
  of_represents fun s => Represents.square height widths
    (fun i j row e found inside => (each i j row e found inside).represents s) run

/-- Along its diagonal a tensor is summed. -/
theorem diagonal {i : Index} {n : Nat} (rigid : M.Rigid) (tensor : Denotes M a [n, n] A f)
    (absent : ∀ d, ¬ A i d) (run : a.indexBy [i, i] = .ok r) :
    Denotes M r [] A fun s ρ _ => ∑ k ∈ Finset.range n, f s ρ [k, k] := by
  have fixed : a.free.contains i = false := by
    refine Bool.eq_false_iff.mpr fun known => ?_
    obtain ⟨d, found⟩ := FreeIndices.contains_iff.mp known
    exact absent d (tensor.free i d found)
  have twice : a.occurrences [.free i, .free i] i = 2 := by
    simp [occurrences, fixed]
  have indices : subscriptIndices [.free i, .free i] = [i] := by
    simp [subscriptIndices, IndexItem.free?, placeIndex]
  unfold indexBy Expr.index at run
  simp only [List.map_cons, List.map_nil, indices] at run
  rw [List.find?_singleton, twice] at run
  simp only [Nat.lt_irrefl, decide_false, Bool.false_eq_true, if_false, List.filter_cons, twice,
    decide_true, if_true, List.filter_nil] at run
  obtain ⟨component, first, sums⟩ := (except_bind_ok _ _ _).mp run
  obtain ⟨once, sum, last⟩ := index_sums_cons sums
  cases last
  obtain ⟨_, entry⟩ := tensor.subscript (fun j d inside => by
    have same : j = i := by simpa using inside
    exact same ▸ absent d) first
  have total := entry.index_sum (d := n) (fun d known => by simpa [absent] using known) sum
  refine (total.weaken fun j d known => ?_).congr fun s ρ c _ => ?_
  · simpa [known.1] using known.2
  · refine Finset.sum_congr rfl fun k _ => ?_
    show f s (ρ.bind i k) [ρ.bind i k i, ρ.bind i k i] = f s ρ [k, k]
    rw [Assignment.bind_same]
    refine tensor.steady rigid (fun j d known => Assignment.bind_other (fun same => ?_) k) rfl
    exact absent d (same ▸ known)

end Tensors

end Denotes

end FormCalculus
