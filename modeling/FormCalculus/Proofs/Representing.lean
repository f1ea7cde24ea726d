import FormCalculus.Proofs.Constructible
import FormCalculus.Proofs.FreshIndices
import FormCalculus.Proofs.Rebuilding
import FormCalculus.Proofs.TensorValues

/-!
What the constructors make of expressions of which the shape, the free indices and the value are
known, under a valuation in a commutative ring, for quotients in a field: one statement for each of
them, to be put together along a construction. Below an expression there may be labels and subscripts
of any kind.
-/
set_option autoImplicit false

namespace FormCalculus

open Expr Denotes

namespace Expr

/-- The expression is no tensor subscripted by an index that is free in the tensor. -/
def FairlySubscripted (e : Expr) : Prop :=
  ∀ tensor items shape free, e = .node .indexed [tensor, multiIndex items] shape free →
    ∀ i, .free i ∈ items → ¬ tensor.free.contains i = true

variable {e r : Expr}

theorem fair_of_kind (other : e.kind ≠ .indexed) : FairlySubscripted e :=
  fun _ _ _ _ same => absurd (same ▸ rfl) other

theorem Tame.fairly_subscripted (tame : Tame e) : FairlySubscripted e := by
  rintro _ _ _ _ rfl
  exact tame.fair _ _ _ _ (.refl _)

theorem fair_of_tensor (typed : WellTyped e) (tensor : e.shape ≠ []) : FairlySubscripted e := by
  rintro _ _ _ _ rfl
  obtain _ | ⟨types, _⟩ := typed
  cases types
  exact absurd rfl tensor

/-- Where nothing is free, nothing is subscripted by a free index. -/
theorem fair_of_closed (typed : WellTyped e) (closed : e.free = ∅) : FairlySubscripted e := by
  rintro tensor items shape free rfl i inside
  obtain _ | ⟨types, _⟩ := typed
  cases types with
  | indexed _ subscribed =>
      obtain ⟨dim, pair⟩ := partner_right subscribed.length inside
      have known : free.dim? i = some dim := (subscribed.dims i dim).mpr (.inr pair)
      rw [show free = ∅ from closed] at known
      cases known

end Expr

variable {R : Type*} [CommRing R]

/-- An expression with the property, of the given shape and value, in which at most the given
indices are free. -/
structure Represents (P : Expr → Prop) (v : RingValuation R) (e : Expr) (shape : Shape)
    (dims : Index → Nat → Prop) (f : Assignment → Component → R) : Prop where
  good : P e
  fair : FairlySubscripted e
  shaped : e.shape = shape
  free : ∀ i d, e.free.dim? i = some d → dims i d
  value : ∀ ρ c, c.length = shape.length → v.value e ρ c = f ρ c

namespace Represents

variable {P : Expr → Prop} {v : RingValuation R} {a b r : Expr} {shape : Shape}
  {A B : Index → Nat → Prop} {f g : Assignment → Component → R}

theorem weaken (a_represents : Represents P v a shape A f) (more : ∀ i d, A i d → B i d) :
    Represents P v a shape B f :=
  { a_represents with free := fun i d found => more i d (a_represents.free i d found) }

theorem congr (a_represents : Represents P v a shape A f)
    (same : ∀ ρ c, c.length = shape.length → f ρ c = g ρ c) : Represents P v a shape A g :=
  { a_represents with value := fun ρ c length => (a_represents.value ρ c length).trans (same ρ c length) }

theorem close (tensor : Represents P v a shape A f) (none : a.free = ∅) : Represents P v a shape Closed f :=
  { tensor with free := fun i d found => by simp [none] at found }

theorem closed_free (a_represents : Represents P v a shape Closed f) : a.free = ∅ :=
  FreeIndices.ext_dim fun i d => by
    have absent : a.free.dim? i ≠ some d := fun found => a_represents.free i d found
    simpa using absent

/-- The components of an expression without free indices are the same under every assignment. -/
theorem of_constructible (steady : v.Steady) (made : Constructible a) (shaped : a.shape = shape)
    (unindexed : a.free = ∅) (ρ : Assignment) :
    Represents WellTyped v a shape Closed fun _ => v.value a ρ :=
  ⟨made.well_typed, fair_of_closed made.well_typed unindexed, shaped,
    fun i d found => by simp [unindexed] at found,
    fun _ _ _ => steady made.well_typed fun i known => by simp [unindexed] at known⟩

variable [kept : KeptByBuilding P]

theorem typed (a_represents : Represents P v a shape A f) : WellTyped a := kept.typed a_represents.good

/-- An expression without free indices stands for itself. -/
theorem self (good : P a) (closed : a.free = ∅) : Represents P v a a.shape Closed (v.value a) :=
  ⟨good, fair_of_closed (kept.typed good) closed, rfl, fun i d found => by simp [closed] at found,
    fun _ _ _ => rfl⟩

section Arithmetic

variable [Folding] (exact : v.Exact)

include exact

theorem add (left : Represents P v a shape A f) (right : Represents P v b shape A g)
    (run : a.add b = .ok r) : Represents P v r shape A fun ρ c => f ρ c + g ρ c := by
  have good : P r := kept.built (.add nofun (.given left.good) (.given right.good) run)
  have stored : FairlySubscripted r ∧ r.shape = shape ∧ ∀ i d, r.free.dim? i = some d → A i d := by
    obtain ⟨_, _, ⟨_, rfl⟩ | ⟨_, rfl⟩ | folded | rfl⟩ := add_cases run
    · exact ⟨right.fair, right.shaped, right.free⟩
    · exact ⟨left.fair, left.shaped, left.free⟩
    · obtain ⟨scalar, scalar', closed⟩ := fold_stored folded
      exact ⟨fair_of_closed (kept.typed good) closed, scalar'.trans (scalar.symm.trans left.shaped),
        fun i d found => by simp [closed] at found⟩
    · exact ⟨fair_of_kind nofun, left.shaped, left.free⟩
  refine ⟨good, stored.1, stored.2.1, stored.2.2, fun ρ c length => ?_⟩
  rw [v.value_add exact run, left.value ρ c length, right.value ρ c length]

theorem scalar_product (left : Represents P v a [] A f) (right : Represents P v b [] B g)
    (run : a.scalarProduct b = .ok r) :
    Represents P v r [] (fun i d => A i d ∨ B i d) fun ρ c => f ρ c * g ρ c := by
  have good : P r := kept.built (.scalar_product nofun (.given left.good) (.given right.good) run)
  have stored : FairlySubscripted r ∧ r.shape = [] ∧
      ∀ i d, r.free.dim? i = some d → A i d ∨ B i d := by
    obtain ⟨_, _, free, union, ⟨_, rfl⟩ | folded | ⟨_, rfl⟩ | ⟨_, rfl⟩ | rfl⟩ := scalar_product_cases run
    · exact ⟨fair_of_kind nofun, rfl, fun i d found =>
        ((union i d).mp found).imp (left.free i d) (right.free i d)⟩
    · obtain ⟨_, scalar, closed⟩ := fold_stored folded
      exact ⟨fair_of_closed (kept.typed good) closed, scalar, fun i d found => by simp [closed] at found⟩
    · exact ⟨right.fair, right.shaped, fun i d found => .inr (right.free i d found)⟩
    · exact ⟨left.fair, left.shaped, fun i d found => .inl (left.free i d found)⟩
    · exact ⟨fair_of_kind nofun, rfl, fun i d found =>
        ((union i d).mp found).imp (left.free i d) (right.free i d)⟩
  refine ⟨good, stored.1, stored.2.1, stored.2.2, fun ρ c length => ?_⟩
  rw [v.value_scalar_product exact run, left.value ρ c length, right.value ρ c length]

end Arithmetic

section Indexing

theorem subscript {items : List IndexItem} (tensor : Represents P v a shape A f)
    (fresh : ∀ i d, .free i ∈ items → ¬ A i d) (fair : FairlySubscripted r)
    (run : a.subscript items = .ok r) :
    items.length = shape.length ∧
      Represents P v r [] (fun i d => A i d ∨ (.free i, d) ∈ items.zip shape)
        fun ρ _ => f ρ (items.map (IndexItem.position ρ)) := by
  have good : P r := kept.subscript tensor.good (fun i inside known => by
    obtain ⟨d, found⟩ := FreeIndices.contains_iff.mp known
    exact fresh i d inside (tensor.free i d found)) run
  obtain ⟨length, scalar, free⟩ := subscripted_stored tensor.typed (subscript_cases run)
  rw [tensor.shaped] at length free
  refine ⟨length, good, fair, scalar, fun i d found => (free i d found).imp_left (tensor.free i d),
    fun ρ c empty => ?_⟩
  rw [List.eq_nil_of_length_eq_zero empty, v.value_subscript run]
  exact tensor.value ρ _ (by rw [List.length_map, length])

/-- No entry of a list is picked by a subscript that starts with an index. -/
theorem subscript_fresh {i : Index} {items : List IndexItem} (tensor : Represents P v a shape A f)
    (fresh : ∀ i' d, .free i' ∈ IndexItem.free i :: items → ¬ A i' d)
    (run : a.subscript (.free i :: items) = .ok r) :
    (∀ i' d, (.free i', d) ∈ (IndexItem.free i :: items).zip shape → r.free.dim? i' = some d) ∧
      Represents P v r [] (fun i' d => A i' d ∨ (.free i', d) ∈ (IndexItem.free i :: items).zip shape)
        fun ρ _ => f ρ ((IndexItem.free i :: items).map (IndexItem.position ρ)) := by
  have made := subscript_cases run
  have indexed : FairlySubscripted r ∧ ∀ i' d, (.free i', d) ∈ (IndexItem.free i :: items).zip a.shape →
      r.free.dim? i' = some d := by
    generalize same : IndexItem.free i :: items = all at made fresh
    cases made with
    | whole => cases same
    | identity | entry => cases same
    | zero subscribed =>
        exact ⟨fair_of_kind nofun, fun i' d pair => (subscribed.dims i' d).mpr (.inr pair)⟩
    | node _ subscribed =>
        refine ⟨?_, fun i' d pair => (subscribed.dims i' d).mpr (.inr pair)⟩
        rintro _ _ _ _ equal j inside known
        cases equal
        obtain ⟨d, found⟩ := FreeIndices.contains_iff.mp known
        exact fresh j d inside (tensor.free j d found)
  rw [tensor.shaped] at indexed
  exact ⟨indexed.2, (tensor.subscript fresh indexed.1 run).2⟩

theorem component {position : Component} (tensor : Represents P v a shape Closed f)
    (run : a.component position = .ok r) : Represents P v r [] Closed fun ρ _ => f ρ position := by
  have fresh (i : Index) (inside : .free i ∈ position.map IndexItem.fixed) : False := by
    simp at inside
  have good : P r := kept.subscript tensor.good (fun i inside => (fresh i inside).elim) run
  obtain ⟨length, scalar, free⟩ := subscripted_stored tensor.typed (subscript_cases run)
  have closed : r.free = ∅ := by
    refine FreeIndices.ext_dim fun i d => ?_
    have absent : r.free.dim? i ≠ some d := fun found => by
      rcases free i d found with known | item
      · exact tensor.free i d known
      · simpa using (List.of_mem_zip item).1
    simpa using absent
  obtain ⟨_, entry⟩ := tensor.subscript (fun i _ inside => (fresh i inside).elim)
    (fair_of_closed (kept.typed good) closed) run
  refine { entry.congr fun ρ c _ => ?_ with free := fun i d found => by simp [closed] at found }
  rw [List.map_map]
  exact congrArg _ (List.map_id position)

theorem index_sum {i : Index} {d : Nat} (summand : Represents P v a [] A f)
    (dim : ∀ d', A i d' → d' = d) (run : a.indexSum i = .ok r) :
    Represents P v r [] (fun j d => j ≠ i ∧ A j d)
      fun ρ c => ∑ position ∈ Finset.range d, f (ρ.bind i position) c := by
  obtain ⟨_, known, outcome⟩ := index_sum_cases run
  obtain ⟨d', found⟩ := FreeIndices.contains_iff.mp known
  obtain rfl := dim d' (summand.free i d' found)
  have stored : FairlySubscripted r ∧ r.shape = [] ∧ r.free = a.free.erase i := by
    obtain ⟨_, rfl⟩ | rfl := outcome <;> exact ⟨fair_of_kind nofun, rfl, rfl⟩
  refine ⟨kept.built (.index_sum nofun (.given summand.good) run), stored.1, stored.2.1,
    fun j d' kept => ?_, fun ρ c length => ?_⟩
  · rw [stored.2.2, FreeIndices.erase_dim] at kept
    exact ⟨kept.1, summand.free j d' kept.2⟩
  · rw [v.value_index_sum run, found]
    exact Finset.sum_congr rfl fun position _ => summand.value _ c length

theorem index_by {indices : List Index} (tensor : Represents P v a shape A f)
    (fresh : FreshFor A indices) (run : a.indexBy indices = .ok r) :
    indices.length = shape.length ∧ (∀ i d, (i, d) ∈ indices.zip shape → r.free.dim? i = some d) ∧
      Represents P v r [] (fun i d => A i d ∨ (i, d) ∈ indices.zip shape)
        fun ρ _ => f ρ (indices.map ρ) := by
  have absent (i : Index) (member : i ∈ indices) : ¬ a.free.contains i = true := fun known => by
    obtain ⟨d, found⟩ := FreeIndices.contains_iff.mp known
    exact fresh.absent i d member (tensor.free i d found)
  have run := index_by_once fresh.distinct absent run
  have made := subscript_cases run
  have fair : FairlySubscripted r := by
    generalize same : indices.map IndexItem.free = items at made
    cases made with
    | whole => exact tensor.fair
    | zero => exact fair_of_kind nofun
    | identity | entry => obtain _ | ⟨_, _⟩ := indices <;> cases same
    | node =>
        rintro _ _ _ _ equal i inside
        cases equal
        subst same
        exact absent i ((List.mem_map_of_injective free_injective).mp inside)
  obtain ⟨length, entry⟩ := tensor.subscript (fun i d inside =>
    fresh.absent i d ((List.mem_map_of_injective free_injective).mp inside)) fair run
  rw [List.length_map] at length
  refine ⟨length, fun i d pair => subscripted_indices made i d (tensor.shaped ▸ pair), ?_⟩
  refine (entry.weaken fun i d known => known.imp_right mem_zip_free.mp).congr fun ρ c _ => ?_
  rw [List.map_map]
  rfl

end Indexing

section Products

variable [Folding] (exact : v.Exact)

include exact

/-- A product over one index that both factors have. -/
theorem product_along {i : Index} {d : Nat} (left : Represents P v a [] A f)
    (right : Represents P v b [] B g) (found : a.free.dim? i = some d)
    (known : b.free.contains i = true) (only : ∀ j e e', A j e → B j e' → j = i)
    (dims : ∀ d', A i d' ∨ B i d' → d' = d) (run : a.contractedProduct b = .ok r) :
    Represents P v r [] (fun j e => j ≠ i ∧ (A j e ∨ B j e)) fun ρ c =>
      ∑ k ∈ Finset.range d, f (ρ.bind i k) c * g (ρ.bind i k) c := by
  obtain ⟨product, first, sums⟩ := (except_bind_ok _ _ _).mp run
  have repeated : a.free.repeated b.free = [(i, d)] := by
    refine FreeIndices.repeated_eq (List.pairwise_singleton _ _) fun j e => ⟨fun member => ?_, ?_⟩
    · obtain ⟨rfl, rfl⟩ : j = i ∧ e = d := by simpa using member
      exact ⟨found, known⟩
    · rintro ⟨here, there⟩
      obtain ⟨e', there⟩ := FreeIndices.contains_iff.mp there
      obtain rfl := only j e e' (left.free j e here) (right.free j e' there)
      rw [dims e (.inl (left.free j e here))]
      exact List.mem_singleton_self _
  rw [repeated] at sums
  obtain ⟨once, sum, last⟩ := index_sums_cons sums
  cases last
  exact (left.scalar_product exact right first).index_sum dims sum

end Products

section Tensors

/-- Assignments that agree on what may be free give one value. -/
theorem steady {ρ ρ' : Assignment} {c : Component} (tensor : Represents P v a shape A f)
    (steady : v.Steady) (agree : ∀ i d, A i d → ρ i = ρ' i) (length : c.length = shape.length) :
    f ρ c = f ρ' c := by
  rw [← tensor.value ρ c length, ← tensor.value ρ' c length]
  refine steady tensor.typed fun i known => ?_
  obtain ⟨d, found⟩ := FreeIndices.contains_iff.mp known
  exact agree i d (tensor.free i d found)

/-- The tensor over indices has the scalar along them as its components. -/
theorem as_tensor {indices : List Index} (steady : v.Steady) (scalar : Represents P v a [] A f)
    (length : indices.length = shape.length)
    (dims : ∀ i d d', (i, d) ∈ indices.zip shape → A i d' → d = d')
    (run : a.asTensor indices = .ok r) :
    Represents P v r shape (fun i d => i ∉ indices ∧ A i d) fun ρ c =>
      f (ρ.bindAll (indices.zip c)) [] := by
  by_cases some : indices = []
  · subst some
    cases run
    obtain rfl := List.eq_nil_of_length_eq_zero length.symm
    refine (scalar.weaken fun i d known => ⟨List.not_mem_nil, known⟩).congr fun ρ c empty => ?_
    rw [List.eq_nil_of_length_eq_zero empty]
    rfl
  have fair (tensor : Expr) (dims : Shape) (set : FreeIndices)
      (same : a = .node .indexed [tensor, multiIndex (indices.map .free)] dims set) (i : Index)
      (inside : i ∈ indices) : ¬ tensor.free.contains i = true :=
    scalar.fair tensor _ _ _ same i (List.mem_map_of_mem inside)
  obtain ⟨shape', free, binds, type⟩ := as_tensor_type some scalar.typed run
  obtain ⟨shaped, rfl⟩ := type.mpr fun ⟨tensor, _, _, same, i, inside, known⟩ =>
    fair tensor _ _ same i inside known
  have whole : shape = shape' := shape_unique length binds.length fun i d d' pair pair' =>
    dims i d d' pair (scalar.free i d' (binds.found i d' pair'))
  have tensor : r.shape ≠ [] := fun none => some <| List.eq_nil_of_length_eq_zero <| by
    rw [binds.length, ← shaped, none]
    rfl
  have good : P r := kept.built (.as_tensor nofun (.given scalar.good) run)
  refine ⟨good, fair_of_tensor (kept.typed good) tensor, shaped.trans whole.symm, fun i d found => ?_,
    fun ρ c same => ?_⟩
  · exact ((binds.dims i d).mp found).imp_right (scalar.free i d)
  · rw [v.value_as_tensor steady scalar.typed fair (same.trans length.symm) run]
    exact scalar.value _ [] rfl

/-- The tensor over fresh indices of a scalar with nothing else in it but these. -/
theorem over_fresh {indices : List Index} (steady : v.Steady) (fresh : FreshFor A indices)
    (scalar : Represents P v a [] (fun i d => A i d ∨ (i, d) ∈ indices.zip shape) f)
    (length : indices.length = shape.length) (run : a.asTensor indices = .ok r) :
    Represents P v r shape A fun ρ c => f (ρ.bindAll (indices.zip c)) [] := by
  refine (scalar.as_tensor steady length (fun i d d' pair known => ?_) run).weaken fun i d known => ?_
  · rcases known with known | pair'
    · exact absurd known (fresh.absent i d' (List.of_mem_zip pair).1)
    · exact zip_unique fresh.distinct pair pair'
  · exact known.2.resolve_right fun pair => known.1 (List.of_mem_zip pair).1

/-- Fresh indices bound to a component change nothing else. -/
theorem fresh_steady {indices : List Index} {ρ : Assignment} {c k : Component}
    (steady : v.Steady) (fresh : FreshFor A indices) (tensor : Represents P v a shape A f)
    (length : k.length = shape.length) : f (ρ.bindAll (indices.zip c)) k = f ρ k :=
  tensor.steady steady (fun i d known => Assignment.bind_all_zip_other fun member =>
    fresh.absent i d member known) length

/-- The components of tensors along a new first axis. -/
def stackOf (n : Nat) (entry : Nat → Component → R) : Component → R
  | position :: rest => if position < n then entry position rest else 0
  | [] => 0

theorem list_tensor {entries : List Expr} {entry : Nat → Assignment → Component → R}
    (each : ∀ k e, entries[k]? = some e → Represents P v e shape A (entry k))
    (run : listTensor entries = .ok r) :
    Represents P v r (entries.length :: shape) A fun ρ => stackOf entries.length fun k => entry k ρ := by
  have member {e : Expr} (inside : e ∈ entries) : ∃ k, Represents P v e shape A (entry k) := by
    obtain ⟨k, found⟩ := List.mem_iff_getElem?.mp inside
    exact ⟨k, each k e found⟩
  have good : P r := kept.built (.list_tensor nofun (fun e inside =>
    .given ((member inside).elim fun _ represents => represents.good)) run)
  have stored : r.shape = entries.length :: shape ∧ ∀ i d, r.free.dim? i = some d → A i d := by
    obtain ⟨_, _, nonempty, same, made⟩ := list_tensor_cases run
    obtain ⟨first, inside⟩ := List.exists_mem_of_ne_nil entries nonempty
    obtain ⟨k, represents⟩ := member inside
    obtain ⟨rfl, rfl⟩ := same first inside
    obtain ⟨_, rfl⟩ | rfl := made <;> exact ⟨congrArg _ represents.shaped, represents.free⟩
  refine ⟨good, fair_of_tensor (kept.typed good) (by simp [stored.1]), stored.1, stored.2,
    fun ρ c length => ?_⟩
  cases c with
  | nil => cases length
  | cons position rest =>
      rw [v.value_list_tensor run, stackOf]
      by_cases inside : position < entries.length
      · rw [List.getElem?_eq_getElem inside, if_pos inside]
        exact (each position _ (List.getElem?_eq_getElem inside)).value ρ rest (Nat.succ.inj length)
      · rw [List.getElem?_eq_none (Nat.not_lt.mp inside), if_neg inside]
        rfl

end Tensors

section Field

variable {K : Type} [Field K] {u : TensorValuation K} {f g : Assignment → Component → K}

/-- Summing over several indices sums over the components that they run through. -/
theorem index_sums {entries : List (Index × Nat)} (summand : Represents P u.toRing a [] A f)
    (distinct : (entries.map Prod.fst).Nodup)
    (dims : ∀ i d d', (i, d) ∈ entries → A i d' → d' = d)
    (run : a.indexSums (entries.map Prod.fst) = .ok r) :
    Represents P u.toRing r [] (fun i d => i ∉ entries.map Prod.fst ∧ A i d) fun ρ c =>
      sumOver (entries.map Prod.snd) fun k => f (ρ.bindAll ((entries.map Prod.fst).zip k)) c := by
  induction entries generalizing a A f with
  | nil =>
      cases run
      exact summand.weaken fun i d known => ⟨List.not_mem_nil, known⟩
  | cons entry rest ih =>
      obtain ⟨i, d⟩ := entry
      obtain ⟨once, first, others⟩ := index_sums_cons run
      obtain ⟨absent, distinct⟩ := List.nodup_cons.mp distinct
      have once := summand.index_sum (fun d' => dims i d d' List.mem_cons_self) first
      have total := ih once distinct
        (fun j e e' member known => dims j e e' (List.mem_cons_of_mem _ member) known.2) others
      refine (total.weaken fun j e known => ⟨?_, known.2.2⟩).congr fun ρ c _ => ?_
      · show sumOver (rest.map Prod.snd) _ = ∑ position ∈ Finset.range d, _
        rw [← sum_over_comm]
        refine Finset.sum_congr rfl fun position _ => sum_over_congr fun k _ => ?_
        exact congrArg (f · c) (Assignment.bind_all_bind absent).symm
      · rw [List.map_cons, List.mem_cons, not_or]
        exact ⟨known.2.1, known.1⟩

section Products

variable [Folding] (exact : u.Exact)

include exact

theorem scalar_quotient (left : Represents P u.toRing a [] A f) (right : Represents P u.toRing b [] B g)
    (run : a.scalarQuotient b = .ok r) :
    Represents P u.toRing r [] (fun i d => A i d ∨ B i d) fun ρ c => f ρ c / g ρ c := by
  have good : P r := kept.built (.scalar_quotient nofun (.given left.good) (.given right.good) run)
  have stored : FairlySubscripted r ∧ r.shape = [] ∧
      ∀ i d, r.free.dim? i = some d → A i d ∨ B i d := by
    obtain ⟨_, _, free, union, ⟨_, rfl⟩ | folded | ⟨_, rfl⟩ | rfl⟩ := scalar_quotient_cases run
    · exact ⟨fair_of_kind nofun, rfl, fun i d found =>
        ((union i d).mp found).imp (left.free i d) (right.free i d)⟩
    · obtain ⟨_, scalar, closed⟩ := fold_stored folded
      exact ⟨fair_of_closed (kept.typed good) closed, scalar, fun i d found => by simp [closed] at found⟩
    · exact ⟨left.fair, left.shaped, fun i d found => .inl (left.free i d found)⟩
    · exact ⟨fair_of_kind nofun, rfl, fun i d found =>
        ((union i d).mp found).imp (left.free i d) (right.free i d)⟩
  refine ⟨good, stored.1, stored.2.1, stored.2.2, fun ρ c length => ?_⟩
  rw [← left.value ρ c length, ← right.value ρ c length]
  exact u.value_scalar_quotient exact run

/-- A product sums over the indices that are free in both factors. -/
theorem contracted_product (left : Represents P u.toRing a [] A f) (right : Represents P u.toRing b [] B g)
    (entries : List (Index × Nat))
    (increasing : entries.Pairwise fun a b => a.1.number < b.1.number)
    (shared : ∀ i d, (i, d) ∈ entries → a.free.dim? i = some d ∧ b.free.contains i = true)
    (only : ∀ i d d', A i d → B i d' → (i, d) ∈ entries)
    (dims : ∀ i d d', (i, d) ∈ entries → A i d' ∨ B i d' → d' = d)
    (run : a.contractedProduct b = .ok r) :
    Represents P u.toRing r [] (fun i d => i ∉ entries.map Prod.fst ∧ (A i d ∨ B i d)) fun ρ c =>
      sumOver (entries.map Prod.snd) fun k =>
        f (ρ.bindAll ((entries.map Prod.fst).zip k)) c *
          g (ρ.bindAll ((entries.map Prod.fst).zip k)) c := by
  obtain ⟨product, first, sums⟩ := (except_bind_ok _ _ _).mp run
  have repeated : a.free.repeated b.free = entries := by
    refine FreeIndices.repeated_eq increasing fun i d => ⟨shared i d, fun ⟨found, known⟩ => ?_⟩
    obtain ⟨d', known⟩ := FreeIndices.contains_iff.mp known
    exact only i d d' (left.free i d found) (right.free i d' known)
  rw [repeated] at sums
  have distinct : (entries.map Prod.fst).Nodup :=
    List.pairwise_map.mpr (increasing.imp fun less same => by rw [same] at less; omega)
  exact (left.scalar_product exact.ring right first).index_sums distinct dims sums

end Products

theorem vector {entries : List Expr} {entry : Nat → Assignment → Component → K}
    (each : ∀ k e, entries[k]? = some e → Represents P u.toRing e [] A (entry k))
    (run : vector entries = .ok r) :
    Represents P u.toRing r [entries.length] A fun ρ =>
      vectorOf fun k => if k < entries.length then entry k ρ [] else 0 := by
  refine (list_tensor each (vector_cases run).2).congr fun ρ c length => ?_
  obtain ⟨position, rfl⟩ := List.length_eq_one_iff.mp length
  rfl

theorem matrix {rows : List (List Expr)} {n : Nat} {entry : Nat → Nat → Assignment → Component → K}
    (widths : ∀ row ∈ rows, row.length = n)
    (each : ∀ i j row e, rows[i]? = some row → row[j]? = some e → Represents P u.toRing e [] A (entry i j))
    (run : matrix rows = .ok r) :
    Represents P u.toRing r [rows.length, n] A fun ρ =>
      matrixOf fun i j => if i < rows.length ∧ j < n then entry i j ρ [] else 0 := by
  obtain ⟨vectors, made, list⟩ := (except_bind_ok _ _ _).mp run
  have pairs := mapM_ok made
  have row (i : Nat) (w : Expr) (found : vectors[i]? = some w) :
      Represents P u.toRing w [n] A fun ρ => vectorOf fun j => if j < n then entry i j ρ [] else 0 := by
    obtain ⟨small, rfl⟩ := List.getElem?_eq_some_iff.mp found
    have small' : i < rows.length := pairs.length_eq ▸ small
    rw [← widths _ (List.getElem_mem small')]
    exact vector (fun j e inside => each i j _ e (List.getElem?_eq_getElem small') inside)
      (pairs.get small' small)
  rw [pairs.length_eq]
  refine (list_tensor row list).congr fun ρ c length => ?_
  obtain ⟨i, j, rfl⟩ := List.length_eq_two.mp length
  show (if _ then if _ then _ else _ else _) = if _ then _ else _
  rw [ite_and]

theorem square {rows : List (List Expr)} {n : Nat}
    {m : Assignment → Matrix (Fin n) (Fin n) K} (height : rows.length = n)
    (widths : ∀ row ∈ rows, row.length = n)
    (each : ∀ (i j : Fin n) row e, rows[(i : Nat)]? = some row → row[(j : Nat)]? = some e →
      Represents P u.toRing e [] A fun ρ _ => m ρ i j) (run : Expr.matrix rows = .ok r) :
    Represents P u.toRing r [n, n] A fun ρ => entryOf (m ρ) := by
  have entry (i j : Nat) (row : List Expr) (e : Expr) (found : rows[i]? = some row)
      (inside : row[j]? = some e) : Represents P u.toRing e [] A fun ρ _ => entryOf (m ρ) [i, j] := by
    have small : i < n := height ▸ (List.getElem?_eq_some_iff.mp found).1
    have small' : j < n :=
      widths row (List.mem_of_getElem? found) ▸ (List.getElem?_eq_some_iff.mp inside).1
    refine (each ⟨i, small⟩ ⟨j, small'⟩ row e found inside).congr fun ρ c _ => ?_
    show _ = if inside : i < n ∧ j < n then _ else _
    rw [dif_pos ⟨small, small'⟩]
  have whole := matrix widths entry run
  rw [height] at whole
  refine whole.congr fun ρ c length => ?_
  obtain ⟨i, j, rfl⟩ := List.length_eq_two.mp length
  show (if i < n ∧ j < n then entryOf (m ρ) [i, j] else 0) = _
  by_cases inside : i < n ∧ j < n
  · rw [if_pos inside]
  · rw [if_neg inside]
    show _ = if inside : i < n ∧ j < n then _ else _
    rw [dif_neg inside]

end Field

end Represents

end FormCalculus
