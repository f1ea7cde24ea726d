import FormCalculus.Proofs.Reading

/-!
The value of an expression depends on the positions of its free indices only.
-/
set_option autoImplicit false

namespace FormCalculus

namespace Assignment

variable {ρ ρ' : Assignment} {i : Index}

@[simp] theorem bind_same (ρ : Assignment) (i : Index) (position : Nat) :
    ρ.bind i position i = position := by
  exact Function.update_self ..

theorem bind_other {j : Index} (other : j ≠ i) (position : Nat) : ρ.bind i position j = ρ j := by
  exact Function.update_of_ne other ..

theorem bind_congr {position : Nat} {j : Index} (same : j ≠ i → ρ j = ρ' j) :
    ρ.bind i position j = ρ'.bind i position j := by
  by_cases here : j = i
  · rw [here, bind_same, bind_same]
  · rw [bind_other here, bind_other here, same here]

theorem bind_all_other {bindings : List (Index × Nat)}
    (other : ∀ binding ∈ bindings, i ≠ binding.1) : ρ.bindAll bindings i = ρ i := by
  induction bindings generalizing ρ with
  | nil => rfl
  | cons binding rest ih =>
      obtain ⟨here, others⟩ := List.forall_mem_cons.mp other
      exact (ih others).trans (bind_other here _)

theorem bind_all_zip_other {indices : List Index} {c : Component} (other : i ∉ indices) :
    ρ.bindAll (indices.zip c) i = ρ i :=
  bind_all_other fun _ member same => other (same ▸ (List.of_mem_zip member).1)

theorem bind_all_congr {bindings : List (Index × Nat)}
    (same : (∀ binding ∈ bindings, i ≠ binding.1) → ρ i = ρ' i) :
    ρ.bindAll bindings i = ρ'.bindAll bindings i := by
  induction bindings generalizing ρ ρ' with
  | nil => exact same nofun
  | cons binding rest ih =>
      refine ih fun others => bind_congr fun here => same ?_
      exact List.forall_mem_cons.mpr ⟨here, others⟩

/-- Indices bound one by one have the positions they are bound to. -/
theorem bind_all_zip {indices : List Index} {c : Component} (distinct : indices.Nodup)
    (length : indices.length = c.length) : indices.map (ρ.bindAll (indices.zip c)) = c := by
  induction indices generalizing ρ c with
  | nil => exact (List.eq_nil_of_length_eq_zero length.symm).symm
  | cons index rest ih =>
      cases c with
      | nil => cases length
      | cons position c =>
          obtain ⟨absent, distinct⟩ := List.nodup_cons.mp distinct
          show (ρ.bind index position).bindAll (rest.zip c) index :: _ = _
          rw [bind_all_zip_other absent, bind_same]
          exact congrArg _ (ih distinct (Nat.succ.inj length))

/-- Bindings of different indices can trade places. -/
theorem bind_all_bind {index : Index} {position : Nat} {indices : List Index}
    {c : Component} (other : index ∉ indices) :
    (ρ.bind index position).bindAll (indices.zip c) =
      (ρ.bindAll (indices.zip c)).bind index position := by
  funext j
  by_cases same : j = index
  · subst same
    rw [bind_all_zip_other other, bind_same, bind_same]
  · rw [bind_other same]
    exact bind_all_congr fun _ => bind_other same position

end Assignment

section SumOver

variable {K : Type} [Field K] {shape : Shape}

/-- Sums over components of a shape and over a range can trade places. -/
theorem sum_over_comm (shape : Shape) (dim : Nat) (term : Nat → Component → K) :
    ∑ position ∈ Finset.range dim, sumOver shape (term position) =
      sumOver shape fun c => ∑ position ∈ Finset.range dim, term position c := by
  induction shape generalizing term with
  | nil => rfl
  | cons first shape ih =>
      simp only [sumOver]
      rw [Finset.sum_comm]
      exact Finset.sum_congr rfl fun position _ => ih fun k c => term k (position :: c)

theorem sum_over_congr {term term' : Component → K}
    (same : ∀ c, c.length = shape.length → term c = term' c) :
    sumOver shape term = sumOver shape term' := by
  induction shape generalizing term term' with
  | nil => exact same [] rfl
  | cons dim shape ih =>
      exact Finset.sum_congr rfl fun position _ => ih fun c length =>
        same (position :: c) (congrArg Nat.succ length)

end SumOver

namespace Reading

open Expr

variable {K : Type} [Field K] {M : Reading K} {s : Option Side} {ρ ρ' : Assignment} {c : Component}

/-- Terminals have their values whatever the assignment, multi-indices included. -/
def Rigid (M : Reading K) : Prop := ∀ ρ ρ' items, M.items ρ items = M.items ρ' items

/-- The assignments give the free indices the same positions. -/
def AgreeOn (free : FreeIndices) (ρ ρ' : Assignment) : Prop :=
  ∀ i, free.contains i = true → ρ i = ρ' i

theorem AgreeOn.subset {a b : FreeIndices} (agree : AgreeOn b ρ ρ') (inside : a ⊆ b) :
    AgreeOn a ρ ρ' :=
  fun i known => agree i (FreeIndices.subset_contains inside known)

theorem position_congr {items : List IndexItem}
    (same : ∀ i, .free i ∈ items → ρ i = ρ' i) :
    items.map (IndexItem.position ρ) = items.map (IndexItem.position ρ') :=
  List.map_congr_left fun item member => by
    cases item with
    | fixed position => rfl
    | free index => exact same index member

theorem value_congr (rigid : M.Rigid) {e : Expr} (typed : WellTyped e)
    (agree : AgreeOn e.free ρ ρ') : M.value e s ρ c = M.value e s ρ' c := by
  induction typed generalizing s ρ ρ' c with
  | terminal data => cases data <;> first | rfl | exact rigid ..
  | labelled _ _ ih => exact ih agree
  | @node op operands shape free types _ ih =>
      -- Except below a binder, the operands agree on what is free in them.
      have here (sum : op ≠ .indexSum) (tensor : op ≠ .componentTensor) :
          ∀ o ∈ operands, ∀ s, M.value o s ρ = M.value o s ρ' := fun o member s =>
        funext fun c => ih o member (agree.subset (types_free types sum tensor o member))
      rw [value_node]
      cases types with
      | @indexed a items _ some subscribed =>
          have positions : items.map (IndexItem.position ρ) = items.map (IndexItem.position ρ') :=
            position_congr fun i member => by
              obtain ⟨dim, pair⟩ := partner_right subscribed.length member
              exact agree i (FreeIndices.contains_iff.mpr ⟨dim, (subscribed.dims i dim).mpr (.inr pair)⟩)
          show M.value a s ρ (items.map _) = M.value a s ρ' (items.map _)
          rw [positions, here (by simp) (by simp) a (by simp)]
      | @indexSum a i _ _ =>
          refine Finset.sum_congr rfl fun position _ => ih a (by simp) fun j known => ?_
          refine Assignment.bind_congr fun other => agree j ?_
          obtain ⟨dim, found⟩ := FreeIndices.contains_iff.mp known
          exact FreeIndices.contains_iff.mpr ⟨dim, (FreeIndices.erase_dim ..).mpr ⟨other, found⟩⟩
      | @componentTensor a indices _ _ _ _ binds =>
          simp only [Operator.denote, List.map, bound_by_indices]
          split
          · rename_i length
            refine ih a (by simp) fun j known => Assignment.bind_all_congr fun unbound => agree j ?_
            have outside : j ∉ indices := fun member => by
              obtain ⟨position, pair⟩ := partner_right length.symm member
              exact unbound _ pair rfl
            obtain ⟨dim, found⟩ := FreeIndices.contains_iff.mp known
            exact FreeIndices.contains_iff.mpr ⟨dim, (binds.dims j dim).mpr ⟨outside, found⟩⟩
          · rfl
      | listTensor =>
          cases c with
          | nil => rfl
          | cons position rest =>
              simp only [Operator.denote, List.getElem?_map, Option.map_map, Function.comp_def]
              cases found : operands[position]? with
              | none => rfl
              | some entry =>
                  exact congrFun (here (by simp) (by simp) entry (List.mem_of_getElem? found) s) rest
      | condition =>
          simp only [Operator.denote, List.map_map]
          congr 1
          exact List.map_congr_left fun o member => congrFun (here (by simp) (by simp) o member s) c
      | _ =>
          have here := here (by simp) (by simp)
          simp only [List.forall_mem_cons, List.not_mem_nil, false_implies, implies_true, and_true] at here
          simp only [List.map, Operator.denote, here]

end Reading

end FormCalculus
