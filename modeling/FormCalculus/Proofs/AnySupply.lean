import FormCalculus.Proofs.Occurring
import FormCalculus.Proofs.RenumberedExpansion

/-!
Lowering takes fresh indices from a supply, and their numbers decide the order of the operands of what
it makes. Once it is expanded, the expression is the same from whatever number on the supply counts.
-/
set_option autoImplicit false

namespace FormCalculus

open FormCalculus.Expr

/-- Lowers an expression with fresh indices from a supply, and expands what comes of it. -/
def Expr.lowerExpand [Folding] (e : Expr) (supply : Supply) : Except TransformError Expr := do
  let (lowered, _) ← e.lower supply
  lowered.expand

/-- The indices to be handed out have greater numbers than all that are free or subscripts somewhere in
the expression. -/
def Supply.Above (supply : Supply) (e : Expr) : Prop :=
  ∀ x, Within x e → ∀ i, Mentions i x → i.number < supply.index

theorem mem_mentioned {i : Index} {x : Expr} :
    i ∈ x.free.indices ++ (x.multiIndex?.getD []).filterMap IndexItem.free? ↔ Mentions i x := by
  rw [List.mem_append, FreeIndices.mem_indices_iff, List.mem_filterMap]
  refine or_congr Iff.rfl ⟨?_, ?_⟩
  · rintro ⟨item, member, same⟩
    cases read : x.multiIndex? with
    | none => simp [read] at member
    | some items =>
        refine ⟨items, multi_index_some read, ?_⟩
        cases item with
        | fixed => cases same
        | free => simpa [read, ← Option.some.inj same] using member
  · rintro ⟨items, rfl, member⟩
    exact ⟨.free i, member, rfl⟩

instance (supply : Supply) (e : Expr) : Decidable (supply.Above e) :=
  decidable_of_iff (∀ x, Within x e → ∀ i ∈ x.free.indices ++
      (x.multiIndex?.getD []).filterMap IndexItem.free?, i.number < supply.index)
    (forall₂_congr fun _ _ => forall_congr' fun _ => by rw [mem_mentioned])

/-- Moves the numbers from `start` on up by `distance`. -/
def Renumbering.shift (start distance : Nat) : Renumbering where
  index i := if i.number < start then i else ⟨i.number + distance⟩
  ordered i j := by
    show Index.number _ < Index.number _ ↔ _
    split <;> split <;> simp only <;> omega

theorem Renumbering.shift_below {start distance : Nat} {i : Index} (below : i.number < start) :
    (shift start distance).index i = i := if_pos below

theorem Renumbering.shift_follows {s s' : Supply} (order : s.index ≤ s'.index) :
    (shift s.index (s'.index - s.index)).Follows s s' := by
  intro k
  have above : ¬ s.index + k < s.index := by omega
  refine (if_neg above).trans (congrArg Index.mk ?_)
  show s.index + k + (s'.index - s.index) = s'.index + k
  omega

variable {e : Expr} {g : Nat} {s s' : Supply}

/-- Where the order of constants does not matter, two supplies lead to the same expansion: the second
run goes as the first one, with the indices that it takes renumbered. -/
theorem lower_expand_agrees [F : Folding] (complete : F.Complete) (symmetric : F.Symmetric)
    (formed : Formed e) (plain : Unlabelled e) (gradless : ∀ x, Within x e → x.kind ≠ .grad)
    (domain : OnDomain g e) (above : s.Above e) (order : s.index ≤ s'.index) :
    Agree Eq (e.lowerExpand s) (e.lowerExpand s') := by
  have lowered := lower_twins complete formed plain gradless domain
    (fun x i inside mentions => Renumbering.shift_below (above x inside i mentions)) s s'
    (Renumbering.shift_follows order)
  exact lowered.bind fun _ _ ⟨twins, _⟩ =>
    expand_renumbered complete symmetric twins.renumbered twins.formed twins.formed'

section Sample

def sampleSquare : Expr := .terminal (.coefficient ⟨0, .tensor [2, 2] 2⟩)

/-- The diagonal of a transposed matrix. -/
def sampleEntry : Expr :=
  .node .indexed [.node .transposed [sampleSquare] [2, 2] ∅, multiIndex [.free ⟨3⟩, .free ⟨3⟩]] []
    (.single ⟨3⟩ 2)

/-- Its trace, summed over an index. -/
def sampleTrace : Expr := .node .indexSum [sampleEntry, multiIndex [.free ⟨3⟩]] [] ∅

theorem sample_trace_made : Constructible sampleTrace := by
  have transposed : Operator.assemble .transposed [sampleSquare] =
      .ok (.node .transposed [sampleSquare] [2, 2] ∅) := by cbv
  have entry : Operator.assemble .indexed [.node .transposed [sampleSquare] [2, 2] ∅,
      multiIndex [.free ⟨3⟩, .free ⟨3⟩]] = .ok sampleEntry := by cbv
  have trace : Operator.assemble .indexSum [sampleEntry, multiIndex [.free ⟨3⟩]] = .ok sampleTrace := by cbv
  exact .assemble .indexSum (by decide) (operands_pair (.assemble .indexed (by decide) (operands_pair
    (.assemble .transposed (by decide) (List.forall_mem_singleton.mpr (.terminal _)) transposed)
    (.terminal _)) entry) (.terminal _)) trace

/-- The sum of the two components on the diagonal. -/
def sampleDiagonal : Expr :=
  .node .sum [.node .indexed [sampleSquare, multiIndex [.fixed 0, .fixed 0]] [] ∅,
    .node .indexed [sampleSquare, multiIndex [.fixed 1, .fixed 1]] [] ∅] [] ∅

end Sample

end FormCalculus
