import FormCalculus.Proofs.LoweringNothing
import FormCalculus.Proofs.Obtainable
import FormCalculus.Proofs.Reusing

/-!
Normal forms. Made again from its operands, each node of what the constructors, the arithmetic, the
closed forms and the passes make is the node it was; and such expressions are all that can be made.
-/
set_option autoImplicit false

namespace FormCalculus.Expr

variable {e x : Expr}

/-- Its constructor gives it back for its operands, with the same bodies under its labels, and takes
nothing from the supply. -/
def Normal (x : Expr) : Prop := ∀ supply, x.reconstruct x.operands supply = .ok (x, supply)

theorem Formed.normal (formed : Formed x) : Normal x :=
  fun _ => reconstruct_operands formed

theorem Normal.constructible (normal : Normal x) (below : ∀ o ∈ x.operands, Constructible o) :
    Constructible x := by
  have run := normal {}
  cases x with
  | terminal data => exact .terminal data
  | node op operands shape free =>
      cases reconstruct_cases run with
      | node built => exact .build below built
  | labelled label body =>
      have labelled : withLabel label body = .ok _ := ((Fresh.lift_ok _ _).mp run).1
      exact .labelled (below body List.mem_cons_self) labelled

theorem constructible_of_normal (normal : ∀ x, Within x e → Normal x) : Constructible e := by
  induction e with
  | terminal data => exact .terminal data
  | node op operands shape free ih =>
      refine (normal _ (.refl _)).constructible fun o member => ?_
      exact ih o member fun x inside => normal x (inside.trans (Within.operand member))
  | labelled label body ih =>
      refine (normal _ (.refl _)).constructible fun o member => ?_
      obtain rfl := List.mem_singleton.mp member
      exact ih fun x inside => normal x (inside.trans (Within.operand member))

theorem Constructible.obtainable (made : Constructible e) : Obtainable e := by
  induction made with
  | terminal data => exact .terminal data
  | build _ run ih => exact .build ih run
  | labelled _ run ih => exact .label ih run
  | operand _ member ih => exact ih.operand member

/-- What can be made is what is in normal form throughout: no other pass through the constructors
simplifies, reorders or refuses a part of it, and whatever they would leave as it stands they make. -/
theorem obtainable_iff_normal (e : Expr) : Obtainable e ↔ ∀ x, Within x e → Normal x :=
  ⟨fun made _ inside => (made.formed.within inside).normal,
    fun normal => (constructible_of_normal normal).obtainable⟩

/-- The arithmetic, the closed forms and the passes make nothing that the constructors do not. -/
theorem constructible_iff_obtainable : Constructible e ↔ Obtainable e :=
  ⟨Constructible.obtainable, fun made => constructible_of_normal ((obtainable_iff_normal e).mp made)⟩

/-- A pass that makes every part again gives the expression back, if it has one body for each label. -/
theorem rebuilding_stays (made : Obtainable e) (consistent : Consistent e) (supply : Supply) :
    e.transform Rules.rebuilding supply = .ok (e, supply) := by
  have settles : Settles Rules.rebuilding e fun x v => v = x := by
    refine ⟨fun left right same kept => ?_, fun {x values} supply inside below => ?_⟩
    · exact kept.trans (same_eq_within consistent left right same)
    · obtain rfl : x.operands = values := List.forall₂_eq_eq_eq ▸ below.imp fun _ _ kept => kept.symm
      -- The values of its operands are the operands, from which a normal form is made again.
      have normal := (made.formed.within inside).normal
      exact ⟨_, x, Rules.rebuilding_rule x.kind, (Fresh.map_error_ok _ _ _).mpr (normal supply), rfl⟩
  obtain ⟨r, run, rfl⟩ := transform_settles settles supply
  exact run

section Sample

/-- A matrix under a label, and a vector. -/
def labelledMatrix : Expr := .labelled ⟨0⟩ (.terminal (.coefficient ⟨0, .tensor [2, 2] 2⟩))

def rightVector : Expr := .terminal (.coefficient ⟨1, .vector 2 2⟩)

def rightEntry : Expr :=
  .node .indexed [rightVector, multiIndex [.free ⟨1⟩]] [] (.single ⟨1⟩ 2)

theorem entry_indices_increasing :
    [((⟨0⟩, 2) : Index × Nat), (⟨1⟩, 2)].Pairwise fun a b => a.1.number < b.1.number := by
  decide

def leftEntry : Expr :=
  .node .indexed [labelledMatrix, multiIndex [.free ⟨0⟩, .free ⟨1⟩]] []
    ⟨[(⟨0⟩, 2), (⟨1⟩, 2)], entry_indices_increasing⟩

def entryProduct (left right : Expr) : Expr :=
  .node .product [left, right] [] ⟨[(⟨0⟩, 2), (⟨1⟩, 2)], entry_indices_increasing⟩

/-- The matrix times the vector. -/
def labelledProduct : Expr :=
  .node .componentTensor [.node .indexSum [entryProduct rightEntry leftEntry, multiIndex [.free ⟨1⟩]]
    [] (.single ⟨0⟩ 2), multiIndex [.free ⟨0⟩]] [2] ∅

/-- The product and the factors in it are in normal form. With the factors in the other order the
constructors make none. -/
theorem labelled_product_normal : Obtainable labelledProduct ∧ Normal labelledProduct ∧
    Normal (entryProduct rightEntry leftEntry) ∧ ¬ Obtainable (entryProduct leftEntry rightEntry) := by
  have named : withLabel ⟨0⟩ (.terminal (.coefficient ⟨0, .tensor [2, 2] 2⟩)) = .ok labelledMatrix :=
    rfl
  have matrix : Obtainable labelledMatrix := .label (.terminal _) named
  have run : labelledMatrix.mul rightVector {} = .ok (labelledProduct, { index := 2 }) := by cbv
  have made : Obtainable labelledProduct := .mul matrix (.terminal _) run
  have inside : Within (entryProduct rightEntry leftEntry) labelledProduct :=
    .step List.mem_cons_self (.operand List.mem_cons_self)
  have normal := (obtainable_iff_normal labelledProduct).mp made
  refine ⟨made, normal _ (.refl _), normal _ inside, fun swapped => ?_⟩
  have sorted : (entryProduct leftEntry rightEntry).reconstruct [leftEntry, rightEntry] {} =
      .ok (entryProduct rightEntry leftEntry, {}) := by cbv
  have kept := (obtainable_iff_normal _).mp swapped _ (.refl _) {}
  simpa [entryProduct, rightEntry, leftEntry, rightVector, labelledMatrix] using sorted.symm.trans kept

end Sample

end FormCalculus.Expr
