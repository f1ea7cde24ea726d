import FormCalculus.Proofs.Constructible

/-!
Expressions whose subscripts are fair: no tensor is subscripted by an index that is free in it.
A component tensor over the subscripts of a tensor is the tensor again, which for unfair subscripts
would leave the bound index free.
-/
set_option autoImplicit false

namespace FormCalculus

namespace Expr

/-- No tensor in it is subscripted by an index that is free in the tensor. -/
def Fair (e : Expr) : Prop :=
  ∀ tensor items shape free, Within (.node .indexed [tensor, multiIndex items] shape free) e →
    ∀ i, .free i ∈ items → ¬ tensor.free.contains i = true

theorem Fair.operand {o e : Expr} (fair : Fair e) (member : o ∈ e.operands) : Fair o :=
  fun tensor items shape free inside => fair tensor items shape free (.step member inside)

/-- Typed, fair, and without labels. -/
structure Tame (e : Expr) : Prop where
  typed : WellTyped e
  plain : Unlabelled e
  fair : Fair e

theorem Tame.operand {o e : Expr} (tame : Tame e) (member : o ∈ e.operands) : Tame o :=
  ⟨tame.typed.operand member, tame.plain.operand member, tame.fair.operand member⟩

theorem Tame.within {x e : Expr} (tame : Tame e) (inside : Within x e) : Tame x := by
  induction inside with
  | refl => exact tame
  | step member _ ih => exact ih (tame.operand member)

theorem tame_terminal (data : Terminal) : Tame (.terminal data) := by
  refine ⟨.terminal data, fun x inside => ?_, fun tensor items shape free inside => ?_⟩
  · cases inside with
    | refl => cases data <;> nofun
    | step member => cases member
  · cases inside with
    | step member => cases member

theorem tame_node {op : Operator} {operands : List Expr} {shape : Shape} {free : FreeIndices}
    (types : op.Types operands shape free) (tame : ∀ o ∈ operands, Tame o)
    (fair : ∀ tensor items, op = .indexed → operands = [tensor, multiIndex items] →
      ∀ i, .free i ∈ items → ¬ tensor.free.contains i = true) :
    Tame (.node op operands shape free) := by
  refine ⟨.node types fun o member => (tame o member).typed, fun x inside => ?_,
    fun tensor items shape free inside => ?_⟩
  · cases inside with
    | refl => cases op <;> nofun
    | step member below => exact (tame _ member).plain x below
  · cases inside with
    | refl => exact fair tensor items rfl rfl
    | step member below => exact (tame _ member).fair tensor items shape free below

/-- What is built without subscripts is tame. -/
theorem tame_of_built {e : Expr} (built : Built (· ≠ .indexed) Tame e) : Tame e := by
  induction built with
  | given tame => exact tame
  | terminal data => exact tame_terminal data
  | operand _ member ih => exact ih.operand member
  | node other types _ _ ih => exact tame_node types ih fun _ _ same => absurd same other

theorem tame_subscripted {e r : Expr} {items : List IndexItem} (tame : Tame e)
    (fresh : ∀ i, .free i ∈ items → ¬ e.free.contains i = true) (made : Subscripted e items r) :
    Tame r := by
  induction made with
  | whole => exact tame
  | zero => exact tame_terminal _
  | identity => exact tame_of_built (.int _)
  | @entry entries shape free position items entry r found _ ih =>
      have member := List.mem_of_getElem? found
      obtain _ | ⟨types, _⟩ := tame.typed
      cases types with
      | listTensor _ same =>
          refine ih (tame.operand member) fun i inside => ?_
          rw [(same entry member).2]
          exact fresh i (List.mem_cons_of_mem _ inside)
  | @node e items free some subscribed =>
      refine tame_node (.indexed some subscribed) (operands_pair tame (tame_terminal _)) ?_
      intro tensor items' _ same
      cases same
      exact fresh

/-- The shape of a tensor that can be subscripted, and what is free in its components. -/
theorem subscripted_stored {e r : Expr} {items : List IndexItem} (typed : WellTyped e)
    (made : Subscripted e items r) : items.length = e.shape.length ∧ r.shape = [] ∧
      ∀ i d, r.free.dim? i = some d → e.free.dim? i = some d ∨ (.free i, d) ∈ items.zip e.shape := by
  induction made with
  | whole scalar => exact ⟨by rw [scalar]; rfl, scalar, fun i d found => .inl found⟩
  | zero subscribed => exact ⟨subscribed.length, rfl, fun i d found => (subscribed.dims i d).mp found⟩
  | identity =>
      refine ⟨rfl, ?_, fun i d found => ?_⟩
      · unfold int
        split <;> rfl
      · exfalso
        revert found
        unfold int
        split <;> nofun
  | @entry entries shape free position items entry r found _ ih =>
      have member := List.mem_of_getElem? found
      have below := typed.operand member
      obtain _ | ⟨types, _⟩ := typed
      cases types with
      | listTensor _ same =>
          obtain ⟨length, scalar, free⟩ := ih below
          obtain ⟨rfl, rfl⟩ := same entry member
          exact ⟨congrArg Nat.succ length, scalar, fun i d found =>
            (free i d found).imp_right (List.mem_cons_of_mem _)⟩
  | node some subscribed =>
      exact ⟨subscribed.length, rfl, fun i d found => (subscribed.dims i d).mp found⟩

theorem free_injective : Function.Injective IndexItem.free := fun _ _ same => IndexItem.free.inj same

theorem mem_zip_free {indices : List Index} {shape : Shape} {i : Index} {d : Nat} :
    (.free i, d) ∈ (indices.map IndexItem.free).zip shape ↔ (i, d) ∈ indices.zip shape := by
  simp [List.zip_map_left]

/-- Indices that a tensor is subscripted by are free in what comes out. -/
theorem subscripted_indices {e r : Expr} {indices : List Index}
    (made : Subscripted e (indices.map .free) r) :
    ∀ i d, (i, d) ∈ indices.zip e.shape → r.free.dim? i = some d := by
  generalize same : indices.map IndexItem.free = items at made
  cases made with
  | whole => exact List.map_eq_nil_iff.mp same ▸ nofun
  | zero subscribed | node _ subscribed =>
      exact fun i d pair => (subscribed.dims i d).mpr (.inr (same ▸ mem_zip_free.mpr pair))
  | identity | entry =>
      obtain _ | ⟨_, _⟩ := indices <;> cases same

theorem to_expr_stored (k : Constant) : k.toExpr.shape = [] ∧ k.toExpr.free = ∅ := by
  cases k <;> exact ⟨rfl, rfl⟩

theorem int_stored (value : Int64) : (int value).shape = [] ∧ (int value).free = ∅ := by
  unfold int
  split <;> exact ⟨rfl, rfl⟩

theorem real_stored (value : Binary64) : (real value).shape = [] ∧ (real value).free = ∅ := by
  unfold real
  split <;> exact ⟨rfl, rfl⟩

theorem constant_scalar {e : Expr} {k : Constant} (known : e.constant? = some k) : e.shape = [] := by
  unfold constant? at known
  split at known <;> first | rfl | cases known

theorem fold_stored [Folding] {op : Constant.Operation} {a b r : Expr}
    (folded : fold? op a b = some r) : a.shape = [] ∧ r.shape = [] ∧ r.free = ∅ := by
  obtain ⟨x, y, z, left, _, _, rfl⟩ := fold_some folded
  exact ⟨constant_scalar left, to_expr_stored z⟩

/-- A property of typed expressions that the constructors keep, as long as no tensor is subscripted by
an index that is free in the tensor. -/
class KeptByBuilding (P : Expr → Prop) : Prop where
  typed {e : Expr} : P e → WellTyped e
  built {e : Expr} : Built (· ≠ .indexed) P e → P e
  subscript {e r : Expr} {items : List IndexItem} : P e →
    (∀ i, .free i ∈ items → ¬ e.free.contains i = true) → e.subscript items = .ok r → P r

instance : KeptByBuilding WellTyped where
  typed typed := typed
  built built := built.well_typed fun _ typed => typed
  subscript typed _ run :=
    (Built.subscript trivial (.given typed) run : Built (fun _ => True) WellTyped _).well_typed
      fun _ typed => typed

instance : KeptByBuilding Tame where
  typed := Tame.typed
  built := tame_of_built
  subscript tame fresh run := tame_subscripted tame fresh (subscript_cases run)

end Expr

end FormCalculus
