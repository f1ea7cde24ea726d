import FormCalculus.Proofs.Occurring
import FormCalculus.Proofs.Rebuilding
import FormCalculus.Proofs.Stripping
import FormCalculus.Proofs.Totality

/-!
Stripping leaves no label, so that stripping again changes nothing. Over the operators that take
whatever has the type of their operands, it always succeeds and keeps the type.
-/
set_option autoImplicit false

namespace FormCalculus

namespace Expr

variable {e r s v x : Expr} {values : List Expr} {supply after : Supply}

/-! Nothing that stripping keeps or makes has a label, whatever its labels stand for. -/

theorem build_unlabelled {op : Operator} (plain : ∀ o ∈ values, Unlabelled o)
    (run : op.build values supply = .ok (r, after)) : Unlabelled r := by
  have built : Built (fun _ => True) (· ∈ values) r :=
    Built.build (fun _ _ => trivial) trivial (fun _ member => .given member) run
  exact built_unlabelled plain built

theorem reuse_unlabelled (formed : Formed x) (kind : x.kind ≠ .labelled)
    (below : ∀ o ∈ values, Unlabelled o ∧ Formed o)
    (run : x.reuse values supply = .ok (v, after)) : Unlabelled v ∧ Formed v := by
  -- An expression is only kept over operands that have no label themselves.
  obtain ⟨same, rfl, _⟩ | rebuilt := reuse_cases run
  · have own : values = v.operands := has_operands_eq (fun o member => (below o member).1) same
    refine ⟨unlabelled_of_operands kind fun o member => ?_, formed⟩
    exact (below o (own ▸ member)).1
  · cases reconstruct_cases rebuilt with
    | terminal data => exact ⟨unlabelled_terminal data, formed⟩
    | labelled => exact absurd rfl kind
    | node built =>
        exact ⟨build_unlabelled (fun o member => (below o member).1) built,
          build_formed (fun o member => (below o member).2) built⟩

/-- The bodies that stand for labels have none. -/
def BodiesUnlabelled (bodies : StrippedBodies) : Prop :=
  ∀ label first, bodies.lookup label = some first → Unlabelled first ∧ Formed first

theorem unlabelled_upkeep (formed : Formed e) :
    Upkeep stripRules e False (fun (_ : Unit) _ v => Unlabelled v ∧ Formed v)
      (fun _ bodies _ => BodiesUnlabelled bodies) where
  grows _ plain := plain
  alike _ _ _ _ plain := plain
  rule {w bodies now x values} inside below known := by
    have plain : ∀ o ∈ values, Unlabelled o ∧ Formed o := fun o member =>
      have ⟨_, _, both⟩ := pairs_member below member
      both
    by_cases kind : x.kind = .labelled
    · rw [kind]
      cases x with
      | terminal data => cases data <;> cases kind
      | node op => cases op <;> cases kind
      | labelled label body =>
          obtain ⟨v, rfl, here⟩ := pairs_one below
          refine ⟨_, strip_rule_labelled, strip_label_ends (fun first found => ?_) fun _ => ?_⟩
          · exact ⟨(), le_refl _, known label first found, known⟩
          · refine ⟨(), le_refl _, here, fun other first found => ?_⟩
            have found : ((label, v) :: bodies).lookup other = some first := found
            rw [List.lookup_cons] at found
            split at found
            · cases found
              exact here
            · exact known other first found
    · refine ⟨_, strip_rule_other kind, ends_bind.mpr ?_⟩
      show Ends _ (x.reuse values now) _
      cases run : x.reuse values now with
      | error err => exact id
      | ok result =>
          exact ⟨(), le_refl _, reuse_unlabelled (formed.within inside) kind plain run, known⟩

/-- What has been stripped has no label, and stripping it gives it back. -/
theorem strip_labels_leaves_none (formed : Formed e)
    (run : e.stripLabels supply = .ok (s, after)) :
    Unlabelled s ∧ ∀ later, s.stripLabels later = .ok (s, later) := by
  have start : BodiesUnlabelled [] := nofun
  obtain ⟨_, ran⟩ := run_state_ok run
  obtain ⟨_, _, ⟨plain, made⟩, _⟩ := (transform_ends (unlabelled_upkeep formed) (w := ()) start).of_ok ran
  exact ⟨plain, fun later => strip_labels_plain made plain⟩

end Expr

/-- Operators over which operands can be exchanged for others of their type. -/
def Operator.isPlain : Operator → Bool
  | .sum | .product | .sqrt | .indexed | .indexSum | .listTensor | .conditional | .condition _ => true
  | _ => false

/-! Over such operators stripping always succeeds. -/

namespace Expr

variable {e x : Expr}

/-- `t` can take the place of `x` under an operator that looks at types only. -/
structure Stripped (x t : Expr) : Prop where
  run : stripped x = .ok t
  typed : WellTyped t
  fills : Fills x t
  test : x.kind = .condition → t.kind = .condition

theorem Stripped.label {label : Label} {body t : Expr} (below : Stripped body t) :
    Stripped (.labelled label body) t :=
  ⟨by rw [stripped]; exact below.run, below.typed, ⟨below.fills.shape, below.fills.free, nofun⟩, nofun⟩

theorem assemble_exchanged {op : Operator} {xs ts : List Expr} {shape : Shape} {free : FreeIndices}
    (plain : op.isPlain = true) (types : op.Types xs shape free)
    (below : List.Forall₂ Stripped xs ts) : ∃ r, op.assemble ts = .ok r := by
  -- Operands of the same types are accepted.
  cases types with
  | sum same same' =>
      obtain ⟨t, u, rfl, left, right⟩ := pairs_two below
      refine add_total ?_ ?_
      · rw [left.fills.shape, right.fills.shape, same]
      · rw [left.fills.free, right.fills.free, same']
  | product scalar scalar' union =>
      obtain ⟨t, u, rfl, left, right⟩ := pairs_two below
      rw [← left.fills.free, ← right.fills.free] at union
      exact scalar_product_total (left.fills.shape.trans scalar) (right.fills.shape.trans scalar') union
  | sqrt scalar =>
      obtain ⟨t, rfl, operand⟩ := pairs_one below
      exact sqrt_total (operand.fills.shape.trans scalar)
  | indexed _ subscribes =>
      obtain ⟨t, ii, rfl, tensor, items⟩ := pairs_two below
      obtain rfl := items.fills.multi_index
      rw [← tensor.fills.shape, ← tensor.fills.free] at subscribes
      exact typed_subscript_total tensor.typed subscribes
  | indexSum scalar known =>
      obtain ⟨t, ii, rfl, summand, items⟩ := pairs_two below
      obtain rfl := items.fills.multi_index
      rw [← summand.fills.free] at known
      exact index_sum_total (summand.fills.shape.trans scalar) known
  | listTensor some same =>
      have some : ts ≠ [] := fun none => some (List.length_eq_zero_iff.mp (by
        rw [below.length_eq, none]
        rfl))
      obtain ⟨r, run, _⟩ := list_tensor_total some fun t member => by
        obtain ⟨x, inside, exchanged⟩ := pairs_member below member
        rw [exchanged.fills.shape, exchanged.fills.free]
        exact same x inside
      exact ⟨r, run⟩
  | conditional test same same' union =>
      obtain ⟨c, t, u, rfl, first, left, right⟩ := pairs_three below
      rw [← first.fills.free, ← left.fills.free] at union
      have types := Operator.Types.conditional (first.test test)
        (left.fills.shape.trans (same.trans right.fills.shape.symm))
        (left.fills.free.trans (same'.trans right.fills.free.symm)) union
      exact ⟨_, Operator.assembles types trivial trivial⟩
  | @condition op _ _ arity tests dims =>
      have types : Operator.Types (.condition op) ts [] free := by
        refine .condition (below.length_eq.symm.trans arity) (fun t member => ?_) fun i d => ?_
        · obtain ⟨x, inside, exchanged⟩ := pairs_member below member
          obtain ⟨scalar, test⟩ := tests x inside
          exact ⟨exchanged.fills.shape.trans scalar, fun logical => exchanged.test (test logical)⟩
        · rw [dims]
          constructor
          · rintro ⟨x, inside, found⟩
            obtain ⟨t, pair⟩ := partner_right below.length_eq inside
            exact ⟨t, (List.of_mem_zip pair).2, (List.forall₂_zip below pair).fills.free ▸ found⟩
          · rintro ⟨t, member, found⟩
            obtain ⟨x, inside, exchanged⟩ := pairs_member below member
            exact ⟨x, inside, exchanged.fills.free ▸ found⟩
      exact ⟨_, Operator.assembles types trivial trivial⟩
  | _ => cases plain

def isPlainNode : Expr → Bool
  | .node op _ _ _ => op.isPlain
  | .terminal _ | .labelled _ _ => true

/-- Every operator in it is plain. -/
def BuiltPlainly (e : Expr) : Prop := ∀ x, Within x e → x.isPlainNode = true

instance (e : Expr) : Decidable (BuiltPlainly e) :=
  inferInstanceAs (Decidable (∀ x, Within x e → x.isPlainNode = true))

theorem stripped_exchanged (typed : WellTyped x) (plainly : BuiltPlainly x) : ∃ t, Stripped x t := by
  induction x with
  | terminal data => exact ⟨_, rfl, typed, ⟨rfl, rfl, fun _ => rfl⟩, id⟩
  | labelled label body ih =>
      have member : body ∈ (labelled label body).operands := List.mem_cons_self
      obtain ⟨t, below⟩ := ih (typed.operand member)
        fun y inside => plainly y (.step member inside)
      exact ⟨t, below.label⟩
  | node op operands shape free ih =>
      have plain : op.isPlain = true := plainly _ (.refl _)
      obtain ⟨ts, below⟩ := pairs_exist fun o member => ih o member (typed.operand member)
        fun y inside => plainly y (.step member inside)
      obtain _ | ⟨types, _⟩ := typed
      obtain ⟨r, run⟩ := assemble_exchanged plain types below
      have all : strippedAll operands = .ok ts := stripped_all_ok.mpr (below.imp fun _ _ => Stripped.run)
      have fine : ∀ t ∈ ts, WellTyped t := fun t member =>
        have ⟨_, _, exchanged⟩ := pairs_member below member
        exchanged.typed
      have type : r.shape = shape ∧ r.free = free := by
        refine (Operator.assemble_filled types ?_ (below.imp fun _ _ => Stripped.fills) ?_ fine run).mpr
          ⟨?_, ?_⟩
        · cases op <;> trivial
        · rintro (rfl | ⟨rfl, _⟩) <;> cases plain
        · cases op <;> first | exact id | cases plain
        · cases op <;> first | exact id | cases plain
      refine ⟨r, stripped_node.mpr ⟨ts, all, run⟩, assemble_well_typed fine run,
        ⟨type.1, type.2, fun items => ?_⟩, fun test => ?_⟩
      · cases op <;> cases items
      · cases op with
        | condition op =>
            obtain ⟨_, _, rfl⟩ := condition_cases run
            rfl
        | _ => cases test

/-- Stripping leaves no label and changes nothing when it is done again. Over plain operators it
succeeds with the type of the expression. -/
theorem strip_labels_all (made : Constructible e) :
    (∀ s supply after, e.stripLabels supply = .ok (s, after) →
      Unlabelled s ∧ ∀ later, s.stripLabels later = .ok (s, later)) ∧
    ((∀ label a b, Within (labelled label a) e → Within (labelled label b) e → (a == b) = true) →
      BuiltPlainly e →
        ∀ supply, ∃ s, e.stripLabels supply = .ok (s, supply) ∧ s.shape = e.shape ∧ s.free = e.free) := by
  refine ⟨fun s supply after run => strip_labels_leaves_none made.formed run,
    fun agreeing plainly supply => ?_⟩
  have coherent := (consistent_of_agreeing agreeing).coherent
  have strippable : Strippable e := by
    intro op operands shape free ts inside _
    have plain : op.isPlain = true := plainly _ inside
    refine spreads_other fun product => ?_
    simp only [List.mem_cons, List.not_mem_nil, or_false] at product
    rcases product with rfl | rfl | rfl <;> cases plain
  obtain ⟨s, exchanged⟩ := stripped_exchanged made.well_typed plainly
  exact ⟨s, (strip_labels_ok made.formed coherent strippable).mpr ⟨exchanged.run, rfl⟩,
    exchanged.fills.shape, exchanged.fills.free⟩

def strippedField (number : Nat) : Expr := .terminal (.coefficient ⟨number, ⟨[], 2, none⟩⟩)

def fieldName : Expr := .labelled ⟨0⟩ (strippedField 0)

/-- A choice between a field under a label and another, by a comparison of the two. -/
def namedChoice : Expr :=
  .node .conditional [.node (.condition .lt) [fieldName, strippedField 1] [] ∅, fieldName,
    .labelled ⟨1⟩ (.node .sqrt [fieldName] [] ∅)] [] ∅

theorem named_choice_stripped : Constructible namedChoice ∧
    (∀ label a b, Within (labelled label a) namedChoice → Within (labelled label b) namedChoice →
      (a == b) = true) ∧ BuiltPlainly namedChoice ∧
    ∃ s, namedChoice.stripLabels {} = .ok (s, {}) ∧ (s.shape = [] ∧ s.free = ∅) ∧
      Unlabelled s ∧ ∀ later, s.stripLabels later = .ok (s, later) := by
  have field (number : Nat) : Constructible (strippedField number) := .terminal _
  have name : Constructible fieldName := .labelled (field 0) rfl
  have root : Constructible (.node .sqrt [fieldName] [] ∅) :=
    .assemble .sqrt (by decide) (List.forall_mem_singleton.mpr name) (by cbv)
  have test : Constructible (.node (.condition .lt) [fieldName, strippedField 1] [] ∅) :=
    .assemble (.condition .lt) (by decide) (operands_pair name (field 1)) (by cbv)
  have made : Constructible namedChoice := .assemble .conditional (by decide)
    (List.forall_mem_cons.mpr ⟨test, operands_pair name (.labelled root rfl)⟩) (by cbv)
  have bodies : ∀ x ∈ parts namedChoice, ∀ label b, x = .labelled label b →
      [strippedField 0, .node .sqrt [fieldName] [] ∅][label.number]? = some b := by
    simp +contextual [namedChoice, fieldName, strippedField, parts, partsAll]
  have plainly : BuiltPlainly namedChoice := by decide
  obtain ⟨clears, succeeds⟩ := strip_labels_all made
  obtain ⟨s, run, type⟩ := succeeds (agreeing_of_bodies bodies) plainly {}
  exact ⟨made, agreeing_of_bodies bodies, plainly, s, run, type, clears s {} {} run⟩

end Expr

end FormCalculus
