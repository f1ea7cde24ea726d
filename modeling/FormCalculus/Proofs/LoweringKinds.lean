import FormCalculus.Proofs.Constructible
import FormCalculus.Proofs.LoweringRules
import FormCalculus.Proofs.Transforming

/-!
What lowering leaves of the compound operators. Outside the bodies of labelled expressions it
leaves none. A node is kept as it stands, bodies included, when its operands seem unchanged, and
operands are told apart by labels, so a change inside a body is missed from two levels up.
-/
set_option autoImplicit false

namespace FormCalculus.Expr

/-- `v` is `e` or lies below it, outside the bodies of labelled expressions. -/
inductive Visible : Expr → Expr → Prop
  | refl (e : Expr) : Visible e e
  | step {v o : Expr} {op : Operator} {operands : List Expr} {shape : Shape} {free : FreeIndices} :
      o ∈ operands → Visible v o → Visible v (.node op operands shape free)

theorem Visible.trans {u v e : Expr} (inner : Visible u v) (outer : Visible v e) : Visible u e := by
  induction outer with
  | refl => exact inner
  | step member _ ih => exact .step member ih

theorem Visible.within {v e : Expr} (visible : Visible v e) : Within v e := by
  induction visible with
  | refl => exact .refl _
  | step member _ ih => exact .step member ih

/-- What is left of an expression without the labels around it. -/
def core : Expr → Expr
  | .labelled _ body => core body
  | e => e

def HasCompound (e : Expr) : Prop := ∃ x, Within x e ∧ x.kind.isCompound = true

def OpenCompound (e : Expr) : Prop := ∃ x, Visible x e ∧ x.kind.isCompound = true

/-- Its compound operators are all in bodies that its operands do not wrap directly. -/
structure Blind (x : Expr) : Prop where
  simple : x.kind.isCompound = false
  covered : ∀ o ∈ x.operands, ¬ OpenCompound o.core
  compound : HasCompound x

/-- Equal expressions show operators of the same kinds. -/
theorem same_visible {a b v : Expr} (same : (a == b) = true) (inside : Visible v b) :
    ∃ w, Visible w a ∧ w.kind = v.kind := by
  induction inside generalizing a with
  | refl => exact ⟨a, .refl a, same_kind same⟩
  | @step o op operands shape free member _ ih =>
      cases a with
      | terminal data => simp at same
      | labelled label body => simp at same
      | node op' operands' shape' free' =>
          simp only [node_same, Bool.and_eq_true, beq_iff_eq, operands_same_iff] at same
          obtain ⟨_, pairs⟩ := same
          obtain ⟨p, pair⟩ := partner_left pairs.length_eq member
          obtain ⟨w, inside, kind⟩ := ih (List.forall₂_zip pairs pair)
          exact ⟨w, .step (List.of_mem_zip pair).1 inside, kind⟩

/-- A compound operator that an expression shows is not a labelled expression, so its core shows it. -/
theorem visible_core {x e : Expr} (inside : Visible x e) (compound : x.kind.isCompound = true) :
    Visible x e.core := by
  cases e with
  | terminal data => exact inside
  | node op operands shape free => exact inside
  | labelled label body =>
      cases inside
      cases compound

theorem Blind.visible_simple {x v : Expr} (blind : Blind x) (inside : Visible v x) :
    v.kind.isCompound = false := by
  cases inside with
  | refl => exact blind.simple
  | @step o _ _ _ _ member below =>
      refine Bool.eq_false_iff.mpr fun compound => ?_
      exact blind.covered o member ⟨v, visible_core below compound, compound⟩

/-- Parts of blind expressions as they stand, and simple nodes over what is kept. -/
inductive Kept (e : Expr) : Expr → Prop
  | stale {x v : Expr} : Within x e → Blind x → Visible v x → Kept e v
  | build {v : Expr} : v.kind.isCompound = false → (∀ o ∈ v.operands, Kept e o) → Kept e v

theorem Kept.visible_simple {e v x : Expr} (kept : Kept e v) (inside : Visible x v) :
    x.kind.isCompound = false := by
  induction kept with
  | stale _ blind part => exact blind.visible_simple (inside.trans part)
  | build simple _ ih =>
      cases inside with
      | refl => exact simple
      | step member below => exact ih _ member below

/-- A compound operator in what is kept lies in a part of a blind expression. -/
theorem Kept.compound_within {e v x : Expr} (kept : Kept e v) (inside : Within x v)
    (compound : x.kind.isCompound = true) :
    ∃ b w, Within b e ∧ Blind b ∧ Visible w b ∧ Within w v ∧ Within x w := by
  induction kept with
  | stale below blind part => exact ⟨_, _, below, blind, part, .refl _, inside⟩
  | build simple _ ih =>
      cases inside with
      | refl =>
          rw [simple] at compound
          cases compound
      | step member deeper =>
          obtain ⟨b, w, below, blind, part, held, within⟩ := ih _ member deeper
          exact ⟨b, w, below, blind, part, .step member held, within⟩

theorem kept_of_none {e v : Expr} (none : ¬ HasCompound v) : Kept e v := by
  induction v with
  | terminal data => exact .build (Bool.eq_false_iff.mpr fun compound => none ⟨_, .refl _, compound⟩) nofun
  | node op operands shape free ih =>
      refine .build (Bool.eq_false_iff.mpr fun compound => none ⟨_, .refl _, compound⟩) fun o member => ?_
      exact ih o member fun ⟨x, inside, compound⟩ => none ⟨x, .step member inside, compound⟩
  | labelled label body ih =>
      refine .build rfl (List.forall_mem_singleton.mpr (ih fun ⟨x, inside, compound⟩ => ?_))
      exact none ⟨x, .step List.mem_cons_self inside, compound⟩

/-- What is built from kept expressions with simple operators is kept. -/
theorem kept_of_built {e v : Expr} {ops : Operator → Prop} {given : Expr → Prop}
    (simple : ∀ op, ops op → op.kind.isCompound = false) (kept : ∀ g, given g → Kept e g)
    (built : Built ops given v) : Kept e v := by
  induction built with
  | given known => exact kept _ known
  | terminal data => exact .build (by cases data <;> rfl) nofun
  | operand _ member ih =>
      cases ih with
      | stale below blind part => exact .stale below blind ((Visible.step member (.refl _)).trans part)
      | build _ operands => exact operands _ member
  | node allowed _ _ _ ih => exact .build (simple _ allowed) ih

/-- What lowering makes of `o`: kept expressions, which seem to be `o` only if `o` shows no compound
operator under its labels. -/
def Leaves (e o v : Expr) : Prop := Kept e v ∧ (v.sameThrough o = true → ¬ OpenCompound o.core)

theorem leaves_of_kept {e o v : Expr} (kept : Kept e v) (other : o.kind ≠ .labelled) :
    Leaves e o v := by
  refine ⟨kept, fun same ⟨x, inside, compound⟩ => ?_⟩
  have through : o.core = o ∧ (v == o) = true := by
    cases o with
    | terminal data => cases v <;> exact ⟨rfl, same⟩
    | node op operands shape free => cases v <;> exact ⟨rfl, same⟩
    | labelled => exact absurd rfl other
  rw [through.1] at inside
  obtain ⟨w, inside, kind⟩ := same_visible through.2 inside
  rw [← kind, kept.visible_simple inside] at compound
  cases compound

section Rule

variable [Folding] {e x v : Expr} {values : List Expr} {supply after : Supply}

omit [Folding] in
/-- A node that is reused is blind or has no compound operator. -/
theorem reused_kept (inside : Within x e) (simple : x.kind.isCompound = false)
    (leaves : List.Forall₂ (Leaves e) x.operands values) (same : x.hasOperands values = true) :
    Kept e x := by
  by_cases blind : Blind x
  · exact .stale inside blind (.refl x)
  · refine kept_of_none fun compound => blind ⟨simple, fun o member => ?_, compound⟩
    obtain ⟨v, pair⟩ := partner_right leaves.length_eq member
    have through := List.forall₂_zip (has_operands_pairs same).flip pair
    exact (List.forall₂_zip leaves pair).2 through

theorem built_kept {op : Operator} (kept : ∀ o ∈ values, Kept e o)
    (simple : op.kind.isCompound = false) (run : op.build values supply = .ok (v, after)) :
    Kept e v := by
  have built : Built (fun op => op.kind.isCompound = false) (· ∈ values) v :=
    Built.build (fun op basic => by cases op <;> first | rfl | cases basic) simple
      (fun _ member => .given member) run
  exact kept_of_built (fun _ simple => simple) kept built

/-- The rule for simple kinds. -/
theorem simple_rule_leaves (inside : Within x e) (simple : x.kind.isCompound = false)
    (leaves : List.Forall₂ (Leaves e) x.operands values)
    (run : x.reuse values supply = .ok (v, after)) : Leaves e x v := by
  have kept : ∀ o ∈ values, Kept e o := fun o member => by
    obtain ⟨p, pair⟩ := partner_left leaves.length_eq member
    exact (List.forall₂_zip leaves pair).1
  obtain ⟨same, rfl, _⟩ | rebuilt := reuse_cases run
  · have whole := reused_kept inside simple leaves same
    cases v with
    | terminal data => exact leaves_of_kept whole (by cases data <;> nofun)
    | node op => exact leaves_of_kept whole (by cases op <;> nofun)
    | labelled label body =>
        obtain _ | ⟨first, _ | _⟩ := leaves
        obtain ⟨through, _⟩ := List.forall₂_cons.mp (has_operands_pairs same)
        exact ⟨whole, fun _ => first.2 through⟩
  · cases reconstruct_cases rebuilt with
    | terminal data _ => exact leaves_of_kept (.build simple nofun) (by cases data <;> nofun)
    | @node op _ _ _ _ made => exact leaves_of_kept (built_kept kept simple made) (by cases op <;> nofun)
    | labelled only =>
        subst only
        obtain _ | ⟨first, _⟩ := leaves
        refine ⟨.build rfl (List.forall_mem_singleton.mpr first.1), fun same => ?_⟩
        exact first.2 (Bool.and_eq_true_iff.mp same).2

/-- The rules for compound kinds. -/
theorem compound_rule_leaves {rule : LoweringRule} (typed : WellTyped x)
    (compound : x.kind.isCompound = true) (found : Lowering.rules.rule? x.kind = some rule)
    (leaves : List.Forall₂ (Leaves e) x.operands values)
    (run : rule x values supply = .ok (v, after)) : Leaves e x v := by
  have kept : ∀ o ∈ values, Kept e o := fun o member => by
    obtain ⟨p, pair⟩ := partner_left leaves.length_eq member
    exact (List.forall₂_zip leaves pair).1
  cases typed with
  | terminal data => cases data <;> cases compound
  | labelled => cases compound
  | @node op _ _ _ types _ =>
      have lowered := Lowering.rule_of_compound types compound found leaves.length_eq.symm run
      refine leaves_of_kept (kept_of_built (fun op basic => ?_) kept lowered.built)
        (by cases op <;> nofun)
      cases op <;> first | rfl | cases basic

theorem lower_keeps {r : Expr} (made : Constructible e) (consistent : Consistent e)
    (run : e.lower supply = .ok (r, after)) : Kept e r := by
  have keeps : Keeps Lowering.rules e (Leaves e) (fun _ => True) := by
    intro x values rule v s s' inside found leaves _ ran
    refine ⟨?_, trivial⟩
    cases kind : x.kind.isCompound with
    | true => exact compound_rule_leaves (made.well_typed.within inside) kind found leaves ran
    | false =>
        rw [Lowering.rule_of_simple kind] at found
        cases found
        exact simple_rule_leaves inside kind leaves ran
  exact (transform_keeps consistent keeps trivial run).1.1

end Rule

/-- A square root of a square root of a labelled expression. -/
def doubleRoot (label : Label) (body : Expr) : Expr :=
  .node .sqrt [.node .sqrt [.labelled label body] [] body.free] [] body.free

theorem double_root_consistent {label : Label} {body : Expr} (plain : Unlabelled body) :
    Consistent (doubleRoot label body) := by
  have inner : Consistent (.node .sqrt [.labelled label body] [] body.free) :=
    (consistent_label plain).over rfl nofun
  exact inner.over rfl nofun

/-- Whatever becomes of its body, it comes back as it is where roots and labels are reused: the inner
root is rebuilt around the new body, and seems to the outer one to be the same. -/
theorem double_root_reused [Folding] {rules : Rules (Fresh TransformError) Expr} {label : Label}
    {body v : Expr} {supply after : Supply} (roots : rules.rule? .sqrt = some reuse)
    (labels : rules.rule? .labelled = some reuse) (run : body.transform rules supply = .ok (v, after))
    (scalar : v.shape = []) (kind : v.kind ≠ .multiIndex) (free : v.free = body.free) :
    (doubleRoot label body).transform rules supply = .ok (doubleRoot label body, after) := by
  let inner := Expr.node .sqrt [labelled label body] [] body.free
  have reused {x : Expr} {values : List Expr} (same : x.hasOperands values = true) :
      x.reuse values after = .ok (x, after) := by
    unfold reuse reuseOr
    rw [if_pos same]
    rfl
  have rebuilt {x v : Expr} {values : List Expr} (other : ¬ x.hasOperands values = true)
      (made : x.reconstruct values after = .ok (v, after)) : x.reuse values after = .ok (v, after) := by
    unfold reuse reuseOr
    rw [if_neg other]
    exact (Fresh.map_error_ok _ _ _).mpr made
  have outer {w : Expr} (same : (w == labelled label body) = true) :
      (doubleRoot label body).reuse [.node .sqrt [w] [] body.free] after =
        .ok (doubleRoot label body, after) :=
    reused (by simp [hasOperands, doubleRoot, operands, sameThrough, same])
  cases same : v.sameThrough body with
  | true =>
      have kept : (labelled label body).reuse [v] after = .ok (labelled label body, after) :=
        reused (by simp [hasOperands, operands, same])
      have root : inner.reuse [labelled label body] after = .ok (inner, after) :=
        reused (by simp [hasOperands, operands, inner, same_through_refl])
      exact transform_over rfl (transform_over rfl (transform_over rfl run labels kept) roots root)
        roots (outer (same_refl _))
  | false =>
      have wrapped : (labelled label body).reuse [v] after = .ok (labelled label v, after) := by
        refine rebuilt (by simp [hasOperands, operands, same]) ?_
        simp [reconstruct, operands, withLabel, kind]
      have root : inner.reuse [labelled label v] after =
          .ok (.node .sqrt [labelled label v] [] body.free, after) := by
        refine rebuilt (by simp [hasOperands, operands, inner, sameThrough, same]) ?_
        have unknown : (labelled label v).foldRoot? = none := rfl
        simp [reconstruct, operands, inner, Operator.build, Operator.assemble, sqrt, expectScalar,
          isScalar, Expr.shape, Expr.free, isZero, scalar, free, unknown]
      exact transform_over rfl (transform_over rfl (transform_over rfl run labels wrapped) roots root)
        roots (outer (by simp))

theorem lower_double_root [Folding] {label : Label} {body lowered : Expr} {supply after : Supply}
    (run : body.lower supply = .ok (lowered, after)) (scalar : lowered.shape = [])
    (kind : lowered.kind ≠ .multiIndex) (free : lowered.free = body.free) :
    (doubleRoot label body).lower supply = .ok (doubleRoot label body, after) :=
  double_root_reused rfl rfl run scalar kind free

/-- Lowering leaves no compound operator in the open, and hidden in the bodies of labelled
expressions just what it keeps of blind expressions as they stand; without blind expressions none.
A blind expression can come back whole. -/
theorem lower_leaves_blind [Folding] :
    (∀ e r supply after, Constructible e → Consistent e → e.lower supply = .ok (r, after) →
      ¬ OpenCompound r ∧
      (HasCompound r ↔ ∃ b v, Within b e ∧ Blind b ∧ Visible v b ∧ Within v r ∧ HasCompound v) ∧
      ((∀ b, Within b e → ¬ Blind b) → ¬ HasCompound r)) ∧
    (∀ label body lowered supply after, body.lower supply = .ok (lowered, after) →
      lowered.shape = [] → lowered.kind ≠ .multiIndex → lowered.free = body.free →
      (doubleRoot label body).lower supply = .ok (doubleRoot label body, after)) := by
  refine ⟨fun e r supply after made consistent run => ?_, fun label body lowered supply after run
    scalar kind free => lower_double_root run scalar kind free⟩
  have kept := lower_keeps made consistent run
  have hidden : HasCompound r →
      ∃ b v, Within b e ∧ Blind b ∧ Visible v b ∧ Within v r ∧ HasCompound v := by
    rintro ⟨x, inside, compound⟩
    obtain ⟨b, v, below, blind, part, held, within⟩ := kept.compound_within inside compound
    exact ⟨b, v, below, blind, part, held, x, within, compound⟩
  refine ⟨fun ⟨x, visible, compound⟩ => ?_, ⟨hidden, ?_⟩, fun none compound => ?_⟩
  · rw [kept.visible_simple visible] at compound
    cases compound
  · rintro ⟨_, v, _, _, _, held, x, within, compound⟩
    exact ⟨x, within.trans held, compound⟩
  · obtain ⟨b, _, below, blind, _⟩ := hidden compound
    exact none b below blind

section Sample

/-- A matrix field, its determinant, and the determinant behind two square roots and a label. -/
def sampleMatrix : Expr := .terminal (.coefficient ⟨0, .tensor [2, 2] 2⟩)

def sampleDeterminant : Expr := .node .determinant [sampleMatrix] [] ∅

def sampleRoots : Expr := doubleRoot ⟨0⟩ sampleDeterminant

def sampleEntry (row column : Nat) : Expr :=
  .node .indexed [sampleMatrix, multiIndex [.fixed row, .fixed column]] [] ∅

/-- What the determinant lowers to. -/
def sampleMinor : Expr :=
  .node .sum [.node .product [.terminal (.int (-1)),
    .node .product [sampleEntry 0 1, sampleEntry 1 0] [] ∅] [] ∅,
    .node .product [sampleEntry 0 0, sampleEntry 1 1] [] ∅] [] ∅

theorem sample_determinant_constructible : Constructible sampleDeterminant := by
  have matrix : Constructible sampleMatrix := .terminal _
  exact .assemble .determinant (by decide) (List.forall_mem_singleton.mpr matrix) rfl

theorem sample_roots_constructible : Constructible sampleRoots := by
  have wrapped : Constructible (.labelled ⟨0⟩ sampleDeterminant) :=
    .labelled sample_determinant_constructible rfl
  have inner : Constructible (.node .sqrt [.labelled ⟨0⟩ sampleDeterminant] [] ∅) :=
    .assemble .sqrt (by decide) (List.forall_mem_singleton.mpr wrapped) rfl
  exact .assemble .sqrt (by decide) (List.forall_mem_singleton.mpr inner) rfl

theorem sample_roots_consistent : Consistent sampleRoots := by
  have matrix : Unlabelled sampleMatrix := unlabelled_terminal _
  have plain : Unlabelled sampleDeterminant :=
    unlabelled_of_operands nofun (List.forall_mem_singleton.mpr matrix)
  exact double_root_consistent plain

theorem sample_determinant_lowered [Folding] :
    sampleDeterminant.lower {} = .ok (sampleMinor, {}) := by
  have formula : sampleMatrix.determinantFormula {} = .ok (sampleMinor, {}) := by cbv
  exact transform_over rfl (transform_leaf rfl rfl) rfl ((Fresh.map_error_ok _ _ _).mpr formula)

/-- Lowering gives the two square roots back with the determinant in them. -/
theorem lower_leaves_blind_roots :
    sampleRoots.lower {} = .ok (sampleRoots, {}) ∧ ¬ OpenCompound sampleRoots ∧
      ∃ b v, Within b sampleRoots ∧ Blind b ∧ Visible v b ∧ Within v sampleRoots ∧ HasCompound v := by
  have lowered := sample_determinant_lowered
  have kept : sampleRoots.lower {} = .ok (sampleRoots, {}) :=
    lower_leaves_blind.2 ⟨0⟩ sampleDeterminant sampleMinor {} {} lowered rfl nofun rfl
  obtain ⟨closed, blind, _⟩ := lower_leaves_blind.1 sampleRoots sampleRoots {} {}
    sample_roots_constructible sample_roots_consistent kept
  have compound : HasCompound sampleRoots := by
    refine ⟨sampleDeterminant, ?_, rfl⟩
    exact .step List.mem_cons_self (.step List.mem_cons_self (.operand List.mem_cons_self))
  exact ⟨kept, closed, blind.mp compound⟩

end Sample

end FormCalculus.Expr
