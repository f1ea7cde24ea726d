import FormCalculus.Proofs.Outcome
import FormCalculus.Rewrite

/-!
Equality of expressions is an equivalence that goes with the digest. It compares nodes operand by
operand and labelled expressions by their labels, so without labels it is identity.
-/
set_option autoImplicit false

namespace FormCalculus.Expr

/-- Induction over an expression and, at a node, all of its operands. -/
@[induction_eliminator]
theorem operand_induction {motive : Expr → Prop} (terminal : ∀ data, motive (.terminal data))
    (node : ∀ op operands shape free, (∀ o ∈ operands, motive o) →
      motive (.node op operands shape free))
    (labelled : ∀ label body, motive body → motive (.labelled label body)) (e : Expr) : motive e :=
  @Expr.rec motive (fun operands => ∀ o ∈ operands, motive o) terminal node labelled
    (fun _ member => absurd member List.not_mem_nil)
    (fun _ _ first others => List.forall_mem_cons.mpr ⟨first, others⟩) e

/-- `x` is `e` or lies somewhere below it, bodies of labelled expressions included. -/
inductive Within : Expr → Expr → Prop
  | refl (e : Expr) : Within e e
  | step {x o e : Expr} : o ∈ e.operands → Within x o → Within x e

theorem Within.trans {x y z : Expr} (xy : Within x y) (yz : Within y z) : Within x z := by
  induction yz with
  | refl => exact xy
  | step member _ ih => exact .step member ih

theorem Within.operand {o e : Expr} (member : o ∈ e.operands) : Within o e :=
  .step member (.refl o)

theorem operands_pair {p : Expr → Prop} {a b : Expr} (left : p a) (right : p b) :
    ∀ o ∈ [a, b], p o :=
  List.forall_mem_cons.mpr ⟨left, List.forall_mem_singleton.mpr right⟩

theorem size_le_sizes {o : Expr} {operands : List Expr} (member : o ∈ operands) :
    o.size ≤ sizes operands := by
  induction operands with
  | nil => cases member
  | cons head rest ih =>
      rw [sizes]
      rcases List.mem_cons.mp member with rfl | inside
      · omega
      · have := ih inside
        omega

theorem Within.size_le {x e : Expr} (inside : Within x e) : x.size ≤ e.size := by
  induction inside with
  | refl => exact Nat.le_refl _
  | @step o e member _ ih =>
      have small := size_le_sizes member
      have whole := size_operands e
      omega

/-- Nothing lies in its own operands. -/
theorem not_within_operand {x o : Expr} (member : o ∈ x.operands) : ¬ Within x o := by
  intro inside
  have below := inside.size_le
  have small := size_le_sizes member
  have whole := size_operands x
  omega

theorem same_iff (a b : Expr) : (a == b) = (a.digest == b.digest && (agree a b).val) := rfl

theorem same_digest {a b : Expr} (same : (a == b) = true) : a.digest = b.digest := by
  rw [same_iff, Bool.and_eq_true] at same
  exact eq_of_beq same.1

theorem agree_all_same (xs ys : List Expr) : (agreeAll xs ys).val = (xs == ys) := by
  induction xs generalizing ys with
  | nil => cases ys <;> rfl
  | cons x xs ih =>
      cases ys with
      | nil => rfl
      | cons y ys =>
          rw [agreeAll]
          show ((x == y) && (agreeAll xs ys).val) = ((x == y) && (xs == ys))
          rw [ih]

theorem operands_digest (start : UInt64) {xs ys : List Expr} (same : (xs == ys) = true) :
    xs.foldl (fun digest operand => Digest.mix digest operand.digest) start =
      ys.foldl (fun digest operand => Digest.mix digest operand.digest) start := by
  induction xs generalizing ys start with
  | nil =>
      cases ys with
      | nil => rfl
      | cons y ys => cases same
  | cons x xs ih =>
      cases ys with
      | nil => cases same
      | cons y ys =>
          obtain ⟨first, others⟩ := Bool.and_eq_true_iff.mp same
          rw [List.foldl_cons, List.foldl_cons, same_digest first]
          exact ih _ others

/-- Equality, constructor by constructor: the digests agree where the rest does. -/
theorem same_cases (a b : Expr) : (a == b) =
    match a, b with
    | .terminal s, .terminal t => s == t
    | .node op xs shape free, .node op' ys shape' free' =>
        op == op' && shape == shape' && free == free' && xs == ys
    | .labelled l _, .labelled m _ => l == m
    | _, _ => false := by
  rw [same_iff]
  cases a with
  | terminal s =>
      cases b with
      | terminal t => by_cases equal : s = t <;> simp [agree, equal]
      | node | labelled => simp [agree]
  | labelled l a =>
      cases b with
      | labelled m b => by_cases equal : l = m <;> simp [agree, equal, digest]
      | terminal | node => simp [agree]
  | node op xs shape free =>
      cases b with
      | terminal | labelled => simp [agree]
      | node op' ys shape' free' =>
          simp only [agree, agree_all_same]
          cases equal : op == op' && shape == shape' && free == free' && xs == ys with
          | false => simp
          | true =>
              simp only [Bool.and_eq_true, beq_iff_eq] at equal
              obtain ⟨⟨⟨rfl, rfl⟩, rfl⟩, operands⟩ := equal
              simp [digest, operands_digest _ operands]

@[simp] theorem terminal_same (s t : Terminal) : (terminal s == terminal t) = (s == t) :=
  same_cases _ _

@[simp] theorem labelled_same (l m : Label) (a b : Expr) :
    (labelled l a == labelled m b) = (l == m) :=
  same_cases _ _

@[simp] theorem node_same (op op' : Operator) (xs ys : List Expr) (s s' : Shape)
    (f f' : FreeIndices) :
    (node op xs s f == node op' ys s' f') = (op == op' && s == s' && f == f' && xs == ys) :=
  same_cases _ _

@[simp] theorem terminal_not_node (t : Terminal) (op : Operator) (xs : List Expr) (s : Shape)
    (f : FreeIndices) : (terminal t == node op xs s f) = false :=
  same_cases _ _

@[simp] theorem terminal_not_labelled (t : Terminal) (l : Label) (a : Expr) :
    (terminal t == labelled l a) = false :=
  same_cases _ _

@[simp] theorem node_not_terminal (t : Terminal) (op : Operator) (xs : List Expr) (s : Shape)
    (f : FreeIndices) : (node op xs s f == terminal t) = false :=
  same_cases _ _

@[simp] theorem node_not_labelled (op : Operator) (xs : List Expr) (s : Shape) (f : FreeIndices)
    (l : Label) (a : Expr) : (node op xs s f == labelled l a) = false :=
  same_cases _ _

@[simp] theorem labelled_not_terminal (t : Terminal) (l : Label) (a : Expr) :
    (labelled l a == terminal t) = false :=
  same_cases _ _

@[simp] theorem labelled_not_node (op : Operator) (xs : List Expr) (s : Shape) (f : FreeIndices)
    (l : Label) (a : Expr) : (labelled l a == node op xs s f) = false :=
  same_cases _ _

theorem same_refl (a : Expr) : (a == a) = true := by
  induction a with
  | terminal data => simp
  | labelled label body => simp
  | node op operands shape free ih =>
      have all : (operands == operands) = true := by
        clear shape free
        induction operands with
        | nil => rfl
        | cons o rest step =>
            obtain ⟨first, others⟩ := List.forall_mem_cons.mp ih
            exact Bool.and_eq_true_iff.mpr ⟨first, step others⟩
      simp [all]

/-- Equal lists of operands are equal place by place. -/
theorem operands_same_iff (xs ys : List Expr) :
    (xs == ys) = true ↔ List.Forall₂ (fun x y => (x == y) = true) xs ys := by
  induction xs generalizing ys with
  | nil => cases ys <;> simp
  | cons x xs ih => cases ys <;> simp [ih]

theorem same_symm {a b : Expr} (same : (a == b) = true) : (b == a) = true := by
  induction a generalizing b with
  | terminal data => cases b <;> simp_all
  | labelled label body => cases b <;> simp_all
  | node op operands shape free ih =>
      cases b with
      | terminal data => simp at same
      | labelled label body => simp at same
      | node op' operands' shape' free' =>
          simp only [node_same, Bool.and_eq_true, beq_iff_eq, operands_same_iff] at same ⊢
          obtain ⟨⟨⟨rfl, rfl⟩, rfl⟩, pairs⟩ := same
          exact ⟨⟨⟨rfl, rfl⟩, rfl⟩, (pairs_imp pairs fun o member _ same => ih o member same).flip⟩

theorem same_trans {a b c : Expr} (ab : (a == b) = true) (bc : (b == c) = true) :
    (a == c) = true := by
  induction a generalizing b c with
  | terminal data => cases b <;> cases c <;> simp_all
  | labelled label body => cases b <;> cases c <;> simp_all
  | node op operands shape free ih =>
      cases b with
      | terminal data => simp at ab
      | labelled label body => simp at ab
      | node op' operands' shape' free' =>
          cases c with
          | terminal data => simp at bc
          | labelled label body => simp at bc
          | node op'' operands'' shape'' free'' =>
              simp only [node_same, Bool.and_eq_true, beq_iff_eq, operands_same_iff] at ab bc ⊢
              obtain ⟨⟨⟨rfl, rfl⟩, rfl⟩, pairs⟩ := ab
              obtain ⟨⟨⟨rfl, rfl⟩, rfl⟩, pairs'⟩ := bc
              refine ⟨⟨⟨rfl, rfl⟩, rfl⟩, ?_⟩
              induction pairs generalizing operands'' with
              | nil => exact pairs'
              | cons first _ step =>
                  cases pairs' with
                  | cons second rest =>
                      obtain ⟨here, others⟩ := List.forall_mem_cons.mp ih
                      exact .cons (here first second) (step others _ rest)

instance : EquivBEq Expr where
  rfl := same_refl _
  symm := same_symm
  trans := same_trans

instance : LawfulHashable Expr where
  hash_eq _ _ same := same_digest same

theorem same_kind {a b : Expr} (same : (a == b) = true) : a.kind = b.kind := by
  cases a <;> cases b <;> simp_all [kind]

/-- No expression in it is labelled. -/
def Unlabelled (e : Expr) : Prop := ∀ x, Within x e → x.kind ≠ .labelled

theorem Unlabelled.operand {o e : Expr} (plain : Unlabelled e) (member : o ∈ e.operands) :
    Unlabelled o :=
  fun x inside => plain x (.step member inside)

theorem unlabelled_of_operands {e : Expr} (kind : e.kind ≠ .labelled)
    (below : ∀ o ∈ e.operands, Unlabelled o) : Unlabelled e := by
  intro x inside
  cases inside with
  | refl => exact kind
  | step member inside => exact below _ member x inside

theorem unlabelled_terminal (data : Terminal) : Unlabelled (.terminal data) :=
  unlabelled_of_operands (by cases data <;> nofun) nofun

/-- Without labels equal expressions are the same. -/
theorem same_eq {a b : Expr} (plain : Unlabelled a) (same : (a == b) = true) : a = b := by
  induction a generalizing b with
  | terminal data => cases b <;> simp_all
  | labelled label body => exact absurd rfl (plain _ (.refl _))
  | node op operands shape free ih =>
      cases b with
      | terminal data => simp at same
      | labelled label body => simp at same
      | node op' operands' shape' free' =>
          simp only [node_same, Bool.and_eq_true, beq_iff_eq, operands_same_iff] at same
          obtain ⟨⟨⟨rfl, rfl⟩, rfl⟩, pairs⟩ := same
          have equal := pairs_imp pairs fun o member _ same => ih o member (plain.operand member) same
          rw [List.forall₂_eq_eq_eq] at equal
          rw [equal]

theorem same_through_refl (a : Expr) : a.sameThrough a = true := by
  induction a with
  | terminal data => exact same_refl _
  | node => exact same_refl _
  | labelled label body ih => simp [sameThrough, ih]

theorem same_through_unlabelled {a b : Expr} (plain : Unlabelled a) :
    a.sameThrough b = (a == b) := by
  cases a with
  | terminal data => rfl
  | node op operands shape free => rfl
  | labelled label body => exact absurd rfl (plain _ (.refl _))

theorem same_through_node {a b : Expr} (plain : b.kind ≠ .labelled) : a.sameThrough b = (a == b) := by
  cases b with
  | labelled => exact absurd rfl plain
  | terminal | node => cases a <;> rfl

theorem has_operands_pairs {x : Expr} {values : List Expr} (same : x.hasOperands values = true) :
    List.Forall₂ (fun v o => v.sameThrough o = true) values x.operands := by
  simp only [hasOperands, Bool.and_eq_true, beq_iff_eq, List.all_eq_true] at same
  exact List.forall₂_iff_zip.mpr ⟨same.1, fun {v o} pair => same.2 (v, o) pair⟩

theorem has_own_operands (e : Expr) : e.hasOperands e.operands = true := by
  have own : List.Forall₂ (fun v o : Expr => v.sameThrough o = true) e.operands e.operands :=
    List.forall₂_same.mpr fun o _ => same_through_refl o
  simp only [hasOperands, beq_self_eq_true, Bool.true_and, List.all_eq_true]
  exact fun pair member => List.forall₂_zip own member

theorem has_operands_eq {x : Expr} {values : List Expr} (plain : ∀ v ∈ values, Unlabelled v)
    (same : x.hasOperands values = true) : values = x.operands := by
  have equal := pairs_imp (has_operands_pairs same) fun v member o through =>
    same_eq (plain v member) ((same_through_unlabelled (plain v member)).symm.trans through)
  rwa [List.forall₂_eq_eq_eq] at equal

end FormCalculus.Expr
