import Mathlib.Data.List.Perm.Basic
import FormCalculus.Proofs.VisitingOnce

/-!
The walks over an expression and the recursions over it written out as a tree. Every walk ends. In
pre-order and in post-order it gives what the recursion gives; over distinct nodes it gives each node
of the tree once, and never before all the nodes that it is an operand of.
-/
set_option autoImplicit false

namespace FormCalculus.Expr

mutual
/-- The subexpressions of an expression written out as a tree, each after its operands. -/
def postParts : Expr → List Expr
  | .terminal data => [.terminal data]
  | .node op operands shape free => postPartsAll operands ++ [.node op operands shape free]
  | .labelled label body => postParts body ++ [.labelled label body]
def postPartsAll : List Expr → List Expr
  | [] => []
  | e :: rest => postParts e ++ postPartsAll rest
end

/-- The steps of a walk give the items of the list one after the other, and then there is none. -/
inductive Yields {σ : Type} (next? : σ → Option (Expr × σ)) : σ → List Expr → Prop
  | ended {walk : σ} : next? walk = none → Yields next? walk []
  | step {walk rest : σ} {x : Expr} {items : List Expr} : next? walk = some (x, rest) →
      Yields next? rest items → Yields next? walk (x :: items)

theorem PreOrder.yields (walk : PreOrder) : Yields next? walk (partsAll walk.pending) := by
  induction walk using toList.induct with
  | case1 walk ended =>
      obtain ⟨_ | ⟨e, rest⟩⟩ := walk
      · exact .ended ended
      · cases ended
  | case2 walk x rest step ih =>
      obtain ⟨_ | ⟨e, pending⟩⟩ := walk
      · cases step
      · obtain ⟨rfl, rfl⟩ := Prod.mk.inj (Option.some.inj step)
        rw [partsAll, parts_cons, List.cons_append, ← parts_all_append]
        exact .step step ih

theorem PostOrder.yields (walk : PostOrder) : Yields next? walk walk.toList := by
  induction walk using toList.induct with
  | case1 walk ended =>
      rw [to_list_end ended]
      exact .ended ended
  | case2 walk x rest step ih =>
      rw [to_list_step step]
      exact .step step ih

variable {e x : Expr}

theorem post_parts_all_eq (operands : List Expr) :
    postPartsAll operands = operands.flatMap postParts := by
  induction operands with
  | nil => rfl
  | cons o rest ih => rw [postPartsAll, ih, List.flatMap_cons]

theorem post_parts_eq (e : Expr) : postParts e = e.operands.flatMap postParts ++ [e] := by
  cases e <;> simp [postParts, post_parts_all_eq, operands]

theorem parts_all_eq (operands : List Expr) : partsAll operands = operands.flatMap parts := by
  induction operands with
  | nil => rfl
  | cons o rest ih => rw [partsAll, ih, List.flatMap_cons]

theorem post_order_parts (e : Expr) : e.postOrder = postParts e := by
  induction e using induction_on_operands with
  | step e ih =>
      rw [post_order_eq, post_parts_eq, List.flatMap_congr ih]

/-- The two recursions give the same nodes, in different orders. -/
theorem parts_perm (e : Expr) : (parts e).Perm (postParts e) := by
  induction e using induction_on_operands with
  | step e ih =>
      rw [parts_cons, post_parts_eq, parts_all_eq]
      exact ((List.Perm.flatMap_left _ ih).cons e).trans (List.perm_append_singleton e _).symm

namespace Distinct

theorem yields (walk : Distinct) : Yields next? walk walk.toList := by
  induction walk using walk_induction with
  | ended seen =>
      rw [to_list_nil]
      exact .ended rfl
  | step x rest seen ih =>
      rw [to_list_cons]
      exact .step rfl ih

/-- What is on the stack is an operand of something visited, and so is what will be visited. -/
theorem to_list_parent (walk : Distinct) {visited : List Expr}
    (below : ∀ y ∈ walk.pending, ∃ p ∈ visited, y ∈ p.operands) {before after : List Expr}
    (order : walk.toList = before ++ x :: after) : ∃ p ∈ visited ++ before, x ∈ p.operands := by
  -- A step moves the top of the stack over to what was visited and pushes some of its operands.
  induction walk using walk_induction generalizing visited before with
  | ended seen =>
      rw [to_list_nil] at order
      cases before <;> cases order
  | step y rest seen ih =>
      obtain ⟨here, others⟩ := List.forall_mem_cons.mp below
      rw [to_list_cons] at order
      cases before with
      | nil =>
          obtain ⟨rfl, _⟩ := List.cons.inj order
          rw [List.append_nil]
          exact here
      | cons first before =>
          obtain ⟨same, later⟩ := List.cons.inj order
          subst same
          have pushed : ∀ z ∈ (push y.operands rest seen).pending,
              ∃ p ∈ visited ++ [y], z ∈ p.operands := by
            intro z member
            rcases (push_pushed y.operands rest seen).only z member with member | member
            · obtain ⟨p, known, operand⟩ := others z member
              exact ⟨p, List.mem_append_left _ known, operand⟩
            · exact ⟨y, by simp, member⟩
          simpa using ih pushed later

end Distinct

theorem distinct_cons (e : Expr) :
    e.distinctNodes = e :: (Distinct.push e.operands [] (Distinct.start e).seen).toList :=
  Distinct.to_list_cons e [] _

/-- Behind the expression itself, every node comes after one that it is an operand of. -/
theorem distinct_parent {before after : List Expr}
    (order : e.distinctNodes = e :: before ++ x :: after) : ∃ p ∈ e :: before, x ∈ p.operands := by
  rw [distinct_cons, List.cons_append] at order
  have below : ∀ y ∈ (Distinct.push e.operands [] (Distinct.start e).seen).pending,
      ∃ p ∈ [e], y ∈ p.operands := by
    intro y member
    rcases (Distinct.push_pushed e.operands [] _).only y member with member | member
    · cases member
    · exact ⟨e, by simp, member⟩
  exact Distinct.to_list_parent _ below (List.cons.inj order).2

theorem count_of_apart {list : List Expr} (apart : Distinct.Apart list) (member : x ∈ list) :
    list.countP (x == ·) = 1 := by
  induction list with
  | nil => cases member
  | cons y rest ih =>
      obtain ⟨here, others⟩ := List.pairwise_cons.mp apart
      rw [List.countP_cons]
      rcases List.mem_cons.mp member with rfl | inside
      · have none : rest.countP (x == ·) = 0 :=
          List.countP_eq_zero.mpr fun z inside => by simp [here z inside]
        rw [none, same_refl]
        rfl
      · have other : (x == y) = false := by
          rw [Bool.eq_false_iff]
          intro same
          cases (here x inside).symm.trans (same_symm same)
        rw [ih others inside, other]
        rfl

/-- The walks in pre-order and in post-order end with what the recursions over the tree give, which are
the same nodes. The walk over distinct nodes ends, too: it starts with the expression and gives nodes
of the tree only, each behind one that it is an operand of; where one label stands for one body, it
gives each of them once. -/
theorem walks_recursive (e : Expr) :
    (Yields PreOrder.next? (.start e) (parts e) ∧ Yields PostOrder.next? (.start e) (postParts e) ∧
      (parts e).Perm (postParts e) ∧ e.preOrder = parts e ∧ e.postOrder = postParts e) ∧
    (Yields Distinct.next? (.start e) e.distinctNodes ∧ e.distinctNodes.head? = some e ∧
      (∀ x ∈ e.distinctNodes, x ∈ parts e) ∧
      ∀ before x after, e.distinctNodes = e :: before ++ x :: after →
        ∃ p ∈ e :: before, x ∈ p.operands) ∧
    ((∀ label a b, Within (labelled label a) e → Within (labelled label b) e → (a == b) = true) →
      ∀ x ∈ parts e, e.distinctNodes.countP (x == ·) = 1) := by
  refine ⟨⟨?_, ?_, parts_perm e, pre_order_parts e, post_order_parts e⟩, ⟨?_, ?_, ?_, ?_⟩, ?_⟩
  · have walked := PreOrder.yields (.start e)
    rwa [show partsAll (PreOrder.start e).pending = parts e from List.append_nil _] at walked
  · exact post_order_parts e ▸ PostOrder.yields (.start e)
  · exact Distinct.yields _
  · rw [distinct_cons]
    rfl
  · exact fun x member => mem_parts.mpr (distinct_within member)
  · exact fun before x after order => distinct_parent order
  · intro agreeing x member
    have consistent := consistent_of_agreeing agreeing
    exact count_of_apart (distinct_apart e) (within_distinct consistent (mem_parts.mp member))

section Sample

def treeField : Expr := .terminal (.coefficient ⟨0, .scalar 2⟩)

def treeName : Expr := .labelled ⟨0⟩ treeField

/-- A field, by its name, times the sum of the field and its name. -/
def treeProduct : Expr := .node .product [treeName, .node .sum [treeField, treeName] [] ∅] [] ∅

/-- The field stands at three places of the tree and the name at two; each is met once. -/
theorem tree_product_walks :
    (∀ label a b, Within (labelled label a) treeProduct → Within (labelled label b) treeProduct →
      (a == b) = true) ∧
    Yields PostOrder.next? (.start treeProduct) [treeField, treeName, treeField, treeField, treeName,
      .node .sum [treeField, treeName] [] ∅, treeProduct] ∧
    treeProduct.preOrder.countP (treeField == ·) = 3 ∧
    treeProduct.distinctNodes.countP (treeField == ·) = 1 ∧
    treeProduct.distinctNodes.countP (treeName == ·) = 1 := by
  have bodies : ∀ x ∈ parts treeProduct, ∀ label b, x = .labelled label b →
      [treeField][label.number]? = some b := by
    simp +contextual [treeProduct, treeName, treeField, parts, partsAll]
  have agreeing := agreeing_of_bodies bodies
  obtain ⟨⟨_, post, _, pre, _⟩, _, once⟩ := walks_recursive treeProduct
  have thrice : treeProduct.preOrder.countP (treeField == ·) = 3 := by
    rw [pre]
    cbv
  refine ⟨agreeing, post, thrice, once agreeing treeField ?_, once agreeing treeName ?_⟩
  · exact mem_parts.mpr (.step List.mem_cons_self (.operand List.mem_cons_self))
  · exact mem_parts.mpr (.operand List.mem_cons_self)

end Sample

end FormCalculus.Expr
