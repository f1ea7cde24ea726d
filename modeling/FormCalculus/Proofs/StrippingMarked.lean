import FormCalculus.Proofs.NamingUnlabelled

/-!
Stripping an expression in which repeated subexpressions have been named gives what stripping the
expression itself gives.
-/
set_option autoImplicit false

namespace FormCalculus.Expr

variable {w : Bodies} {e x v m r s : Expr}

/-- Nowhere in it do the operands of a sum or product strip to constants that clash. -/
def Clashless (e : Expr) : Prop :=
  ∀ op a b shape free x y, Within (.node op [a, b] shape free) e → op = .sum ∨ op = .product →
    stripped a = .ok x → stripped b = .ok y → ¬ Clash x y

theorem Clashless.within (clashless : Clashless e) (inside : Within x e) : Clashless x :=
  fun op a b shape free y z below => clashless op a b shape free y z (below.trans inside)

/-- The operands of a marked node strip to the same, but for the order of a sum or product. -/
theorem stripped_all_marked {xs vs : List Expr} {ts : List Expr} (length : xs.length = vs.length)
    (below : ∀ x v, (x, v) ∈ xs.zip vs → ∀ t, stripped x = .ok t → stripped v = .ok t)
    (all : strippedAll xs = .ok ts) : strippedAll vs = .ok ts := by
  rw [stripped_all_ok] at all ⊢
  induction all generalizing vs with
  | nil =>
      obtain rfl := List.eq_nil_of_length_eq_zero length.symm
      exact .nil
  | @cons x t xs ts first _ ih =>
      cases vs with
      | nil => cases length
      | cons v vs =>
          exact .cons (below x v List.mem_cons_self t first) (ih (Nat.succ.inj length)
            fun x v pair => below x v (List.mem_cons_of_mem _ pair))

theorem Marked.stripped (marked : Marked w x v) (clashless : Clashless x)
    (run : stripped x = .ok s) : stripped v = .ok s := by
  induction marked generalizing s with
  | terminal data => exact run
  | kept _ _ ih =>
      rw [Expr.stripped] at run ⊢
      exact ih (clashless.within (.operand List.mem_cons_self)) run
  | named _ _ _ _ _ _ ih =>
      rw [Expr.stripped]
      exact ih clashless run
  | @node op xs vs ws shape free length _ reordered ih =>
      obtain ⟨ts, all, built⟩ := stripped_node.mp run
      have below : strippedAll vs = .ok ts := stripped_all_marked length
        (fun x v pair t => ih x v pair (clashless.within (.operand (List.of_mem_zip pair).1))) all
      obtain ⟨us, swapped, again⟩ := stripped_all_reordered reordered below
      refine stripped_node.mpr ⟨us, again, assemble_reordered swapped (stripped_all_unlabelled all)
        (fun commutes t u same => ?_) built⟩
      -- What strips to the two constants are the two operands.
      obtain ⟨a, b, rfl, left, right⟩ := pairs_two (same ▸ stripped_all_ok.mp all).flip
      exact clashless op a b shape free t u (.refl _) commutes left right

/-- A node of a marked expression was a node of the expression. -/
theorem Marked.nodes (marked : Marked w x v) {op : Operator} {ws : List Expr} {shape : Shape}
    {free : FreeIndices} (inside : Within (.node op ws shape free) v) :
    ∃ xs vs, Within (.node op xs shape free) x ∧ xs.length = vs.length ∧
      (∀ x v, (x, v) ∈ xs.zip vs → Marked w x v) ∧ Reordered op vs ws := by
  induction marked with
  | terminal =>
      cases inside with
      | step member => cases member
  | kept _ _ ih =>
      cases inside with
      | step member below =>
          obtain rfl := List.mem_singleton.mp member
          obtain ⟨xs, vs, within, rest⟩ := ih below
          exact ⟨xs, vs, .step List.mem_cons_self within, rest⟩
  | named _ _ _ _ _ _ ih =>
      cases inside with
      | step member below =>
          obtain rfl := List.mem_singleton.mp member
          exact ih below
  | @node op' xs' vs' _ _ _ length pairs reordered ih =>
      cases inside with
      | refl => exact ⟨xs', vs', .refl _, length, pairs, reordered⟩
      | step member below =>
          obtain ⟨o, pair⟩ := partner_left length (reordered.mem.mp member)
          obtain ⟨xs, vs, within, rest⟩ := ih o _ pair below
          exact ⟨xs, vs, .step (List.of_mem_zip pair).1 within, rest⟩

section

variable (parts : ∀ label body, w.body? label = some body → Within body e) (marked : Marked w e m)
  (clashless : Clashless e) (run : stripped e = .ok s)

include parts marked clashless run

/-- All occurrences of a label strip to what its expression strips to. -/
theorem marked_coherent : Coherent m := by
  have settled {label : Label} {b : Expr} (inside : Within (labelled label b) m) :
      ∃ o t, w.body? label = some o ∧ stripped o = .ok t ∧ stripped b = .ok t := by
    obtain ⟨o, known, below⟩ := marked.registered inside
    obtain ⟨t, here⟩ := stripped_within (parts label o known) run
    exact ⟨o, t, known, here, below.stripped (clashless.within (parts label o known)) here⟩
  intro label a b left right
  obtain ⟨o, t, known, here, same⟩ := settled left
  obtain ⟨o', t', known', here', same'⟩ := settled right
  rw [known] at known'
  cases known'
  rw [here] at here'
  cases here'
  rw [same, same']

omit parts in
theorem marked_strippable (strippable : Strippable e) : Strippable m := by
  intro op ws shape free us inside all
  obtain ⟨xs, vs, within, length, pairs, reordered⟩ := marked.nodes inside
  obtain ⟨t, here⟩ := stripped_within within run
  obtain ⟨ts, below, _⟩ := stripped_node.mp here
  have again : strippedAll vs = .ok ts := stripped_all_marked length (fun x v pair t known =>
    (pairs x v pair).stripped
      (clashless.within ((Within.operand (List.of_mem_zip pair).1).trans within)) known) below
  obtain rfl | ⟨commutes, _⟩ := reordered
  · obtain rfl : ts = us := Except.ok.inj (again.symm.trans all)
    exact strippable op xs shape free ts within below
  · exact spreads_other (by rcases commutes with rfl | rfl <;> simp)

end

/-! The pure conditions, from what the pass that removes labels returns. -/

/-- No operand of a product of tensors strips to a scalar. -/
def StripsTensors (supply : Supply) (e : Expr) : Prop :=
  ∀ op operands shape free, Within (.node op operands shape free) e → op ∈ [.inner, .outer, .dot] →
    ∀ o ∈ operands, ∀ x after, o.stripLabels supply = .ok (x, after) → x.shape ≠ []

/-- The operands of no sum or product strip to constants that clash. -/
def StripsApart (supply : Supply) (e : Expr) : Prop :=
  ∀ op a b shape free, Within (.node op [a, b] shape free) e → op = .sum ∨ op = .product →
    ∀ x y after after', a.stripLabels supply = .ok (x, after) →
      b.stripLabels supply = .ok (y, after') → ¬ Clash x y

theorem StripsTensors.strippable {supply : Supply} (tensors : StripsTensors supply e)
    (formed : Formed e) (coherent : Coherent e) : Strippable e := by
  induction e with
  | terminal data =>
      intro op operands shape free ts inside
      cases inside with
      | step member => cases member
  | labelled label body ih =>
      intro op operands shape free ts inside
      cases inside with
      | step member below =>
          have below : Within _ body := List.mem_singleton.mp member ▸ below
          have part : Within body (.labelled label body) := .operand List.mem_cons_self
          exact ih (fun op operands shape free within => tensors op operands shape free
            (within.trans part)) (formed.within part) (coherent.within part) op operands shape free ts
            below
  | node op operands shape free ih =>
      have below (o : Expr) (member : o ∈ operands) : Strippable o :=
        have part : Within o (.node op operands shape free) := .operand member
        ih o member (fun op operands shape free within => tensors op operands shape free
          (within.trans part)) (formed.within part) (coherent.within part)
      intro op' operands' shape' free' ts inside all
      cases inside with
      | step member inside => exact below _ member op' operands' shape' free' ts inside all
      | refl =>
          intro product t member
          obtain ⟨o, operand, run⟩ := pairs_member (stripped_all_ok.mp all) member
          have part : Within o (.node op operands shape free) := .operand operand
          have strip : o.stripLabels supply = .ok (t, supply) :=
            (strip_labels_ok (formed.within part) (coherent.within part) (below o operand)).mpr
              ⟨run, rfl⟩
          exact tensors op operands shape free (.refl _) product o operand t supply strip

theorem StripsApart.clashless {supply : Supply} (apart : StripsApart supply e) (formed : Formed e)
    (coherent : Coherent e) (strippable : Strippable e) : Clashless e := by
  intro op a b shape free x y inside commutes left right
  have strips {o t : Expr} (member : o ∈ [a, b]) (run : stripped o = .ok t) :
      o.stripLabels supply = .ok (t, supply) := by
    have part : Within o e :=
      (Within.operand (e := .node op [a, b] shape free) member).trans inside
    exact (strip_labels_ok (formed.within part) (coherent.within part)
      (strippable.within part)).mpr ⟨run, rfl⟩
  exact apart op a b shape free inside commutes x y supply supply (strips (by simp) left)
    (strips (by simp) right)

/-- Stripping undoes marking, whatever is labelled in the expression already. -/
theorem strip_labels_marked {first supply last other before after : Supply} (made : Constructible e)
    (consistent : Consistent e) (supplied : Supplied e supply) (uniform : Uniform e)
    (apart : StripsApart first e) (tensors : StripsTensors first e)
    (strip : e.stripLabels before = .ok (s, after)) (mark : e.markDuplications supply = .ok (m, last)) :
    m.stripLabels other = .ok (s, other) := by
  have formed : Formed e := made.formed
  have coherent : Coherent e := consistent.coherent
  have strippable : Strippable e := tensors.strippable formed coherent
  have clashless : Clashless e := apart.clashless formed coherent strippable
  obtain ⟨run, _⟩ := (strip_labels_ok formed coherent strippable).mp strip
  obtain ⟨w, parts, marked, formed⟩ := mark_duplications_marked made consistent supplied uniform mark
  exact (strip_labels_ok formed (marked_coherent parts marked clashless run)
    (marked_strippable marked clashless run strippable)).mpr ⟨marked.stripped clashless run, rfl⟩

/-- A field and the same field under a label. -/
def flatTwice : Expr := .node .sum [flat, .labelled ⟨0⟩ flat] [] ∅

def flatTwiceMarked : Expr := .node .sum [.labelled ⟨0⟩ flat, .labelled ⟨1⟩ flat] [] ∅

theorem flat_twice_parts {x : Expr} (inside : Within x flatTwice) :
    x = flatTwice ∨ x = flat ∨ x = .labelled ⟨0⟩ flat := by
  rw [← mem_parts] at inside
  simpa [flatTwice, flat, parts, partsAll, or_comm, or_left_comm] using inside

theorem flat_twice_consistent : Consistent flatTwice := by
  intro label a b left right
  obtain same | same | same := flat_twice_parts left <;> cases same
  obtain same | same | same := flat_twice_parts right <;> cases same
  rfl

open Marking in
theorem flat_twice_run :
    flatTwice.markDuplications { label := 1 } = .ok (flatTwiceMarked, { label := 2 }) := by
  have contains {x : Expr} := duplications_contains (x := x) flat_twice_consistent
  have once {x : Expr} (never : ¬ 2 ≤ places x flatTwice) :
      flatTwice.duplications.contains x = false :=
    eq_false_of_ne_true (mt contains.mp never)
  let named : Expr := .labelled ⟨1⟩ flat
  let own : Expr := .labelled ⟨0⟩ flat
  let names : Names := ((∅ : Names).insert flat named).insert flat named
  let names' : Names := (names.insert flat own).insert flat own
  let memo : Memo Expr := (∅ : Memo Expr).insert flat named
  let memo' := memo.insert own own
  have visit : transformIn (rules flatTwice.duplications) flat ∅ ∅ { label := 1 } =
      .ok (((named, memo), names), { label := 2 }) :=
    visit_named flat { label := 1 } (by rfl) (by decide) Std.HashMap.getElem?_empty rfl
      Std.HashMap.getElem?_empty rfl (contains.mpr (by cbv)) (by decide) (by rfl)
  have known : memo[flat]? = some named := Std.HashMap.getElem?_insert_self
  have visit2 : transformIn (rules flatTwice.duplications) own memo names { label := 2 } =
      .ok (((own, memo'), names'), { label := 2 }) :=
    visit_new (by simp [memo, own, flat]) (visit_all_cons (visit_known known) rfl)
      (rule_labelled _) rfl
  have visit3 : transformIn (rules flatTwice.duplications) flatTwice ∅ ∅ { label := 1 } =
      .ok (((flatTwiceMarked, memo'.insert flatTwice flatTwiceMarked), names'), { label := 2 }) :=
    visit_kept (by rfl) (by decide) Std.HashMap.getElem?_empty
      (visit_all_cons visit (visit_all_cons visit2 rfl))
      (by simp [names, names', flat, flatTwice]) (by cbv) (once (by cbv)) (once (by cbv))
  show (transform (rules flatTwice.duplications) flatTwice ∅ { label := 1 } >>= fun result => _) = _
  rw [transform_runs visit3]
  rfl

theorem flat_twice_strip (supply : Supply) : flatTwice.stripLabels supply =
    .ok (.node .sum [flat, flat] [] ∅, supply) := by
  have formed : Formed flatTwice :=
    .node (by cbv) (spreads_other (by decide))
      (operands_pair (.terminal _) (.labelled (by decide) (.terminal _)))
  have strippable : Strippable flatTwice := by
    intro op operands shape free ts inside _
    obtain same | same | same := flat_twice_parts inside <;> cases same
    exact spreads_other (by decide)
  exact (strip_labels_ok formed flat_twice_consistent.coherent strippable).mpr ⟨by cbv, rfl⟩

theorem strip_labels_flat_twice : flatTwiceMarked.stripLabels {} =
    .ok (.node .sum [flat, flat] [] ∅, {}) := by
  have field : Constructible flat := .terminal _
  have own : Constructible (.labelled ⟨0⟩ flat) := .labelled field rfl
  have made : Constructible flatTwice := .assemble .sum (by decide) (operands_pair field own) (by cbv)
  have supplied : Supplied flatTwice { label := 1 } := by
    intro label body inside
    obtain same | same | same := flat_twice_parts inside <;> cases same
    exact Nat.zero_lt_one
  have apart : StripsApart {} flatTwice := by
    intro op a b shape free inside _ x y after after' left _
    obtain same | same | same := flat_twice_parts inside <;> cases same
    have same : flat.stripLabels {} = .ok (flat, {}) := strip_labels_plain (.terminal _) (by decide)
    rw [same] at left
    cases left
    rintro ⟨_, _, constant, _⟩
    cases constant
  have tensors : StripsTensors {} flatTwice := by
    intro op operands shape free inside product
    obtain same | same | same := flat_twice_parts inside <;> cases same
    exact absurd product (by decide)
  exact strip_labels_marked made flat_twice_consistent supplied (uniform_of_parts (by decide)) apart
    tensors (flat_twice_strip {}) flat_twice_run

/-- Where derivatives mix domains stripping need not undo marking. -/
theorem mixed_not_stripped : Constructible mixed ∧ Consistent mixed ∧ Supplied mixed {} ∧
    mixed.stripLabels {} = .ok (mixed, {}) ∧
    mixed.markDuplications {} = .ok (mixedMarked, { index := 1, label := 1 }) ∧
    ∀ supply after, mixedMarked.stripLabels supply ≠ .ok (mixed, after) := by
  have plain : Unlabelled mixed := by decide
  refine ⟨mixed_constructible, fun label a _ left => absurd rfl (plain (.labelled label a) left),
    fun label a left => absurd rfl (plain (.labelled label a) left),
    strip_labels_plain mixed_constructible.formed plain, mixed_run, fun supply after => ?_⟩
  exact mixed_marked_strip supply after mixed

end FormCalculus.Expr
