import Mathlib
import FormCalculus.Proofs.Commuting
import FormCalculus.Proofs.Making
import FormCalculus.Proofs.Passing
import FormCalculus.Proofs.Transforming
import FormCalculus.Sharing.Stripping

/-!
Stripping labels as a recursion over the expression: every node is what its operator makes of the
stripped operands. The pass that meets equal nodes once gives the same result.
-/
set_option autoImplicit false

namespace FormCalculus.Expr

mutual
/-- The expression with the body of every labelled one in its place, and the nodes above made
again. -/
def stripped : Expr → Except BuildError Expr
  | .terminal data => .ok (.terminal data)
  | .node op operands _ _ => do op.assemble (← strippedAll operands)
  | .labelled _ body => stripped body
def strippedAll : List Expr → Except BuildError (List Expr)
  | [] => .ok []
  | e :: rest => do return (← stripped e) :: (← strippedAll rest)
end

theorem stripped_all_ok {xs ts : List Expr} :
    strippedAll xs = .ok ts ↔ List.Forall₂ (fun x t => stripped x = .ok t) xs ts := by
  induction xs generalizing ts with
  | nil =>
      rw [strippedAll, List.forall₂_nil_left_iff]
      exact ⟨fun run => (Except.ok.inj run).symm, fun none => none ▸ rfl⟩
  | cons x xs ih =>
      simp only [strippedAll, except_bind_ok, except_pure_ok, ih, List.forall₂_cons_left_iff]
      constructor
      · rintro ⟨t, here, rest, others, rfl⟩
        exact ⟨t, rest, here, others, rfl⟩
      · rintro ⟨t, rest, here, others, rfl⟩
        exact ⟨t, here, rest, others, rfl⟩

theorem stripped_node {op : Operator} {operands : List Expr} {shape : Shape} {free : FreeIndices}
    {r : Expr} : stripped (.node op operands shape free) = .ok r ↔
      ∃ ts, strippedAll operands = .ok ts ∧ op.assemble ts = .ok r := by
  rw [stripped, except_bind_ok]

theorem built_unlabelled {ops : Operator → Prop} {given : Expr → Prop}
    (plain : ∀ e, given e → Unlabelled e) {e : Expr} (built : Built ops given e) : Unlabelled e := by
  induction built with
  | given known => exact plain _ known
  | terminal data => exact unlabelled_terminal data
  | operand _ member ih => exact ih.operand member
  | node _ _ _ _ ih =>
      rename_i op _ _ _ _ _ _ _
      refine unlabelled_of_operands ?_ ih
      cases op <;> nofun

theorem stripped_unlabelled {e r : Expr} (run : stripped e = .ok r) : Unlabelled r := by
  induction e generalizing r with
  | terminal data =>
      cases run
      have built : Built (fun _ => True) (fun _ => False) (.terminal data) := .terminal data
      exact built_unlabelled nofun built
  | labelled label body ih => exact ih (by rwa [stripped] at run)
  | node op operands shape free ih =>
      obtain ⟨ts, all, run⟩ := stripped_node.mp run
      have plain : ∀ t ∈ ts, Unlabelled t := by
        intro t member
        obtain ⟨x, inside, run⟩ := pairs_member (stripped_all_ok.mp all) member
        exact ih x inside run
      have built : Built (fun _ => True) (· ∈ ts) r :=
        Built.assemble (fun _ _ => trivial) op trivial (fun _ member => .given member) run
      exact built_unlabelled plain built

theorem stripped_all_unlabelled {xs ts : List Expr} (all : strippedAll xs = .ok ts) :
    ∀ t ∈ ts, Unlabelled t := fun _ member =>
  have ⟨_, _, run⟩ := pairs_member (stripped_all_ok.mp all) member
  stripped_unlabelled run

theorem stripped_all_reordered {op : Operator} {vs ws ts : List Expr}
    (reordered : Reordered op vs ws) (all : strippedAll vs = .ok ts) :
    ∃ us, Reordered op ts us ∧ strippedAll ws = .ok us := by
  obtain rfl | ⟨commutes, a, b, rfl, rfl⟩ := reordered
  · exact ⟨ts, .inl rfl, all⟩
  · obtain ⟨t, u, rfl, first, second⟩ := pairs_two (stripped_all_ok.mp all)
    exact ⟨[u, t], .inr ⟨commutes, t, u, rfl, rfl⟩,
      stripped_all_ok.mpr (.cons second (.cons first .nil))⟩

/-- Everything labelled alike in it strips alike. -/
def Coherent (e : Expr) : Prop :=
  ∀ label a b, Within (labelled label a) e → Within (labelled label b) e → stripped a = stripped b

/-- Products of tensors in it stay products of tensors when their operands are stripped. -/
def Strippable (e : Expr) : Prop :=
  ∀ op operands shape free ts, Within (.node op operands shape free) e →
    strippedAll operands = .ok ts → op.Spreads ts

theorem Coherent.within {x e : Expr} (coherent : Coherent e) (inside : Within x e) : Coherent x :=
  fun label a b left right => coherent label a b (left.trans inside) (right.trans inside)

theorem Strippable.within {x e : Expr} (strippable : Strippable e) (inside : Within x e) :
    Strippable x :=
  fun op operands shape free ts below => strippable op operands shape free ts (below.trans inside)

theorem Consistent.coherent {e : Expr} (consistent : Consistent e) : Coherent e :=
  fun label a b left right => by rw [consistent label a b left right]

theorem same_stripped {e x y : Expr} (coherent : Coherent e) (left : Within x e) (right : Within y e)
    (same : (x == y) = true) : stripped x = stripped y := by
  induction x generalizing y with
  | terminal data => cases y <;> simp_all
  | labelled label body =>
      cases y with
      | terminal data => simp at same
      | node => simp at same
      | labelled label' body' =>
          obtain rfl : label = label' := by simpa using same
          exact coherent label body body' left right
  | node op operands shape free ih =>
      cases y with
      | terminal data => simp at same
      | labelled label body => simp at same
      | node op' operands' shape' free' =>
          simp only [node_same, Bool.and_eq_true, beq_iff_eq, operands_same_iff] at same
          obtain ⟨⟨⟨rfl, rfl⟩, rfl⟩, pairs⟩ := same
          have equal : strippedAll operands = strippedAll operands' := by
            have insideLeft : ∀ o ∈ operands, Within o e := fun o member =>
              (Within.operand (e := .node op operands shape free) member).trans left
            have insideRight : ∀ o ∈ operands', Within o e := fun o member =>
              (Within.operand (e := .node op operands' shape free) member).trans right
            clear left right
            induction pairs with
            | nil => rfl
            | cons first _ step =>
                obtain ⟨here, others⟩ := List.forall_mem_cons.mp ih
                obtain ⟨l, ls⟩ := List.forall_mem_cons.mp insideLeft
                obtain ⟨r, rs⟩ := List.forall_mem_cons.mp insideRight
                rw [strippedAll, strippedAll, here l r first, step others ls rs]
          rw [stripped, stripped, equal]

/-- What is stripped with the whole is stripped. -/
theorem stripped_within {x e r : Expr} (inside : Within x e) (run : stripped e = .ok r) :
    ∃ t, stripped x = .ok t := by
  induction inside generalizing r with
  | refl => exact ⟨r, run⟩
  | @step o e member _ ih =>
      cases e with
      | terminal data => cases member
      | labelled label body =>
          obtain rfl := List.mem_singleton.mp member
          exact ih (by rwa [stripped] at run)
      | node op operands shape free =>
          obtain ⟨ts, all, _⟩ := stripped_node.mp run
          have pairs := stripped_all_ok.mp all
          obtain ⟨t, pair⟩ := partner_right pairs.length_eq member
          exact ih (List.forall₂_zip pairs pair)

/-- The rules of the pass that removes labels. -/
def stripRules : Rules Stripping Expr :=
  let others : Rule Stripping Expr := fun node operands => node.reuse operands
  (Rules.empty.onEach Kind.all others).on .labelled stripLabel

theorem strip_labels_transform (e : Expr) :
    e.stripLabels = (e.transform stripRules).run' [] := rfl

theorem strip_rule_labelled : stripRules.rule? .labelled = some stripLabel := rfl

/-- A label that is known has its first body, a new one is known from then on. -/
theorem strip_label_ends {total : Prop} {label : Label} {body v : Expr} {bodies : StrippedBodies}
    {supply : Supply} {post : (Expr × StrippedBodies) × Supply → Prop}
    (known : ∀ first, bodies.lookup label = some first → post ((first, bodies), supply))
    (fresh : bodies.lookup label = none → post ((v, (label, v) :: bodies), supply)) :
    Ends total (stripLabel (.labelled label body) [v] bodies supply) post := by
  have got (next : StrippedBodies → Stripping Expr) : (get >>= next) bodies = next bodies bodies := rfl
  unfold stripLabel
  dsimp only
  rw [got]
  cases found : bodies.lookup label with
  | some first => exact known first found
  | none => exact fresh found

theorem strip_rule_other {kind : Kind} (other : kind ≠ .labelled) :
    stripRules.rule? kind = some fun node operands => (node.reuse operands : Stripping Expr) := by
  cases kind <;> first | exact absurd rfl other | rfl

/-- What is known to be stripped is. -/
def Knows (e : Expr) (supply : Supply) (_ : Unit) (bodies : StrippedBodies) (now : Supply) : Prop :=
  (∀ label first, bodies.lookup label = some first →
    ∀ body, Within (labelled label body) e → stripped body = .ok first) ∧ now = supply

/-- Reusing a node is making it again. -/
theorem reuse_assembles {op : Operator} {operands ts : List Expr} {shape : Shape}
    {free : FreeIndices} {supply : Supply}
    (assembled : op.assemble operands = .ok (.node op operands shape free))
    (length : ts.length = operands.length) (spreads : op.Spreads ts)
    (reused : (Expr.node op operands shape free).hasOperands ts = true → ts = operands) :
    (Expr.node op operands shape free).reuse ts supply =
      (op.assemble ts).mapError TransformError.build >>= fun r => .ok (r, supply) := by
  unfold reuse reuseOr
  split
  · rename_i same
    rw [reused same, assembled]
    rfl
  · have length : ts.length = (Expr.node op operands shape free).operands.length := length
    unfold Fresh.mapError reconstruct
    simp only [length, ne_eq, not_true_eq_false, if_false]
    show (op.build ts supply).mapError TransformError.build = _
    rw [build_spread spreads]
    cases op.assemble ts <;> rfl

theorem strip_upkeep {e : Expr} {supply : Supply} (formed : Formed e) (coherent : Coherent e)
    (strippable : Strippable e) :
    Upkeep stripRules e (∃ r, stripped e = .ok r) (fun _ x v => stripped x = .ok v)
      (Knows e supply) where
  grows _ kept := kept
  alike _ left right same kept := (same_stripped coherent left right same).symm.trans kept
  rule {w bodies now x values} inside below start := by
    obtain ⟨known, rfl⟩ := start
    cases x with
    | terminal data =>
        cases below
        exact ⟨_, strip_rule_other (by cases data <;> nofun), (), le_refl _, by rw [stripped],
          known, rfl⟩
    | node op operands shape free =>
        refine ⟨_, strip_rule_other (by cases op <;> nofun), ?_⟩
        have all := stripped_all_ok.mpr below
        cases formed.within inside with
        | node assembled _ _ =>
            refine ends_bind.mpr ?_
            show Ends _ ((Expr.node op operands shape free).reuse values now) _
            rw [reuse_assembles assembled below.length_eq.symm (strippable _ _ _ _ _ inside all)
              (has_operands_eq (stripped_all_unlabelled all))]
            refine ends_bind.mpr ?_
            cases run : op.assemble values with
            | ok r => exact ⟨(), le_refl _, stripped_node.mpr ⟨values, all, run⟩, known, rfl⟩
            | error err =>
                rintro ⟨r, whole⟩
                obtain ⟨t, part⟩ := stripped_within inside whole
                obtain ⟨ts, all', ran⟩ := stripped_node.mp part
                obtain rfl : values = ts := Except.ok.inj (all.symm.trans all')
                rw [run] at ran
                cases ran
    | labelled label body =>
        obtain ⟨v, rfl, run⟩ := pairs_one below
        have kept : stripped (labelled label body) = .ok v := by rwa [stripped]
        refine ⟨_, strip_rule_labelled, strip_label_ends (fun first found => ?_) fun _ => ?_⟩
        · obtain rfl : v = first := Except.ok.inj (run.symm.trans (known label first found body inside))
          exact ⟨(), le_refl _, kept, known, rfl⟩
        · refine ⟨(), le_refl _, kept, fun other first found b within => ?_, rfl⟩
          have found : ((label, v) :: bodies).lookup other = some first := found
          rw [List.lookup_cons] at found
          by_cases same : other = label
          · subst same
            rw [beq_self_eq_true] at found
            cases found
            exact (coherent other b body within inside).trans run
          · rw [beq_false_of_ne same] at found
            exact known other first found b within

/-- The pass gives what the recursion gives, and takes nothing from the supply. -/
theorem strip_labels_ok {e r : Expr} {supply after : Supply} (formed : Formed e)
    (coherent : Coherent e) (strippable : Strippable e) :
    e.stripLabels supply = .ok (r, after) ↔ stripped e = .ok r ∧ after = supply := by
  have start : Knows e supply () [] supply := ⟨nofun, rfl⟩
  have ends := transform_ends (strip_upkeep formed coherent strippable) start
  show (transform stripRules e [] >>= fun pair => pure pair.1) supply = _ ↔ _
  constructor
  · intro run
    obtain ⟨⟨value, bodies⟩, now, ran, last⟩ := (Fresh.bind_ok _ _ _).mp run
    obtain ⟨rfl, rfl⟩ := (Fresh.pure_ok _ _).mp last
    obtain ⟨_, _, kept, _, same⟩ := ends.of_ok ran
    exact ⟨kept, same⟩
  · rintro ⟨run, rfl⟩
    cases outcome : transform stripRules e [] after with
    | error err =>
        rw [outcome] at ends
        exact absurd ⟨r, run⟩ ends
    | ok result =>
        obtain ⟨_, _, kept, _, same⟩ := ends.of_ok outcome
        obtain rfl : result.1.1 = r := Except.ok.inj (kept.symm.trans run)
        obtain rfl := same
        exact (Fresh.bind_ok _ _ _).mpr ⟨_, _, outcome, rfl⟩

/-- Without labels there is nothing to strip. -/
theorem stripped_plain {e : Expr} (formed : Formed e) (plain : Unlabelled e) :
    stripped e = .ok e := by
  induction e with
  | terminal data => rfl
  | labelled label body => exact absurd rfl (plain _ (.refl _))
  | node op operands shape free ih =>
      obtain _ | ⟨run, _, below⟩ := formed
      have all : strippedAll operands = .ok operands :=
        stripped_all_ok.mpr (List.forall₂_same.mpr fun o member =>
          ih o member (below o member) (plain.operand member))
      exact stripped_node.mpr ⟨operands, all, run⟩

theorem strip_labels_plain {e : Expr} {supply : Supply} (formed : Formed e) (plain : Unlabelled e) :
    e.stripLabels supply = .ok (e, supply) := by
  have coherent : Coherent e := fun label a _ left => absurd rfl (plain (.labelled label a) left)
  have strippable : Strippable e := by
    intro op operands shape free ts inside all
    have part : Unlabelled (.node op operands shape free) := fun x below => plain x (below.trans inside)
    obtain _ | ⟨_, spreads, below⟩ := formed.within inside
    have same : strippedAll operands = .ok operands :=
      stripped_all_ok.mpr (List.forall₂_same.mpr fun o member =>
        stripped_plain (below o member) (part.operand member))
    exact Except.ok.inj (same.symm.trans all) ▸ spreads
  exact (strip_labels_ok formed coherent strippable).mpr ⟨stripped_plain formed plain, rfl⟩

end FormCalculus.Expr
