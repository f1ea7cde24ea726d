import FormCalculus.Proofs.Marking

/-!
The pass that names repeated subexpressions returns the expression with labels around some of its
nodes, every one of them standing for one expression.
-/
set_option autoImplicit false

namespace FormCalculus

open Expr

/-! What the rebuilding of a node has checked. -/

namespace Operator

variable {op : Operator} {xs vs : List Expr} {shape : Shape} {free : FreeIndices} {r : Expr}

theorem tests_of_run (types : op.Types xs shape free) (stands : List.Forall₂ Stands xs vs)
    (run : op.assemble vs = .ok r) : op.Tests vs := by
  cases types with
  | conditional =>
      obtain ⟨test, v, w, rfl, _⟩ := pairs_three stands
      obtain ⟨_, types, _⟩ := conditional_cases run
      exact types_test types
  | condition =>
      obtain ⟨_, types, _⟩ := condition_cases run
      exact types_test types
  | _ => exact nofun

/-- The operand of a derivative lives where it lived before. -/
theorem lives_of_run {w : Bodies} (formed : Formed (.node op xs shape free))
    (typed : WellTyped (.node op xs shape free)) (uniform : Uniform (.node op xs shape free))
    (marked : List.Forall₂ (Marked w) xs vs) (run : op.assemble vs = .ok r) :
    op.Lives vs shape free := by
  obtain _ | ⟨assembled', _, _⟩ := formed
  obtain ⟨types, _, lives⟩ := assembled assembled'
  -- Both dimensions are read off terminals of the operand as it was.
  have same {f v : Expr} {g d : Nat} (kind : op.kind = .grad ∨ op.kind = .spatialDerivative)
      (member : f ∈ xs) (marked : Marked w f v) (known : f.geometricDimension = .ok g)
      (known' : v.geometricDimension = .ok d) : d = g := by
    obtain ⟨dim, on⟩ := uniform _ (.refl _) kind
    obtain ⟨data, inside, lives⟩ := geometric_dimension_ok known
    obtain ⟨data', inside', lives'⟩ := geometric_dimension_ok known'
    rw [on data (.step member inside) g lives,
      on data' (.step member (marked.terminals inside')) d lives']
  cases types with
  | @grad f gdim =>
      obtain ⟨v, rfl, operand⟩ := pairs_one marked
      obtain ⟨g, known, shape⟩ := lives
      simp only [assemble, Expr.grad, except_bind_ok] at run
      obtain ⟨d, known', _⟩ := run
      obtain rfl := same (.inl rfl) List.mem_cons_self operand known known'
      exact ⟨d, known', by rw [shape, (operand.stands (typed.operand List.mem_cons_self)).shape]⟩
  | @spatialDerivative f items _ _ some =>
      obtain ⟨v, ii, rfl, operand, second⟩ := pairs_two marked
      obtain rfl := second.multi_index
      obtain ⟨g, items', known, eq, subscribes⟩ := lives
      obtain rfl : items = items' := by cases eq; rfl
      have run : v.spatialDerivative items = .ok r := run
      unfold Expr.spatialDerivative at run
      split at run
      · exact absurd (List.isEmpty_iff.mp ‹_›) some
      · simp only [except_bind_ok] at run
        obtain ⟨d, known', _⟩ := run
        obtain rfl := same (.inr rfl) List.mem_cons_self operand known known'
        refine ⟨d, items, known', rfl, ?_⟩
        rwa [(operand.stands (typed.operand List.mem_cons_self)).free]
  | _ => trivial

end Operator

namespace Expr

variable {w : Bodies} {e x v : Expr} {values : List Expr} {supply after : Supply}

theorem forall_and_left {α β : Type} {R S : α → β → Prop} {xs : List α} {ys : List β}
    (pairs : List.Forall₂ (fun x y => R x y ∧ S x y) xs ys) : List.Forall₂ R xs ys :=
  pairs.imp fun _ _ both => both.1

/-- Rebuilding a node from marked operands marks the node. -/
theorem build_marked {op : Operator} {xs : List Expr} {shape : Shape} {free : FreeIndices}
    (formed : Formed (.node op xs shape free)) (typed : WellTyped (.node op xs shape free))
    (uniform : Uniform (.node op xs shape free)) (marked : List.Forall₂ (Marked w) xs values)
    (run : op.build values supply = .ok (v, after)) :
    Marked w (.node op xs shape free) v ∧ after = supply := by
  have stands : List.Forall₂ Stands xs values := pairs_imp marked fun o member _ below =>
    below.stands (typed.operand member)
  have lives (run : op.assemble values = .ok v) := Operator.lives_of_run formed typed uniform marked run
  obtain _ | ⟨known, spreads, _⟩ := formed
  rw [build_spread (Operator.spreads_stand spreads stands), Fresh.lift_ok] at run
  obtain ⟨run, rfl⟩ := run
  have tests := Operator.tests_of_run (Operator.assembled known).1 stands run
  have again := Operator.assembles_standing known stands tests (lives run)
  obtain rfl := Except.ok.inj (run.symm.trans again)
  exact ⟨.of_pairs marked, rfl⟩

/-- Reusing or rebuilding, an expression that is not labelled is marked. -/
theorem reuse_marked (made : Constructible x) (uniform : Uniform x) (covers : w.Covers x)
    (plain : x.kind ≠ .labelled)
    (below : List.Forall₂ (fun x v => Marked w x v ∧ Formed v) x.operands values)
    (run : x.reuse values supply = .ok (v, after)) :
    Marked w x v ∧ Formed v ∧ after = supply := by
  obtain ⟨_, rfl, rfl⟩ | rebuilt := reuse_cases run
  · exact ⟨.refl covers, made.formed, rfl⟩
  · cases reconstruct_cases rebuilt with
    | terminal data same => exact ⟨.terminal data, .terminal data, same.symm⟩
    | labelled => exact absurd rfl plain
    | node built =>
        obtain ⟨marked, same⟩ := build_marked made.formed made.well_typed uniform
          (forall_and_left below) built
        have formed : ∀ o ∈ values, Formed o := fun o member =>
          have ⟨_, _, both⟩ := pairs_member below member
          both.2
        exact ⟨marked, build_formed formed built, same⟩

end Expr

namespace Marking

/-! The rules of the pass. -/

theorem rule_labelled (duplications : Std.HashSet Expr) :
    (rules duplications).rule? .labelled = some labelled := rfl

theorem rule_unnamed (duplications : Std.HashSet Expr) {kind : Kind} (unnamed : kind.isUnnamed = true) :
    (rules duplications).rule? kind = some fun before _ => (pure before : Marking Expr) := by
  cases kind <;> first | rfl | cases unnamed

theorem rule_node (duplications : Std.HashSet Expr) {kind : Kind} (named : kind.isUnnamed = false)
    (plain : kind ≠ .labelled) : (rules duplications).rule? kind = some (node duplications) := by
  cases kind <;> first | (cases named; done) | exact absurd rfl plain | rfl

variable {total : Prop} {names : Names} {supply : Supply} {before after : Expr} {name : Label}
  {post : ((Expr × Names) × Supply) → Prop}

/-- Giving a label only fails on a multi-index. -/
theorem label_ends :
    Ends total (label name before after names supply) post ↔
      if after.kind = .multiIndex then ¬ total
      else post ((.labelled name after,
        (names.insert before (.labelled name after)).insert after (.labelled name after)), supply) := by
  unfold label withLabel
  split
  · exact Iff.rfl
  · exact Iff.rfl

/-- What the rule for labelled expressions does: it puts the label around the new body, around what
that has a new label for, or keeps what has this label already. -/
theorem labelled_ends {body v : Expr}
    (around : (∀ inner rewritten, v = .labelled inner rewritten → body.kind = .labelled) →
      Ends total (label name body v names supply) post)
    (within : ∀ inner rewritten, v = .labelled inner rewritten → body.kind ≠ .labelled →
      Ends total (label name body rewritten names supply) post)
    (kept : ∀ rewritten, v = .labelled name rewritten → body.kind ≠ .labelled →
      post ((v, names), supply)) :
    Ends total (labelled (.labelled name body) [v] names supply) post := by
  cases v with
  | terminal => exact around fun _ _ same => by cases same
  | node => exact around fun _ _ same => by cases same
  | labelled inner rewritten =>
      show Ends total ((if body.kind = .labelled then label name body _
        else if inner = name then pure _ else label name body rewritten : Marking Expr)
        names supply) post
      by_cases kind : body.kind = .labelled
      · rw [if_pos kind]
        exact around fun _ _ _ => kind
      · rw [if_neg kind]
        by_cases same : inner = name
        · rw [if_pos same]
          exact kept rewritten (same ▸ rfl) kind
        · rw [if_neg same]
          exact within inner rewritten rfl kind

/-- What the rule for nodes without a label does. -/
theorem node_ends {duplications : Std.HashSet Expr} {operands : List Expr} :
    Ends total (node duplications before operands names supply) post ↔
      match names[before]? with
      | some named => post ((named, names), supply)
      | none => Ends total (before.reuse operands supply) fun result =>
          if ((duplications.contains before || duplications.contains result.1) &&
              result.1.kind ≠ .labelled && !result.1.kind.isUnnamed) = true then
            Ends total (label ⟨result.2.label⟩ before result.1 names
              { result.2 with label := result.2.label + 1 }) post
          else post ((result.1, names), result.2) := by
  have unfolded : node duplications before operands names supply =
      match names[before]? with
      | some named => .ok ((named, names), supply)
      | none => before.reuse operands supply >>= fun result =>
          if ((duplications.contains before || duplications.contains result.1) &&
              result.1.kind ≠ .labelled && !result.1.kind.isUnnamed) = true then
            label ⟨result.2.label⟩ before result.1 names
              { result.2 with label := result.2.label + 1 }
          else .ok ((result.1, names), result.2) := by
    show (match names[before]? with
      | some named => (pure named : Marking Expr)
      | none => do
          let after ← (before.reuse operands : Marking Expr)
          let repeated := duplications.contains before || duplications.contains after
          if repeated && after.kind ≠ Kind.labelled && !after.kind.isUnnamed then
            label (← (Fresh.newLabel : Fresh TransformError Label)) before after
          else return after) names supply = _
    cases names[before]? with
    | some named => rfl
    | none =>
        have first {next : Expr → Marking Expr} :
            ((before.reuse operands : Marking Expr) >>= next) names supply =
              before.reuse operands supply >>= fun result => next result.1 names result.2 := by
          show ((before.reuse operands supply >>= fun result => .ok ((result.1, names), result.2)) >>=
            fun result => next result.1.1 result.1.2 result.2) = _
          cases before.reuse operands supply <;> rfl
        refine first.trans (bind_congr fun result => ?_)
        simp only
        split <;> rfl
  rw [unfolded]
  cases names[before]? with
  | some named => exact Iff.rfl
  | none =>
      refine ends_bind.trans ?_
      cases before.reuse operands supply with
      | error err => exact Iff.rfl
      | ok result =>
          show Ends total (if _ then _ else _) post ↔ if _ then _ else _
          split <;> exact Iff.rfl

/-- A node that is not repeated is only rewritten. -/
theorem node_kept {duplications : Std.HashSet Expr} {operands : List Expr} {last : Supply}
    (new : names[before]? = none) (run : before.reuse operands supply = .ok (after, last))
    (once : duplications.contains before = false) (once' : duplications.contains after = false) :
    node duplications before operands names supply = .ok ((after, names), last) := by
  rw [← ends_eq, node_ends, new, run]
  show if _ then _ else _
  rw [once, once']
  rfl

/-- A repeated node that can be named gets the next label. -/
theorem node_named {duplications : Std.HashSet Expr} {operands : List Expr} {last : Supply}
    (new : names[before]? = none) (run : before.reuse operands supply = .ok (after, last))
    (repeated : duplications.contains before = true) (plain : after.kind ≠ .labelled)
    (nameable : after.kind.isUnnamed = false) :
    node duplications before operands names supply =
      .ok ((.labelled ⟨last.label⟩ after,
        (names.insert before (.labelled ⟨last.label⟩ after)).insert after
          (.labelled ⟨last.label⟩ after)), { last with label := last.label + 1 }) := by
  have kind : after.kind ≠ .multiIndex := by
    intro kind
    rw [kind] at nameable
    cases nameable
  rw [← ends_eq, node_ends, new, run]
  show if _ then _ else _
  rw [if_pos (by simp [repeated, plain, nameable]), label_ends, if_neg kind]

section Visits

variable {duplications : Std.HashSet Expr} {x v : Expr} {values : List Expr} {memo memo' : Memo Expr}
  {names names' : Names} {supply supply' supply'' : Supply}

theorem visit_kept (nameable : x.kind.isUnnamed = false) (plain : x.kind ≠ .labelled)
    (new : memo[x]? = none)
    (below : transformAll (rules duplications) x.operands memo names supply =
      .ok (((values, memo'), names'), supply'))
    (unnamed : names'[x]? = none) (run : x.reuse values supply' = .ok (v, supply''))
    (once : duplications.contains x = false) (once' : duplications.contains v = false) :
    transformIn (rules duplications) x memo names supply =
      .ok (((v, memo'.insert x v), names'), supply'') :=
  visit_new new below (rule_node duplications nameable plain) (node_kept unnamed run once once')

theorem visit_named (v : Expr) (supply'' : Supply) (nameable : x.kind.isUnnamed = false)
    (plain : x.kind ≠ .labelled) (new : memo[x]? = none)
    (below : transformAll (rules duplications) x.operands memo names supply =
      .ok (((values, memo'), names'), supply'))
    (unnamed : names'[x]? = none) (run : x.reuse values supply' = .ok (v, supply''))
    (repeated : duplications.contains x = true) (plain' : v.kind ≠ .labelled)
    (nameable' : v.kind.isUnnamed = false) :
    transformIn (rules duplications) x memo names supply =
      .ok (((.labelled ⟨supply''.label⟩ v, memo'.insert x (.labelled ⟨supply''.label⟩ v)),
        (names'.insert x (.labelled ⟨supply''.label⟩ v)).insert v (.labelled ⟨supply''.label⟩ v)),
        { supply'' with label := supply''.label + 1 }) :=
  visit_new new below (rule_node duplications nameable plain)
    (node_named unnamed run repeated plain' nameable')

end Visits

end Marking

/-! Every value of the pass is marked. -/

theorem Bodies.Covers.consistent {w : Bodies} {e : Expr} (covers : w.Covers e) : Consistent e :=
  fun label a b left right =>
    Option.some.inj ((covers label a left).symm.trans (covers label b right))

/-- The names given so far are marked, and the labels to come are new. -/
structure Ready (e : Expr) (w : Bodies) (names : Names) (supply : Supply) : Prop where
  covers : w.Covers e
  parts : ∀ label body, w.body? label = some body → Within body e
  names : ∀ x v, Within x e → x.kind ≠ .labelled → x.kind.isUnnamed = false →
    names[x]? = some v → Marked w x v ∧ Formed v
  fresh : ∀ label : Label, supply.label ≤ label.number → w.body? label = none

namespace Ready

variable {w : Bodies} {e x v : Expr} {names : Names} {supply : Supply} {name : Label}

/-- A fresh label can be given to any part of `e`. -/
theorem extend (ready : Ready e w names supply) (inside : Within x e) :
    w ≤ w.insert ⟨supply.label⟩ x ∧
      Ready e (w.insert ⟨supply.label⟩ x) names { supply with label := supply.label + 1 } := by
  have later : w ≤ w.insert ⟨supply.label⟩ x := Bodies.le_insert (ready.fresh _ (Nat.le_refl _))
  refine ⟨later, ready.covers.grows later, fun label body found => ?_,
    fun y v inside plain named found => ?_, fun label new => ?_⟩
  · by_cases same : label = ⟨supply.label⟩
    · obtain rfl : x = body := Option.some.inj ((if_pos same).symm.trans found)
      exact inside
    · exact ready.parts label body ((if_neg same).symm.trans found)
  · obtain ⟨marked, formed⟩ := ready.names y v inside plain named found
    exact ⟨marked.grows later, formed⟩
  · have new : supply.label + 1 ≤ label.number := new
    have other : label ≠ ⟨supply.label⟩ := by
      rintro rfl
      exact absurd new (by simp)
    exact (if_neg other).trans (ready.fresh label (by omega))

/-- The label stands for `x`, so both `x` and what is marked of it get its name. -/
theorem label (ready : Ready e w names supply) (inside : Within x e)
    (known : w.body? name = some x) (marked : Marked w x v) (formed : Formed v)
    (kind : v.kind ≠ .multiIndex) :
    Ready e w ((names.insert x (.labelled name v)).insert v (.labelled name v)) supply := by
  refine ⟨ready.covers, ready.parts, fun y named within plain nameable found => ?_, ready.fresh⟩
  have given (below : Marked w y v) : Marked w y (.labelled name v) ∧ Formed (.labelled name v) :=
    ⟨.named known marked below plain nameable, .labelled kind formed⟩
  rw [Std.HashMap.getElem?_insert] at found
  by_cases same : (v == y) = true
  · rw [if_pos same] at found
    cases found
    exact given (marked.alike ready.covers within (same_symm same))
  · rw [if_neg same, Std.HashMap.getElem?_insert] at found
    by_cases same : (x == y) = true
    · rw [if_pos same] at found
      cases found
      obtain rfl := same_eq_within ready.covers.consistent inside within same
      exact given marked
    · rw [if_neg same] at found
      exact ready.names y named within plain nameable found

end Ready

theorem marking_upkeep {e : Expr} (made : Constructible e) (uniform : Uniform e)
    (duplications : Std.HashSet Expr) :
    Upkeep (Marking.rules duplications) e False (fun w x v => Marked w x v ∧ Formed v) (Ready e) where
  grows later holds := ⟨holds.1.grows later, holds.2⟩
  alike ready left right same holds :=
    same_eq_within ready.covers.consistent left right same ▸ holds
  rule {w names supply x values} inside below ready := by
    by_cases plain : x.kind = .labelled
    · rw [plain]
      refine ⟨_, Marking.rule_labelled duplications, ?_⟩
      cases x with
      | terminal data => cases data <;> cases plain
      | node op => cases op <;> cases plain
      | labelled label body =>
          obtain ⟨v, rfl, marked, formed⟩ := pairs_one below
          have known := ready.covers label body inside
          have within : Within body e := (Within.operand List.mem_cons_self).trans inside
          -- Whichever body it gets, it is one that the old body is marked as.
          have relabels {after : Expr} (marked : Marked w body after) (formed : Formed after) :
              Ends False (Marking.label label body after names supply) fun result =>
                ∃ w', w ≤ w' ∧ (Marked w' (.labelled label body) result.1.1 ∧ Formed result.1.1) ∧
                  Ready e w' result.1.2 result.2 := by
            refine Marking.label_ends.mpr ?_
            split
            · exact id
            · rename_i kind
              exact ⟨w, le_refl w, ⟨.kept known marked, .labelled kind formed⟩,
                ready.label within known marked formed kind⟩
          have here {inner : Label} {rewritten : Expr} (same : v = .labelled inner rewritten)
              (other : body.kind ≠ .labelled) : Marked w body rewritten := by
            subst same
            cases marked with
            | kept => exact absurd rfl other
            | named _ _ below => exact below
          refine Marking.labelled_ends (fun _ => relabels marked formed) ?_ ?_
          · intro inner rewritten same other
            subst same
            exact relabels (here rfl other) (formed.operand List.mem_cons_self)
          · intro rewritten same other
            subst same
            exact ⟨w, le_refl w, ⟨.kept known (here rfl other), formed⟩, ready⟩
    · cases unnamed : x.kind.isUnnamed with
      | true =>
          exact ⟨_, Marking.rule_unnamed duplications unnamed, w, le_refl w,
            ⟨.refl (ready.covers.within inside), (made.within inside).formed⟩, ready⟩
      | false =>
          refine ⟨_, Marking.rule_node duplications unnamed plain, Marking.node_ends.mpr ?_⟩
          cases found : names[x]? with
          | some named =>
              exact ⟨w, le_refl w, ready.names x named inside plain unnamed found, ready⟩
          | none =>
              cases run : x.reuse values supply with
              | error err => exact id
              | ok result =>
                  obtain ⟨v, after⟩ := result
                  obtain ⟨marked, formed, rfl⟩ := reuse_marked (made.within inside)
                    (uniform.within inside) (ready.covers.within inside) plain below run
                  show if _ then _ else _
                  split
                  · obtain ⟨later, ready⟩ := ready.extend inside
                    refine Marking.label_ends.mpr ?_
                    split
                    · exact id
                    · rename_i kind
                      have body := Bodies.insert_body w ⟨after.label⟩ x
                      have marked := marked.grows later
                      exact ⟨_, later, ⟨.named body marked marked plain unnamed, .labelled kind formed⟩,
                        ready.label inside body marked formed kind⟩
                  · exact ⟨w, le_refl w, ⟨marked, formed⟩, ready⟩

namespace Expr

/-- The labels of `e` have been handed out. -/
def Supplied (e : Expr) (supply : Supply) : Prop :=
  ∀ label body, Within (.labelled label body) e → label.number < supply.label

open Classical in
/-- The bodies that the labels of `e` have there. -/
noncomputable def bodies (e : Expr) : Bodies :=
  ⟨fun label => if found : ∃ body, Within (.labelled label body) e then some found.choose else none⟩

theorem bodies_covers {e : Expr} (consistent : Consistent e) : e.bodies.Covers e := by
  intro label body inside
  have found : ∃ body, Within (.labelled label body) e := ⟨body, inside⟩
  exact (dif_pos found).trans (congrArg some (consistent label _ body found.choose_spec inside))

/-- Marking returns the expression with labels around some of its nodes. -/
theorem mark_duplications_marked {e m : Expr} {supply after : Supply} (made : Constructible e)
    (consistent : Consistent e) (supplied : Supplied e supply) (uniform : Uniform e)
    (run : e.markDuplications supply = .ok (m, after)) :
    ∃ w : Bodies, (∀ label body, w.body? label = some body → Within body e) ∧ Marked w e m ∧
      Formed m := by
  have ready : Ready e e.bodies ∅ supply := by
    refine ⟨bodies_covers consistent, fun label body found => ?_,
      fun x v _ _ _ found => by simp at found, fun label new => ?_⟩
    · unfold bodies at found
      simp only at found
      split at found
      · rename_i known
        cases found
        exact (Within.operand List.mem_cons_self).trans known.choose_spec
      · cases found
    refine dif_neg fun ⟨body, inside⟩ => ?_
    have known := supplied label body inside
    omega
  have ends := transform_ends (marking_upkeep made uniform e.duplications) ready
  obtain ⟨_, ran⟩ := run_state_ok run
  obtain ⟨w, later, ⟨marked, formed⟩, done⟩ := ends.of_ok ran
  exact ⟨w, done.parts, marked, formed⟩

end Expr

end FormCalculus
