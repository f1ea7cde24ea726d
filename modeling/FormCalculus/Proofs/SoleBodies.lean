import FormCalculus.Proofs.Reusing
import FormCalculus.Proofs.Stepping
import FormCalculus.Proofs.StrippingMarked

/-!
The bodies that labels have after marking. Each label gets one new body. A label keeps its old body
beside it only in a part that hides labels, since such a part can be kept as it stands.
-/
set_option autoImplicit false

namespace FormCalculus

open Expr

namespace Expr

/-- A part of `e` that hides labels has the label with this body. -/
def Hidden (e : Expr) (label : Label) (body : Expr) : Prop :=
  ∃ x, Within x e ∧ x.kind ≠ .labelled ∧ Hides x ∧ Within (labelled label body) x

/-- The labels in `v` have their bodies of `w`, or those that hidden parts of `e` have. -/
def Sole (w : Bodies) (e v : Expr) : Prop :=
  ∀ label body, Within (labelled label body) v → w.body? label = some body ∨ Hidden e label body

variable {w w' : Bodies} {e x v o : Expr} {values : List Expr}
  {supply after : Supply}

theorem Sole.grows (sole : Sole w e v) (later : w ≤ w') : Sole w' e v :=
  fun label body inside => (sole label body inside).imp_left (later label body)

theorem Sole.operand (sole : Sole w e v) (member : o ∈ v.operands) : Sole w e o :=
  fun label body inside => sole label body (inside.trans (.operand member))

theorem sole_of_operands (plain : v.kind ≠ .labelled) (below : ∀ o ∈ v.operands, Sole w e o) :
    Sole w e v := by
  intro label body inside
  cases inside with
  | refl => exact absurd rfl plain
  | step member inside => exact below _ member label body inside

theorem Sole.labelled {label : Label} {body : Expr} (sole : Sole w e body)
    (known : w.body? label = some body) : Sole w e (.labelled label body) := by
  intro label' body' inside
  cases inside with
  | refl => exact .inl known
  | step member inside =>
      obtain rfl := List.mem_singleton.mp member
      exact sole label' body' inside

theorem sole_of_made (made : Made (Sole w e) v) : Sole w e v := by
  induction made with
  | given sole => exact sole
  | @constant data _ => exact sole_of_operands (by cases data <;> nofun) nofun
  | operand _ member ih => exact ih.operand member
  | @node op _ _ _ _ _ _ ih => exact sole_of_operands (by cases op <;> nofun) ih

theorem reuse_sole (inside : Within x e) (plain : x.kind ≠ .labelled)
    (below : ∀ v ∈ values, Sole w e v) (run : x.reuse values supply = .ok (v, after)) :
    Sole w e v ∧ after.label = supply.label := by
  obtain ⟨same, rfl, rfl⟩ | rebuilt := reuse_cases run
  · -- A node that is kept hides labels, or has the new operands.
    refine ⟨?_, rfl⟩
    by_cases hides : Hides v
    · exact fun label body within => .inr ⟨v, inside, plain, hides, within⟩
    · rw [has_operands_core hides same] at below
      exact sole_of_operands plain below
  · cases reconstruct_cases rebuilt with
    | terminal data same => exact ⟨sole_of_operands plain nofun, same ▸ rfl⟩
    | @node op _ _ _ _ made =>
        have built : Made (Sole w e) v := Made.build (fun o member => .given (below o member)) made
        exact ⟨sole_of_made built, (build_grows op values supply v after made).2⟩
    | labelled => exact absurd rfl plain

end Expr

/-- What has been named is sole, and the labels to come are new. -/
structure Registered (e : Expr) (w : Bodies) (names : Names) (supply : Supply) : Prop where
  names : ∀ (k named : Expr), names[k]? = some named → Sole w e named
  fresh : ∀ label : Label, supply.label ≤ label.number → w.body? label = none
  supplied : Supplied e supply

/-- The value of a rule is sole, once its label has got a body; no other label of `e` gets one. -/
def Outcome (e : Expr) (w : Bodies) (x : Expr) (result : (Expr × Names) × Supply) : Prop :=
  ∃ w', w ≤ w' ∧ Sole w' e result.1.1 ∧ Registered e w' result.1.2 result.2 ∧
    ∀ label body, Within (labelled label body) e → ¬ (x == labelled label body) = true →
      w.body? label = none → w'.body? label = none

namespace Registered

variable {w : Bodies} {e x v : Expr} {names : Names} {supply : Supply} {name : Label}
  {values : List Expr} {duplications : Std.HashSet Expr}

theorem kept (registered : Registered e w names supply) (sole : Sole w e v) :
    Outcome e w x ((v, names), supply) :=
  ⟨w, le_refl w, sole, registered, fun _ _ _ _ none => none⟩

theorem label {before after : Expr} (registered : Registered e w names supply) (sole : Sole w e after)
    (new : w.body? name = none) (given : name.number < supply.label)
    (other : ∀ label body, Within (labelled label body) e → ¬ (x == labelled label body) = true →
      label ≠ name) :
    Ends False (Marking.label name before after names supply) (Outcome e w x) := by
  refine Marking.label_ends.mpr ?_
  split
  · exact id
  · -- The label gets its body, under which both forms of the expression are named.
    have later : w ≤ w.insert name after := Bodies.le_insert new
    have named := (sole.grows later).labelled (Bodies.insert_body w name after)
    refine ⟨w.insert name after, later, named, ⟨fun k found known => ?_, fun label fresh => ?_,
      registered.supplied⟩, fun label body inside apart none => ?_⟩
    · rw [Std.HashMap.getElem?_insert] at known
      split at known
      · cases known
        exact named
      · rw [Std.HashMap.getElem?_insert] at known
        split at known
        · cases known
          exact named
        · exact (registered.names k found known).grows later
    · have fresh : supply.label ≤ label.number := fresh
      have differs : label ≠ name := by
        rintro rfl
        omega
      exact (if_neg differs).trans (registered.fresh label fresh)
    · exact (if_neg (other label body inside apart)).trans none

theorem labelled {body v : Expr} (registered : Registered e w names supply)
    (inside : Within (.labelled name body) e) (sole : Sole w e v) (new : w.body? name = none) :
    Ends False (Marking.labelled (.labelled name body) [v] names supply)
      (Outcome e w (.labelled name body)) := by
  have relabels {before after : Expr} (sole : Sole w e after) :
      Ends False (Marking.label name before after names supply)
        (Outcome e w (.labelled name body)) := by
    refine registered.label sole new (registered.supplied name body inside) ?_
    rintro label _ _ apart rfl
    exact apart (by simp)
  cases v with
  | terminal => exact relabels sole
  | node => exact relabels sole
  | labelled inner rewritten =>
      show Ends False ((if body.kind = .labelled then Marking.label name body _
        else if inner = name then pure _ else Marking.label name body rewritten :
          Marking Expr) names supply) _
      -- The body is a label of its own, or has just got this one, or has got a name to take off.
      split
      · exact relabels sole
      · split
        · exact registered.kept sole
        · exact relabels (sole.operand List.mem_cons_self)

theorem node (registered : Registered e w names supply) (inside : Within x e)
    (plain : x.kind ≠ .labelled) (below : ∀ v ∈ values, Sole w e v) :
    Ends False (Marking.node duplications x values names supply) (Outcome e w x) := by
  refine Marking.node_ends.mpr ?_
  cases found : names[x]? with
  | some named => exact registered.kept (registered.names x named found)
  | none =>
      cases run : x.reuse values supply with
      | error err => exact id
      | ok result =>
          obtain ⟨v, after⟩ := result
          obtain ⟨sole, same⟩ := reuse_sole inside plain below run
          show if _ then _ else _
          split
          · -- The fresh label is no label of `e`, since those have been handed out.
            have later : Registered e w names { after with label := after.label + 1 } := by
              refine ⟨registered.names, fun label fresh => registered.fresh label ?_,
                fun label body inside => ?_⟩
              · have fresh : after.label + 1 ≤ label.number := fresh
                omega
              · have small := registered.supplied label body inside
                show label.number < after.label + 1
                omega
            refine later.label sole (registered.fresh _ (Nat.le_of_eq same.symm)) (Nat.lt_succ_self _) ?_
            rintro label body inside _ rfl
            have small := registered.supplied _ body inside
            simp only at small
            omega
          · refine Registered.kept ⟨registered.names, fun label fresh => ?_, fun label body inside => ?_⟩
              sole
            · exact registered.fresh label (same ▸ fresh)
            · exact same ▸ registered.supplied label body inside

end Registered

namespace Expr

open Runs

variable {w : Bodies} {e m x v : Expr} {memo : Memo Expr} {names : Names} {supply after : Supply}
  {values : List Expr} {duplications : Std.HashSet Expr}

theorem rule_outcome {rule : Rule Marking Expr} {result : (Expr × Names) × Supply}
    (registered : Registered e w names supply) (inside : Within x e)
    (length : values.length = x.operands.length) (below : ∀ v ∈ values, Sole w e v)
    (new : ∀ label body, x = labelled label body → w.body? label = none)
    (found : (Marking.rules duplications).rule? x.kind = some rule)
    (run : rule x values names supply = .ok result) : Outcome e w x result := by
  by_cases plain : x.kind = .labelled
  · rw [plain, Marking.rule_labelled] at found
    cases found
    cases x with
    | terminal data => cases data <;> cases plain
    | node op => cases op <;> cases plain
    | labelled label body =>
        obtain ⟨value, rfl⟩ := List.length_eq_one_iff.mp length
        have sole := below value List.mem_cons_self
        exact (registered.labelled inside sole (new label body rfl)).of_ok run
  · by_cases unnamed : x.kind.isUnnamed = true
    · rw [Marking.rule_unnamed duplications unnamed] at found
      cases found
      cases run
      -- Only terminals are never named.
      cases x with
      | terminal data => exact registered.kept (sole_of_operands plain nofun)
      | node op => cases op <;> cases unnamed
      | labelled => exact absurd rfl plain
    · rw [Marking.rule_node duplications (eq_false_of_ne_true unnamed) plain] at found
      cases found
      exact (registered.node inside plain below).of_ok run

/-- What has a value has a sole one, and the labels that wait for theirs have no body. -/
structure Accounted (e : Expr) (w : Bodies) (memo : Memo Expr) (state : Names × Supply) : Prop where
  values : ∀ (x v : Expr), Within x e → memo[x]? = some v → Sole w e v
  waiting : ∀ label body, Within (labelled label body) e → memo[labelled label body]? = none →
    w.body? label = none
  registered : Registered e w state.1 state.2

theorem Accounted.step {first last : Memo Expr × Names × Supply} (accounted : Accounted e w first.1 first.2)
    (step : Step (Marking.rules duplications) (Within · e) first last) :
    ∃ w', Accounted e w' last.1 last.2 := by
  cases step with
  | @give x memo values rule state state' v inside new answers found ran =>
      have below : ∀ v ∈ values, Sole w e v := fun v member => by
        obtain ⟨o, operand, known⟩ := pairs_member answers member
        exact accounted.values o v ((Within.operand operand).trans inside) known
      have waits (label : Label) (body : Expr) (same : x = labelled label body) :
          w.body? label = none := by
        subst same
        exact accounted.waiting label body inside new
      obtain ⟨w', later, sole, registered, others⟩ := rule_outcome accounted.registered inside
        answers.length_eq.symm below waits found ran
      -- Only the part that got its value stops waiting.
      refine ⟨w', fun y value within known => ?_, fun label body within missing => ?_, registered⟩
      · have known : (memo.insert x v)[y]? = some value := known
        rw [Std.HashMap.getElem?_insert] at known
        split at known
        · cases known
          exact sole
        · exact (accounted.values y value within known).grows later
      · have missing : (memo.insert x v)[labelled label body]? = none := missing
        rw [Std.HashMap.getElem?_insert] at missing
        split at missing
        · cases missing
        · exact others label body within ‹_› (accounted.waiting label body within missing)

/-- Every label that marking leaves has the one new body, or is where a hidden part keeps it. -/
theorem mark_duplications_sole (consistent : Consistent e) (supplied : Supplied e supply)
    (run : e.markDuplications supply = .ok (m, after)) : ∃ w, Sole w e m := by
  obtain ⟨names, ran⟩ := run_state_ok run
  have ran : Ran (transform (Marking.rules e.duplications) e) (∅, supply) m (names, after) := ran
  obtain ⟨memo, steps, found⟩ := transform_steps consistent ran
  have start : Accounted e ⟨fun _ => none⟩ (∅ : Memo Expr) (∅, supply) :=
    ⟨fun x v _ found => by simp at found, fun _ _ _ _ => rfl,
      ⟨fun k named found => by simp at found, fun _ _ => rfl, supplied⟩⟩
  -- By induction on the steps, each of which may give one more label its body.
  have accounted : ∀ last, Steps (Marking.rules e.duplications) (Within · e) (∅, ∅, supply) last →
      ∃ w, Accounted e w last.1 last.2 := by
    intro last steps
    induction steps with
    | refl => exact ⟨_, start⟩
    | tail _ step ih =>
        obtain ⟨w, accounted⟩ := ih
        exact accounted.step step
  obtain ⟨w, accounted⟩ := accounted _ steps
  exact ⟨w, accounted.values e m (.refl e) found⟩

/-- After marking, two bodies of one label differ only if a part that hides labels keeps one of
them; so they are the same where no part hides labels. -/
theorem mark_duplications_bodies (consistent : Consistent e) (supplied : Supplied e supply)
    (run : e.markDuplications supply = .ok (m, after)) :
    (∀ label a b, Within (labelled label a) m → Within (labelled label b) m →
      a = b ∨ Hidden e label a ∨ Hidden e label b) ∧
    (¬ Consistent m ↔ ∃ label a b, Within (labelled label a) m ∧ Within (labelled label b) m ∧
      a ≠ b ∧ Hidden e label b) ∧
    ((∀ x, Within x e → x.kind ≠ .labelled → ¬ Hides x) → Consistent m) := by
  obtain ⟨w, sole⟩ := mark_duplications_sole consistent supplied run
  have bodies : ∀ label a b, Within (labelled label a) m → Within (labelled label b) m →
      a = b ∨ Hidden e label a ∨ Hidden e label b := by
    intro label a b left right
    obtain known | hidden := sole label a left
    · obtain known' | hidden := sole label b right
      · exact .inl (Option.some.inj (known.symm.trans known'))
      · exact .inr (.inr hidden)
    · exact .inr (.inl hidden)
  refine ⟨bodies, ⟨fun two => ?_, ?_⟩, fun bare label a b left right => ?_⟩
  · by_contra none
    refine two fun label a b left right => ?_
    by_contra differ
    obtain same | hidden | hidden := bodies label a b left right
    · exact differ same
    · exact none ⟨label, b, a, right, left, fun same => differ same.symm, hidden⟩
    · exact none ⟨label, a, b, left, right, differ, hidden⟩
  · rintro ⟨label, a, b, left, right, differ, _⟩ same
    exact differ (same label a b left right)
  · obtain same | ⟨x, inside, plain, hides, _⟩ | ⟨x, inside, plain, hides, _⟩ :=
      bodies label a b left right
    · exact same
    · exact absurd hides (bare x inside plain)
    · exact absurd hides (bare x inside plain)

section Sample

/-- The root of a field, under a label. -/
def flatRoot : Expr := .node .sqrt [flat] [] ∅

def ownRoot : Expr := .labelled ⟨0⟩ flatRoot

/-- The labelled root beside a double root around it. -/
def besideRoots : Expr := .node .sum [doubleRoot ⟨0⟩ flatRoot, ownRoot] [] ∅

/-- The field has got a name in the body of the label, but not below the double root. -/
def besideRootsMarked : Expr :=
  .node .sum [doubleRoot ⟨0⟩ flatRoot, .labelled ⟨0⟩ (.node .sqrt [.labelled ⟨1⟩ flat] [] ∅)] [] ∅

theorem beside_roots_labels {label : Label} {body : Expr}
    (inside : Within (labelled label body) besideRoots) : label = ⟨0⟩ ∧ body = flatRoot := by
  rw [← mem_parts] at inside
  simpa [besideRoots, doubleRoot, ownRoot, flatRoot, flat, parts, partsAll] using inside

theorem beside_roots_consistent : Consistent besideRoots := by
  intro label a b left right
  rw [(beside_roots_labels left).2, (beside_roots_labels right).2]

open Marking in
theorem beside_roots_run :
    besideRoots.markDuplications { label := 1 } = .ok (besideRootsMarked, { label := 3 }) := by
  have contains {x : Expr} := duplications_contains (x := x) beside_roots_consistent
  have once {x : Expr} (never : ¬ 2 ≤ places x besideRoots) :
      besideRoots.duplications.contains x = false :=
    eq_false_of_ne_true (mt contains.mp never)
  let field : Expr := .labelled ⟨1⟩ flat
  let root : Expr := .node .sqrt [field] [] ∅
  let named : Expr := .labelled ⟨2⟩ root
  let own : Expr := .labelled ⟨0⟩ root
  let inner : Expr := .node .sqrt [ownRoot] [] ∅
  let rebuilt : Expr := .node .sqrt [own] [] ∅
  let outer : Expr := doubleRoot ⟨0⟩ flatRoot
  let names : Names := ((∅ : Names).insert flat field).insert flat field
  let names' : Names := (names.insert flatRoot named).insert root named
  let names'' : Names := (names'.insert flatRoot own).insert root own
  let memo : Memo Expr := (∅ : Memo Expr).insert flat field
  let memo' := memo.insert flatRoot named
  let memo'' := memo'.insert ownRoot own
  let all := rules besideRoots.duplications
  have visit : transformIn all flat ∅ ∅ { label := 1 } =
      .ok (((field, memo), names), { label := 2 }) :=
    visit_named flat { label := 1 } (by rfl) (by decide) Std.HashMap.getElem?_empty rfl
      Std.HashMap.getElem?_empty rfl (contains.mpr (by cbv)) (by decide) (by rfl)
  have visit2 : transformIn all flatRoot ∅ ∅ { label := 1 } =
      .ok (((named, memo'), names'), { label := 3 }) :=
    visit_named root { label := 2 } (by rfl) (by decide) Std.HashMap.getElem?_empty
      (visit_all_cons visit rfl) (by simp [names, flat, flatRoot]) (by cbv)
      (contains.mpr (by cbv)) (by decide) (by rfl)
  -- The label goes around the new root, from which the name of the pass is taken off.
  have visit3 : transformIn all ownRoot ∅ ∅ { label := 1 } =
      .ok (((own, memo''), names''), { label := 3 }) :=
    visit_new Std.HashMap.getElem?_empty (visit_all_cons visit2 rfl) (rule_labelled _) rfl
  have visit4 : transformIn all inner ∅ ∅ { label := 1 } =
      .ok (((rebuilt, memo''.insert inner rebuilt), names''), { label := 3 }) :=
    visit_kept (by rfl) (by decide) Std.HashMap.getElem?_empty (visit_all_cons visit3 rfl)
      (by simp [names'', names', names, flat, flatRoot, inner, ownRoot, root, field]) (by cbv)
      (once (by cbv)) (once (by cbv))
  -- The inner root is another one than before, and seems to the outer one to be the same.
  have visit5 : transformIn all outer ∅ ∅ { label := 1 } =
      .ok (((outer, (memo''.insert inner rebuilt).insert outer outer), names''), { label := 3 }) :=
    visit_kept (by rfl) (by decide) Std.HashMap.getElem?_empty (visit_all_cons visit4 rfl)
      (by simp [names'', names', names, flat, flatRoot, outer, doubleRoot, root, field]) (by cbv)
      (once (by cbv)) (once (by cbv))
  have known : ((memo''.insert inner rebuilt).insert outer outer)[ownRoot]? = some own := by
    rw [Std.HashMap.getElem?_insert, if_neg (by simp [outer, doubleRoot, ownRoot]),
      Std.HashMap.getElem?_insert, if_neg (by simp [inner, ownRoot])]
    exact Std.HashMap.getElem?_insert_self
  have visit6 : transformIn all besideRoots ∅ ∅ { label := 1 } =
      .ok (((besideRootsMarked, ((memo''.insert inner rebuilt).insert outer outer).insert
        besideRoots besideRootsMarked), names''), { label := 3 }) :=
    visit_kept (by rfl) (by decide) Std.HashMap.getElem?_empty
      (visit_all_cons visit5 (visit_all_cons (visit_known known) rfl))
      (by simp [names'', names', names, flat, flatRoot, besideRoots, root, field]) (by cbv)
      (once (by cbv)) (once (by cbv))
  show (transform all besideRoots ∅ { label := 1 } >>= fun result => _) = _
  rw [transform_runs visit6]
  rfl

/-- Below the double root the label keeps its old body, beside it it has a new one. -/
theorem beside_roots_bodies : Consistent besideRoots ∧ ¬ Consistent besideRootsMarked ∧
    besideRoots.markDuplications { label := 1 } = .ok (besideRootsMarked, { label := 3 }) ∧
    ∃ label a b, Within (labelled label a) besideRootsMarked ∧
      Within (labelled label b) besideRootsMarked ∧ a ≠ b ∧ Hidden besideRoots label b := by
  have supplied : Supplied besideRoots { label := 1 } := by
    intro label body inside
    rw [(beside_roots_labels inside).1]
    exact Nat.zero_lt_one
  have differ : ¬ Consistent besideRootsMarked := by
    intro same
    have old : Within ownRoot besideRootsMarked :=
      .step List.mem_cons_self (.step List.mem_cons_self (.operand List.mem_cons_self))
    have new : Within (.labelled ⟨0⟩ (.node .sqrt [.labelled ⟨1⟩ flat] [] ∅)) besideRootsMarked :=
      .operand (List.mem_cons_of_mem _ List.mem_cons_self)
    have bodies := same _ _ _ old new
    simp [flatRoot, flat] at bodies
  obtain ⟨_, two, _⟩ := mark_duplications_bodies beside_roots_consistent supplied beside_roots_run
  exact ⟨beside_roots_consistent, differ, beside_roots_run, two.mp differ⟩

end Sample

end Expr

end FormCalculus
