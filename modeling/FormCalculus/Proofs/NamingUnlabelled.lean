import FormCalculus.Proofs.Dressing
import FormCalculus.Proofs.Naming
import FormCalculus.Proofs.Occurring

/-!
The pass that names repeated subexpressions dresses an expression without labels: exactly the
repeated parts that can be named get a label, each a fresh one. It only fails where a repeated
condition would have to be rebuilt under a conditional or a logical connective.
-/
set_option autoImplicit false

namespace FormCalculus

open Expr

namespace Operator

variable {op : Operator} {xs : List Expr} {shape : Shape} {free : FreeIndices}
  {names : Expr → Option Label}

theorem tested_map (f : Expr → Expr) : op.tested (xs.map f) = (op.tested xs).map f := by
  cases op with
  | conditional => exact List.map_take.symm
  | condition op =>
      rw [tested, tested]
      split <;> rfl
  | _ => rfl

/-- A dressed condition is one unless it has got a label. -/
theorem dressed_tests (types : op.Types xs shape free) :
    op.Tests (xs.map (dress names)) ↔ ∀ test ∈ op.tested xs, names test = none := by
  unfold Tests
  rw [tested_map, List.forall_mem_map]
  refine forall₂_congr fun test member => ?_
  have kind : (bare names test).kind = .condition := bare_kind.trans (types_test types test member)
  rw [dress_eq]
  cases names test with
  | none => exact ⟨fun _ => rfl, fun _ => kind⟩
  | some label => exact ⟨nofun, nofun⟩

/-- The operand of a derivative lives where it lived before. -/
theorem dressed_lives (formed : Formed (.node op xs shape free))
    (plain : Unlabelled (.node op xs shape free)) (uniform : Uniform (.node op xs shape free))
    (sparing : Sparing names) (separate : Separate names) :
    op.Lives (xs.map (dress names)) shape free := by
  obtain _ | ⟨run, _, _⟩ := formed
  obtain ⟨types, _, lives⟩ := assembled run
  have same {f : Expr} {g : Nat} (kind : op.kind = .grad ∨ op.kind = .spatialDerivative)
      (member : f ∈ xs) (known : f.geometricDimension = .ok g) :
      (dress names f).geometricDimension = .ok g := by
    obtain ⟨dim, on⟩ := uniform _ (.refl _) kind
    obtain ⟨data, inside, lives⟩ := geometric_dimension_ok known
    obtain rfl := on data (.step member inside) g lives
    exact geometric_dimension_runs (dress_consistent (plain.operand member) separate)
      (fun data inside => on data (.step member (terminal_within_dress.mp inside)))
      (terminal_within_dress.mpr inside) lives
  cases types with
  | @grad f =>
      obtain ⟨g, known, shape⟩ := lives
      exact ⟨g, same (.inl rfl) List.mem_cons_self known, by rw [shape, (dress_stored _ _).1]⟩
  | @spatialDerivative f items =>
      obtain ⟨g, items', known, eq, subscribes⟩ := lives
      refine ⟨g, items', same (.inr rfl) List.mem_cons_self known, ?_, ?_⟩
      · rw [← eq]
        exact dress_unnamed sparing rfl
      · rwa [(dress_stored _ _).2]
  | _ => trivial

end Operator

namespace Expr

variable {names : Expr → Option Label} {e x v : Expr} {values : List Expr}
  {supply after : Supply}

/-- Operands that were not rewritten have got no labels. -/
theorem has_dressed_operands (plain : Unlabelled x)
    (same : x.hasOperands (x.operands.map (dress names)) = true) :
    x.operands.map (dress names) = x.operands ∧ ∀ o ∈ x.operands, names o = none := by
  have equal (o : Expr) (member : o ∈ x.operands) (through : (dress names o).sameThrough o = true) :
      dress names o = o := by
    have under : Unlabelled o := plain.operand member
    rw [same_through_node (under o (.refl o))] at through
    exact (same_eq under (same_symm through)).symm
  have pairs := has_operands_pairs same
  rw [List.forall₂_map_left_iff, List.forall₂_same] at pairs
  refine ⟨(List.map_congr_left fun o member => equal o member (pairs o member)).trans (List.map_id _),
    fun o member => ?_⟩
  refine (dress_unlabelled ?_).1
  rw [equal o member (pairs o member)]
  exact plain.operand member

/-- Reusing or rebuilding a node under dressed operands dresses it, unless a condition that has got
a label is tested. -/
theorem reuse_dressed (formed : Formed x) (typed : WellTyped x) (plain : Unlabelled x)
    (uniform : Uniform x) (sparing : Sparing names) (separate : Separate names)
    (below : ∀ o ∈ x.operands, Formed (dress names o)) {total : Prop} (free : total →
      ∀ op xs shape free, x = .node op xs shape free → ∀ test ∈ op.tested xs, names test = none) :
    Ends total (x.reuse (x.operands.map (dress names)) supply) fun result =>
      result = (bare names x, supply) ∧ Formed (bare names x) ∧
        ∀ op xs shape free, x = .node op xs shape free → ∀ test ∈ op.tested xs, names test = none := by
  cases x with
  | labelled label body => exact absurd rfl (plain _ (.refl _))
  | terminal data => exact ⟨rfl, .terminal data, by simp⟩
  | node op xs shape free' =>
      have length : (xs.map (dress names)).length = xs.length := List.length_map _
      have stands : List.Forall₂ Stands xs (xs.map (dress names)) := by
        rw [List.forall₂_map_right_iff, List.forall₂_same]
        exact fun o member => dress_stands (typed.operand member)
          (plain o (.operand member)) sparing
      have lives := Operator.dressed_lives formed plain uniform sparing separate
      obtain _ | ⟨assembled, spreads, _⟩ := formed
      have types := (Operator.assembled assembled).1
      rw [operands, reuse_assembles assembled length (Operator.spreads_stand spreads stands)
        fun same => (has_dressed_operands plain same).1]
      have tests : op.Tests (xs.map (dress names)) ↔ _ := Operator.dressed_tests types
      cases run : op.assemble (xs.map (dress names)) with
      | error err =>
          intro total
          have again := Operator.assembles_standing assembled stands
            (tests.mpr (free total op xs shape free' rfl)) lives
          cases run.symm.trans again
      | ok r =>
          have tested := Operator.tests_of_run types stands run
          have again := Operator.assembles_standing assembled stands tested lives
          obtain rfl := Except.ok.inj (run.symm.trans again)
          rw [bare, dress_all_map]
          refine ⟨rfl, assemble_formed (Operator.spreads_stand spreads stands)
            (List.forall_mem_map.mpr below) run, fun op' xs' shape' free' same => ?_⟩
          cases same
          exact tests.mp tested

end Expr

/-! The pass over an expression without labels. -/

/-- The parts that the pass has been through, and the labels it has given. -/
structure Labelling where
  done : Expr → Prop
  name : Expr → Option Label

namespace Labelling

/-- Parts are added, and keep their label or that they have none. -/
instance : Preorder Labelling where
  le w w' := ∀ x, w.done x → w'.done x ∧ w.name x = w'.name x
  le_refl _ _ done := ⟨done, rfl⟩
  le_trans _ _ _ first second x done :=
    have ⟨done, same⟩ := first x done
    have ⟨done, same'⟩ := second x done
    ⟨done, same.trans same'⟩

open Classical in
/-- The pass has been through `x` too. -/
noncomputable def insert (w : Labelling) (x : Expr) (label : Option Label) : Labelling where
  done y := y = x ∨ w.done y
  name y := if y = x then label else w.name y

variable {w w' : Labelling} {x y : Expr} {label : Option Label}

theorem insert_name : (w.insert x label).name x = label := if_pos rfl

theorem insert_other (other : y ≠ x) : (w.insert x label).name y = w.name y := if_neg other

theorem le_insert (kept : w.done x → w.name x = label) : w ≤ w.insert x label := by
  intro y done
  refine ⟨.inr done, ?_⟩
  by_cases same : y = x
  · subst same
    rw [insert_name, kept done]
  · rw [insert_other same]

end Labelling

/-- Whether a part of `e` is to be named. -/
def Expr.Named (e x : Expr) : Prop :=
  e.duplications.contains x = true ∧ x.kind.isUnnamed = false

/-- No condition repeated in `e` is tested in `x`. -/
def Expr.Untested (e x : Expr) : Prop :=
  ∀ op xs shape free, Within (.node op xs shape free) x → ∀ test ∈ op.tested xs,
    e.duplications.contains test = false

/-- How far the pass over `e` has come. -/
structure Progress (e : Expr) (first : Nat) (w : Labelling) (names : Names) (supply : Supply) : Prop where
  start : first ≤ supply.label
  closed : ∀ x, w.done x → ∀ y, Within y x → w.done y
  decided : ∀ x, w.done x → (w.name x ≠ none ↔ e.Named x)
  sound : ∀ x, w.done x → Formed (dress w.name x) ∧ e.Untested x
  only : ∀ x, w.name x ≠ none → w.done x
  separate : Separate w.name
  fresh : ∀ x label, w.name x = some label → first ≤ label.number ∧ label.number < supply.label
  known : ∀ x v, Within x e → names[x]? = some v → w.done x ∧ v = dress w.name x
  named : ∀ x, w.done x → w.name x ≠ none → names[x]? ≠ none

namespace Progress

variable {e x v : Expr} {first : Nat} {w w' : Labelling} {names : Names} {supply : Supply}

theorem sparing (progress : Progress e first w names supply) : Sparing w.name := by
  intro x unnamed
  by_contra some
  have named := (progress.decided x (progress.only x some)).mp some
  exact nomatch unnamed.symm.trans named.2

/-- Parts that are done look the same later. -/
theorem dress_later (progress : Progress e first w names supply) (later : w ≤ w')
    (done : w.done x) : dress w.name x = dress w'.name x :=
  dress_congr fun y inside => (later y (progress.closed x done y inside)).2

theorem bare_later (progress : Progress e first w names supply) (later : w ≤ w')
    (below : ∀ o ∈ x.operands, w.done o) : bare w.name x = bare w'.name x :=
  bare_congr fun o member y inside => (later y (progress.closed o (below o member) y inside)).2

theorem closed_insert (progress : Progress e first w names supply) {label : Option Label}
    (below : ∀ o ∈ x.operands, w.done o) :
    ∀ y, (w.insert x label).done y → ∀ z, Within z y → (w.insert x label).done z := by
  rintro y (rfl | done) z inside
  · cases inside with
    | refl => exact .inl rfl
    | step member inside => exact .inr (progress.closed _ (below _ member) z inside)
  · exact .inr (progress.closed y done z inside)

theorem decided_insert (progress : Progress e first w names supply) {label : Option Label}
    (decides : label ≠ none ↔ e.Named x) :
    ∀ y, (w.insert x label).done y → ((w.insert x label).name y ≠ none ↔ e.Named y) := by
  intro y done
  by_cases here : y = x
  · subst here
    rw [Labelling.insert_name]
    exact decides
  · rw [Labelling.insert_other here]
    exact progress.decided y (done.resolve_left here)

theorem sound_insert (progress : Progress e first w names supply) {label : Option Label}
    (later : w ≤ w.insert x label) (formed : Formed (dress (w.insert x label).name x))
    (untested : e.Untested x) :
    ∀ y, (w.insert x label).done y → Formed (dress (w.insert x label).name y) ∧ e.Untested y := by
  intro y done
  by_cases here : y = x
  · subst here
    exact ⟨formed, untested⟩
  · have done := done.resolve_left here
    rw [← progress.dress_later later done]
    exact progress.sound y done

/-- A part that is not to be named is done once its operands are. -/
theorem pass (progress : Progress e first w names supply) (below : ∀ o ∈ x.operands, w.done o)
    (unnamed : ¬ e.Named x) (formed : Formed (bare w.name x)) (untested : e.Untested x) :
    w ≤ w.insert x none ∧ bare w.name x = dress (w.insert x none).name x ∧
      Progress e first (w.insert x none) names supply := by
  have absent : w.name x = none := by
    by_contra some
    exact unnamed ((progress.decided x (progress.only x some)).mp some)
  have same : (w.insert x none).name = w.name := by
    funext y
    by_cases here : y = x
    · subst here
      rw [Labelling.insert_name, absent]
    · exact Labelling.insert_other here
  have later : w ≤ w.insert x none := Labelling.le_insert fun _ => absent
  have shown : bare w.name x = dress (w.insert x none).name x := by
    rw [dress_eq, same, absent]
    rfl
  refine ⟨later, shown, progress.start, progress.closed_insert below,
    progress.decided_insert ⟨nofun, fun named => absurd named unnamed⟩,
    progress.sound_insert later (shown ▸ formed) untested, ?_, ?_, ?_, ?_, ?_⟩
  · exact fun y some => .inr (progress.only y (same ▸ some))
  · exact same ▸ progress.separate
  · exact same ▸ progress.fresh
  · intro y v inside found
    obtain ⟨done, shown⟩ := progress.known y v inside found
    exact ⟨.inr done, same ▸ shown⟩
  · intro y _ some
    rw [same] at some
    exact progress.named y (progress.only y some) some

/-- A repeated part gets the next label. -/
theorem give (progress : Progress e first w names supply) (plain : Unlabelled e) (formed : Formed x)
    (below : ∀ o ∈ x.operands, w.done o) (named : e.Named x) (new : names[x]? = none)
    (rewritten : Formed (bare w.name x)) (untested : e.Untested x) :
    w ≤ w.insert x (some ⟨supply.label⟩) ∧
      .labelled ⟨supply.label⟩ (bare w.name x) = dress (w.insert x (some ⟨supply.label⟩)).name x ∧
      Progress e first (w.insert x (some ⟨supply.label⟩))
        ((names.insert x (.labelled ⟨supply.label⟩ (bare w.name x))).insert (bare w.name x)
          (.labelled ⟨supply.label⟩ (bare w.name x)))
        { supply with label := supply.label + 1 } := by
  have undone : ¬ w.done x := fun done =>
    progress.named x done ((progress.decided x done).mpr named) new
  have later : w ≤ w.insert x (some ⟨supply.label⟩) := Labelling.le_insert (absurd · undone)
  have shown : .labelled ⟨supply.label⟩ (bare w.name x) =
      dress (w.insert x (some ⟨supply.label⟩)).name x := by
    rw [dress_eq, Labelling.insert_name, progress.bare_later later below]
    rfl
  have items : (bare w.name x).kind ≠ .multiIndex := by
    intro kind
    have unnamed := named.2
    rw [bare_kind.symm.trans kind] at unnamed
    cases unnamed
  have unused {y : Expr} : w.name y ≠ some ⟨supply.label⟩ := fun own =>
    Nat.lt_irrefl _ (progress.fresh y _ own).2
  refine ⟨later, shown, Nat.le_succ_of_le progress.start, progress.closed_insert below,
    progress.decided_insert ⟨fun _ => named, fun _ => nofun⟩,
    progress.sound_insert later (shown ▸ .labelled items rewritten) untested, ?_, ?_, ?_, ?_, ?_⟩
  · intro y some
    by_cases here : y = x
    · exact .inl here
    · rw [Labelling.insert_other here] at some
      exact .inr (progress.only y some)
  · intro y z label left right
    by_cases here : y = x
    · by_cases there : z = x
      · rw [here, there]
      · subst here
        rw [Labelling.insert_name] at left
        rw [Labelling.insert_other there, ← left] at right
        exact absurd right unused
    · rw [Labelling.insert_other here] at left
      by_cases there : z = x
      · subst there
        rw [Labelling.insert_name] at right
        rw [← right] at left
        exact absurd left unused
      · rw [Labelling.insert_other there] at right
        exact progress.separate y z label left right
  · intro y label own
    by_cases here : y = x
    · subst here
      rw [Labelling.insert_name] at own
      cases own
      exact ⟨progress.start, Nat.lt_succ_self _⟩
    · rw [Labelling.insert_other here] at own
      obtain ⟨low, high⟩ := progress.fresh y label own
      exact ⟨low, Nat.lt_succ_of_lt high⟩
  · intro y v inside found
    have part : Unlabelled y := fun z below => plain z (below.trans inside)
    have here (same : y = x) (value : v = .labelled ⟨supply.label⟩ (bare w.name x)) :
        (w.insert x (some ⟨supply.label⟩)).done y ∧
          v = dress (w.insert x (some ⟨supply.label⟩)).name y := by
      subst same
      exact ⟨.inl rfl, value.trans shown⟩
    rw [Std.HashMap.getElem?_insert] at found
    by_cases rewritten : (bare w.name x == y) = true
    · -- A rewritten part without labels was not rewritten.
      rw [if_pos rewritten] at found
      obtain rfl := same_eq part (same_symm rewritten)
      exact here (bare_unlabelled formed part) (Option.some.inj found).symm
    · rw [if_neg rewritten, Std.HashMap.getElem?_insert] at found
      by_cases same : (x == y) = true
      · rw [if_pos same] at found
        exact here (same_eq part (same_symm same)) (Option.some.inj found).symm
      · rw [if_neg same] at found
        obtain ⟨done, shown⟩ := progress.known y v inside found
        exact ⟨.inr done, shown.trans (progress.dress_later later done)⟩
  · intro y done own
    rw [Std.HashMap.getElem?_insert, Std.HashMap.getElem?_insert]
    split
    · nofun
    · split
      · nofun
      · rename_i other
        have here : y ≠ x := by
          rintro rfl
          exact other (same_refl y)
        rw [Labelling.insert_other here] at own
        exact progress.named y (done.resolve_left here) own

end Progress

/-- A part that is done has the value that its labels give it. -/
def Dressed (w : Labelling) (x v : Expr) : Prop :=
  (∀ y, Within y x → w.done y) ∧ v = dress w.name x

theorem labelling_upkeep {e : Expr} (made : Constructible e) (plain : Unlabelled e)
    (uniform : Uniform e) (first : Nat) :
    Upkeep (Marking.rules e.duplications) e (e.Untested e) Dressed (Progress e first) where
  grows later holds := ⟨fun y inside => (later y (holds.1 y inside)).1,
    holds.2.trans (dress_congr fun y inside => (later y (holds.1 y inside)).2)⟩
  alike _ left right same holds :=
    same_eq (fun z inside => plain z (inside.trans left)) same ▸ holds
  rule {w names supply x values} inside below progress := by
    have part : Unlabelled x := fun y within => plain y (within.trans inside)
    have done : ∀ o ∈ x.operands, w.done o := by
      intro o member
      obtain ⟨v, pair⟩ := partner_right below.length_eq member
      exact (List.forall₂_zip below pair).1 o (.refl o)
    obtain rfl : values = x.operands.map (dress w.name) := by
      have pairs : List.Forall₂ (fun o v => dress w.name o = v) x.operands values :=
        below.imp fun _ _ both => both.2.symm
      rw [← List.forall₂_map_left_iff, List.forall₂_eq_eq_eq] at pairs
      exact pairs.symm
    have typed : WellTyped x := (made.within inside).well_typed
    have formed : Formed x := (made.within inside).formed
    -- The tests at the node itself; those below it have been seen.
    have rest (tests : ∀ op xs shape free, x = .node op xs shape free →
        ∀ test ∈ op.tested xs, w.name test = none) : e.Untested x := by
      intro op xs shape free within test member
      cases within with
      | step operand within => exact (progress.sound _ (done _ operand)).2 op xs shape free within test member
      | refl =>
          have absent : w.name test = none := tests op xs shape free rfl test member
          obtain _ | ⟨types, _⟩ := typed
          have kind : test.kind = .condition := Operator.types_test types test member
          by_contra repeated
          have named : e.Named test := ⟨by simpa using repeated, by rw [kind]; rfl⟩
          exact (progress.decided test (done test (Operator.tested_mem member))).mpr named absent
    cases unnamed : x.kind.isUnnamed with
    | true =>
        refine ⟨_, Marking.rule_unnamed e.duplications unnamed, ?_⟩
        cases x with
        | node op => cases op <;> cases unnamed
        | labelled => cases unnamed
        | terminal data =>
            obtain ⟨later, shown, progress⟩ := progress.pass done
              (fun named => Bool.noConfusion (unnamed.symm.trans named.2)) (.terminal data)
              (rest (by simp))
            exact ⟨_, later, ⟨progress.closed _ (.inl rfl), shown⟩, progress⟩
    | false =>
        refine ⟨_, Marking.rule_node e.duplications unnamed (part x (.refl x)),
          Marking.node_ends.mpr ?_⟩
        cases found : names[x]? with
        | some named =>
            obtain ⟨done, rfl⟩ := progress.known x named inside found
            exact ⟨w, le_refl w, ⟨progress.closed x done, rfl⟩, progress⟩
        | none =>
            have free (untested : e.Untested e) : ∀ op xs shape free, x = .node op xs shape free →
                ∀ test ∈ op.tested xs, w.name test = none := by
              rintro op xs shape free rfl test member
              by_contra some
              have named := (progress.decided test (done test (Operator.tested_mem member))).mp some
              cases named.1.symm.trans (untested op xs shape free inside test member)
            refine (reuse_dressed formed typed part (uniform.within inside) progress.sparing
              progress.separate (fun o member => (progress.sound o (done o member)).1) free).mono ?_
            rintro _ ⟨rfl, rewritten, tests⟩
            -- A rewritten part is only repeated if it was not rewritten at all.
            have again (repeated : e.duplications.contains (bare w.name x) = true) :
                bare w.name x = x := by
              obtain ⟨y, within, same⟩ := duplications_within repeated
              have plain : Unlabelled y := fun z below => plain z (below.trans within)
              obtain rfl := same_eq plain same
              exact bare_unlabelled formed plain
            have named_iff : ((e.duplications.contains x || e.duplications.contains (bare w.name x)) &&
                (bare w.name x).kind ≠ .labelled && !(bare w.name x).kind.isUnnamed) = true ↔
                e.Named x := by
              have kind : x.kind ≠ .labelled := part x (.refl x)
              simp only [bare_kind, unnamed, Named, Bool.and_eq_true, Bool.or_eq_true]
              constructor
              · rintro ⟨⟨repeated | repeated, _⟩, _⟩
                · exact ⟨repeated, trivial⟩
                · exact ⟨again repeated ▸ repeated, trivial⟩
              · exact fun named => ⟨⟨.inl named.1, decide_eq_true kind⟩, rfl⟩
            show if _ then _ else _
            split
            · rename_i repeated
              have named := named_iff.mp repeated
              obtain ⟨later, shown, progress⟩ := progress.give plain formed done named found rewritten
                (rest tests)
              refine Marking.label_ends.mpr ?_
              split
              · rename_i items
                have kind : x.kind = .multiIndex := bare_kind.symm.trans items
                rw [kind] at unnamed
                cases unnamed
              · exact ⟨_, later, ⟨progress.closed _ (.inl rfl), shown⟩, progress⟩
            · rename_i other
              obtain ⟨later, shown, progress⟩ := progress.pass done (mt named_iff.mpr other) rewritten
                (rest tests)
              exact ⟨_, later, ⟨progress.closed _ (.inl rfl), shown⟩, progress⟩

/-- Exactly the repeated parts of `e` that can be named have a name, each one of its own among the
labels from `first` up to `last`. -/
structure FreshNames (e : Expr) (first last : Nat) (names : Expr → Option Label) : Prop where
  named : ∀ x, Within x e → (names x ≠ none ↔ e.Named x)
  sparing : Sparing names
  separate : Separate names
  fresh : ∀ x label, names x = some label → first ≤ label.number ∧ label.number < last

namespace Expr

variable {e : Expr}

/-- Marking an expression without labels dresses it, unless a repeated condition is tested. -/
theorem mark_duplications_dressed (made : Constructible e) (plain : Unlabelled e)
    (uniform : Uniform e) (supply : Supply) :
    Ends (e.Untested e) (e.markDuplications supply) fun result => e.Untested e ∧
      ∃ names, FreshNames e supply.label result.2.label names ∧ result.1 = dress names e ∧
        Formed result.1 := by
  have start : Progress e supply.label ⟨fun _ => False, fun _ => none⟩ ∅ supply :=
    ⟨le_refl _, nofun, nofun, nofun, fun _ some => absurd rfl some, nofun, nofun,
      fun x v _ found => by simp at found, nofun⟩
  have ends := transform_ends (labelling_upkeep made plain uniform supply.label) start
  show Ends _ ((transform (Marking.rules e.duplications) e ∅ >>= fun pair => pure pair.1) supply) _
  refine ends_bind.mpr (ends.mono ?_)
  rintro ⟨⟨value, names⟩, after⟩ ⟨w, _, ⟨done, rfl⟩, progress⟩
  obtain ⟨formed, untested⟩ := progress.sound e (done e (.refl e))
  exact ⟨untested, w.name, ⟨fun x inside => progress.decided x (done x inside), progress.sparing,
    progress.separate, progress.fresh⟩, rfl, formed⟩

/-- Marking an expression without labels fails exactly where a repeated condition is the test of a
conditional or an operand of a logical connective. -/
theorem mark_duplications_runs_iff (made : Constructible e) (plain : Unlabelled e)
    (uniform : Uniform e) (supply : Supply) :
    (∃ m after, e.markDuplications supply = .ok (m, after)) ↔ e.Untested e := by
  have ends := mark_duplications_dressed made plain uniform supply
  constructor
  · rintro ⟨m, after, run⟩
    exact (ends.of_ok run).1
  · intro untested
    cases run : e.markDuplications supply with
    | ok result => exact ⟨result.1, result.2, rfl⟩
    | error err =>
        rw [run] at ends
        exact absurd untested ends

/-- A field in the plane. -/
def flat : Expr := .terminal (.coefficient ⟨0, ⟨[], 2, none⟩⟩)

def flatter : Expr := .terminal (.coefficient ⟨1, ⟨[], 2, none⟩⟩)

def flatTest : Expr := .node (.condition .lt) [flat, flatter] [] ∅

/-- Two choices by one test. -/
def choices : Expr :=
  .node .sum [.node .conditional [flatTest, flat, flatter] [] ∅,
    .node .conditional [flatTest, flatter, flat] [] ∅] [] ∅

theorem choices_constructible : Constructible choices := by
  have first : Constructible flat := .terminal _
  have second : Constructible flatter := .terminal _
  have test : Constructible flatTest :=
    .assemble (.condition .lt) (by decide) (operands_pair first second) (by cbv)
  have left : Constructible (.node .conditional [flatTest, flat, flatter] [] ∅) :=
    .assemble .conditional (by decide) (List.forall_mem_cons.mpr ⟨test, operands_pair first second⟩)
      (by cbv)
  have right : Constructible (.node .conditional [flatTest, flatter, flat] [] ∅) :=
    .assemble .conditional (by decide) (List.forall_mem_cons.mpr ⟨test, operands_pair second first⟩)
      (by cbv)
  exact .assemble .sum (by decide) (operands_pair left right) (by cbv)

/-- Without derivatives nothing depends on the domains. -/
theorem uniform_of_parts (none : ∀ x ∈ parts e, ¬ (x.kind = .grad ∨ x.kind = .spatialDerivative)) :
    Uniform e :=
  fun d inside kind => absurd kind (none d (mem_parts.mpr inside))

theorem mark_duplications_choices : ¬ ∃ m after, choices.markDuplications {} = .ok (m, after) := by
  rw [mark_duplications_runs_iff choices_constructible (by decide) (uniform_of_parts (by decide))]
  intro untested
  have part : Within flatTest choices := .step List.mem_cons_self (.operand List.mem_cons_self)
  have repeated : choices.duplications.contains flatTest = true :=
    (duplications_unlabelled (by decide)).mpr ⟨mem_parts.mpr part, by cbv⟩
  have once := untested .conditional [flatTest, flat, flatter] [] ∅ (.operand List.mem_cons_self)
    flatTest List.mem_cons_self
  cases repeated.symm.trans once

/-! Where derivatives mix domains the pass does not only dress: sorting the operands again changes
which terminal the dimension is read off. -/

/-- An argument in space. -/
def solid : Expr := .terminal (.argument ⟨0, none, ⟨[], 3, none⟩⟩)

def curlOfSum (f g : Expr) (gdim : Nat) (shape : Shape) : Expr :=
  .node .curl [.node .grad [.node .sum [f, g] [] ∅] [gdim] ∅] shape ∅

/-- The product of two vectors in space, the curl of a gradient and a gradient. -/
def mixed : Expr := .node .dot [curlOfSum solid flat 3 [3], .node .grad [solid] [3] ∅] [] ∅

def namedSolid : Expr := .labelled ⟨0⟩ solid

/-- With the argument named the first gradient lies in the plane, and the curl of it is a scalar. -/
def mixedMarked : Expr :=
  .node .componentTensor [.node .product [.node .indexed [.node .grad [namedSolid] [3] ∅,
        multiIndex [.free ⟨0⟩]] [] ⟨[(⟨0⟩, 3)], by decide⟩,
      curlOfSum flat namedSolid 2 []] [] ⟨[(⟨0⟩, 3)], by decide⟩,
    multiIndex [.free ⟨0⟩]] [3] ∅

theorem solid_dimension : solid.geometricDimension = .ok 3 := by
  simp [geometricDimension, distinctNodes, Distinct.start, Distinct.to_list_cons, Distinct.push,
    Distinct.to_list_nil, operands, solid, Terminal.gdim?]

theorem named_solid_dimension : namedSolid.geometricDimension = .ok 3 := by
  simp [geometricDimension, distinctNodes, Distinct.start, Distinct.to_list_cons, Distinct.push,
    Distinct.to_list_nil, operands, solid, Terminal.gdim?, namedSolid]

theorem solid_sum_dimension : (Expr.node .sum [solid, flat] [] ∅).geometricDimension = .ok 3 := by
  simp [geometricDimension, distinctNodes, Distinct.start, Distinct.to_list_cons, Distinct.push,
    Distinct.to_list_nil, operands, solid, flat, Terminal.gdim?]

theorem flat_sum_dimension :
    (Expr.node .sum [flat, namedSolid] [] ∅).geometricDimension = .ok 2 := by
  simp [geometricDimension, distinctNodes, Distinct.start, Distinct.to_list_cons, Distinct.push,
    Distinct.to_list_nil, operands, solid, flat, Terminal.gdim?, namedSolid]

theorem mixed_constructible : Constructible mixed := by
  have first : Constructible solid := .terminal _
  have second : Constructible flat := .terminal _
  have sum : Constructible (.node .sum [solid, flat] [] ∅) :=
    .assemble .sum (by decide) (operands_pair first second) (by cbv)
  have gradient : Constructible (.node .grad [.node .sum [solid, flat] [] ∅] [3] ∅) :=
    .assemble .grad (by decide) (List.forall_mem_singleton.mpr sum)
      (grad_runs solid_sum_dimension rfl)
  have curl : Constructible (curlOfSum solid flat 3 [3]) :=
    .assemble .curl (by decide) (List.forall_mem_singleton.mpr gradient) (by cbv)
  have other : Constructible (.node .grad [solid] [3] ∅) :=
    .assemble .grad (by decide) (List.forall_mem_singleton.mpr first) (grad_runs solid_dimension rfl)
  have run : Operator.dot.build [curlOfSum solid flat 3 [3], .node .grad [solid] [3] ∅] {} =
      .ok (mixed, {}) := by cbv
  exact .build (operands_pair curl other) run

theorem mixed_repeats {x : Expr} : mixed.duplications.contains x = true ↔ x = solid := by
  rw [duplications_unlabelled (by decide)]
  constructor
  · rintro ⟨inside, twice⟩
    simp only [mixed, curlOfSum, solid, flat, parts, partsAll, List.mem_cons, List.mem_append,
      List.append_nil, List.not_mem_nil, or_false] at inside
    rcases inside with rfl | ((rfl | rfl | rfl | rfl | rfl) | rfl | rfl)
    all_goals first | rfl | exact absurd twice (by cbv)
  · rintro rfl
    exact ⟨by simp [mixed, curlOfSum, solid, parts, partsAll], by cbv⟩

theorem reuse_grad {f v : Expr} {g d : Nat} {supply : Supply} (known : f.geometricDimension = .ok g)
    (nonzero : f.isZero = false) (known' : v.geometricDimension = .ok d) (nonzero' : v.isZero = false)
    (other : (Expr.node .grad [f] (f.shape ++ [g]) f.free).hasOperands [v] = false) :
    (Expr.node .grad [f] (f.shape ++ [g]) f.free).reuse [v] supply =
      .ok (.node .grad [v] (v.shape ++ [d]) v.free, supply) := by
  have assembled : Operator.grad.assemble [f] = .ok (.node .grad [f] (f.shape ++ [g]) f.free) :=
    grad_runs known nonzero
  have length : [v].length = [f].length := rfl
  rw [reuse_assembles assembled length (spreads_other (by decide))
    fun same => Bool.noConfusion (other.symm.trans same)]
  show (v.grad.mapError TransformError.build >>= _) = _
  rw [grad_runs known' nonzero']
  rfl

open Marking in
theorem mixed_run : mixed.markDuplications {} = .ok (mixedMarked, { index := 1, label := 1 }) := by
  have once {x : Expr} (other : x ≠ solid) : mixed.duplications.contains x = false :=
    eq_false_of_ne_true (mt mixed_repeats.mp other)
  have other {op : Operator} {operands : List Expr} {shape : Shape} {free : FreeIndices} :
      Expr.node op operands shape free ≠ solid := by rintro ⟨⟩
  let sum := Expr.node .sum [solid, flat] [] ∅
  let sum' := Expr.node .sum [flat, namedSolid] [] ∅
  let names : Names := ((∅ : Names).insert solid namedSolid).insert solid namedSolid
  let memo : Memo Expr := (∅ : Memo Expr).insert solid namedSolid
  let memo2 := memo.insert flat flat
  let memo3 := memo2.insert sum sum'
  let memo4 := memo3.insert (.node .grad [sum] [3] ∅) (.node .grad [sum'] [2] ∅)
  let memo5 := memo4.insert (curlOfSum solid flat 3 [3]) (curlOfSum flat namedSolid 2 [])
  let memo6 := memo5.insert (.node .grad [solid] [3] ∅) (.node .grad [namedSolid] [3] ∅)
  let supply : Supply := { label := 1 }
  have visit : transformIn (rules mixed.duplications) solid ∅ ∅ {} =
      .ok (((namedSolid, memo), names), supply) :=
    visit_named solid {} (by rfl) (by decide) Std.HashMap.getElem?_empty rfl
      Std.HashMap.getElem?_empty rfl (mixed_repeats.mpr rfl) (by decide) (by rfl)
  have visit2 : transformIn (rules mixed.duplications) flat memo names supply =
      .ok (((flat, memo2), names), supply) :=
    visit_kept (by rfl) (by decide) (by simp [memo, solid, flat]) rfl (by simp [names, solid, flat])
      rfl (once (by rintro ⟨⟩)) (once (by rintro ⟨⟩))
  have visit3 : transformIn (rules mixed.duplications) sum ∅ ∅ {} =
      .ok (((sum', memo3), names), supply) :=
    visit_kept (by rfl) (by decide) Std.HashMap.getElem?_empty
      (visit_all_cons visit (visit_all_cons visit2 rfl)) (by simp [names, solid, sum]) (by cbv)
      (once other) (once other)
  have visit4 : transformIn (rules mixed.duplications) (.node .grad [sum] [3] ∅) ∅ ∅ {} =
      .ok (((.node .grad [sum'] [2] ∅, memo4), names), supply) :=
    visit_kept (by rfl) (by decide) Std.HashMap.getElem?_empty (visit_all_cons visit3 rfl)
      (by simp [names, solid, sum])
      (reuse_grad solid_sum_dimension rfl flat_sum_dimension rfl (by cbv)) (once other) (once other)
  have visit5 : transformIn (rules mixed.duplications) (curlOfSum solid flat 3 [3]) ∅ ∅ {} =
      .ok (((curlOfSum flat namedSolid 2 [], memo5), names), supply) :=
    visit_kept (by rfl) (by decide) Std.HashMap.getElem?_empty (visit_all_cons visit4 rfl)
      (by simp [names, solid, curlOfSum]) (by cbv) (once other) (once other)
  have known : memo5[solid]? = some namedSolid := by
    simp only [memo, memo2, memo3, memo4, memo5, solid, sum, flat, curlOfSum,
      Std.HashMap.getElem?_insert, node_not_terminal, terminal_same]
    simp
  have visit6 : transformIn (rules mixed.duplications) (.node .grad [solid] [3] ∅) memo5 names supply =
      .ok (((.node .grad [namedSolid] [3] ∅, memo6), names), supply) :=
    visit_kept (by rfl) (by decide)
      (by simp [memo, memo2, memo3, memo4, memo5, solid, sum, flat, curlOfSum])
      (visit_all_cons (visit_known known) rfl) (by simp [names, solid])
      (reuse_grad solid_dimension rfl named_solid_dimension rfl (by cbv)) (once other) (once other)
  have visit7 : transformIn (rules mixed.duplications) mixed ∅ ∅ {} =
      .ok (((mixedMarked, memo6.insert mixed mixedMarked), names), { index := 1, label := 1 }) :=
    visit_kept (by rfl) (by decide) Std.HashMap.getElem?_empty
      (visit_all_cons visit5 (visit_all_cons visit6 rfl)) (by simp [names, solid, mixed]) (by cbv)
      (once other) (once other)
  show (transform (rules mixed.duplications) mixed ∅ {} >>= fun result => _) = _
  rw [transform_runs visit7]
  rfl

theorem mixed_marked_formed : Formed mixedMarked := by
  have first : Formed namedSolid := .labelled (by decide) (.terminal _)
  have sum : Formed (.node .sum [flat, namedSolid] [] ∅) :=
    .node (by cbv) (spreads_other (by decide)) (operands_pair (.terminal _) first)
  have gradient : Formed (.node .grad [.node .sum [flat, namedSolid] [] ∅] [2] ∅) :=
    .node (grad_runs flat_sum_dimension rfl) (spreads_other (by decide))
      (List.forall_mem_singleton.mpr sum)
  have curl : Formed (curlOfSum flat namedSolid 2 []) :=
    .node (by cbv) (spreads_other (by decide)) (List.forall_mem_singleton.mpr gradient)
  have other : Formed (.node .grad [namedSolid] [3] ∅) :=
    .node (grad_runs named_solid_dimension rfl) (spreads_other (by decide))
      (List.forall_mem_singleton.mpr first)
  have indexed : Formed (.node .indexed [.node .grad [namedSolid] [3] ∅, multiIndex [.free ⟨0⟩]] []
      ⟨[(⟨0⟩, 3)], by decide⟩) :=
    .node (by cbv) (spreads_other (by decide)) (operands_pair other (.terminal _))
  exact .node (by cbv) (spreads_other (by decide)) (operands_pair
    (.node (by cbv) (spreads_other (by decide)) (operands_pair indexed curl)) (.terminal _))

theorem mixed_marked_parts : ∀ x ∈ parts mixedMarked,
    (x.kind = .labelled → x = namedSolid) ∧ x.kind ∉ [.inner, .outer, .dot] := by
  simp [mixedMarked, curlOfSum, namedSolid, solid, flat, multiIndex, parts, partsAll, kind,
    Operator.kind, Terminal.kind]

/-- Without its label the argument comes first again, and the scalar factor is a vector. -/
theorem mixed_marked_strip (supply after : Supply) (r : Expr) :
    mixedMarked.stripLabels supply ≠ .ok (r, after) := by
  intro strip
  have coherent : Coherent mixedMarked := by
    intro label a b left right
    have left := (mixed_marked_parts _ (mem_parts.mpr left)).1 rfl
    have right := (mixed_marked_parts _ (mem_parts.mpr right)).1 rfl
    cases left
    cases right
    rfl
  have strippable : Strippable mixedMarked := by
    intro op operands shape free ts inside _
    have other := (mixed_marked_parts _ (mem_parts.mpr inside)).2
    exact spreads_other (by cases op <;> simp_all [kind, Operator.kind])
  obtain ⟨run, _⟩ := (strip_labels_ok mixed_marked_formed coherent strippable).mp strip
  have sum : stripped (.node .sum [flat, namedSolid] [] ∅) =
      .ok (.node .sum [solid, flat] [] ∅) := by cbv
  have gradient : stripped (.node .grad [.node .sum [flat, namedSolid] [] ∅] [2] ∅) =
      .ok (.node .grad [.node .sum [solid, flat] [] ∅] [3] ∅) :=
    stripped_node.mpr ⟨_, stripped_all_ok.mpr (.cons sum .nil), grad_runs solid_sum_dimension rfl⟩
  have curl : stripped (curlOfSum flat namedSolid 2 []) = .ok (curlOfSum solid flat 3 [3]) :=
    stripped_node.mpr ⟨_, stripped_all_ok.mpr (.cons gradient .nil), by cbv⟩
  obtain ⟨t, part⟩ := stripped_within (.operand List.mem_cons_self) run
  obtain ⟨ts, all, product⟩ := stripped_node.mp part
  obtain ⟨p, q, rfl, _, second⟩ := pairs_two (stripped_all_ok.mp all)
  obtain rfl := Except.ok.inj (curl.symm.trans second)
  have scalars : p.scalarProduct (curlOfSum solid flat 3 [3]) = .ok t := product
  simp only [scalarProduct, except_bind_ok, expect_scalar_ok] at scalars
  obtain ⟨_, _, _, scalar, _⟩ := scalars
  cases scalar

end Expr

end FormCalculus
