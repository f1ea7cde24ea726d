import FormCalculus.Proofs.Collecting
import FormCalculus.Proofs.NamingUnlabelled

/-!
Every repeated part of an expression without labels is bound to a label exactly once when the
repeated parts are named, and stripping the result gives the expression back.
-/
set_option autoImplicit false

namespace FormCalculus.Expr

variable {e m v x y : Expr} {names : Expr → Option Label} {first last : Nat}

/-- In `m` every repeated part of `e` that can be named is bound once, to a label from `first` up to
`last`. -/
structure BindsOnce (e m : Expr) (first last : Nat) : Prop where
  strips : ∀ supply, m.stripLabels supply = .ok (e, supply)
  distinct : m.labelledParts.Pairwise fun v w => v.label? ≠ w.label?
  fresh : ∀ v ∈ m.labelledParts, ∃ label body, v = .labelled label body ∧
    first ≤ label.number ∧ label.number < last
  /-- Stripping takes the labelled parts one-to-one to the repeated parts. -/
  parts : ∃ repeated : List Expr,
    List.Forall₂ (fun v d => ∀ supply, v.stripLabels supply = .ok (d, supply)) m.labelledParts
      repeated ∧
    repeated.Nodup ∧
    ∀ d, d ∈ repeated ↔ e.duplications.contains d = true ∧ d.kind.isUnnamed = false
  /-- Nothing that strips to a repeated part occurs except under its label. -/
  bound : ∀ y d supply after, Within y m → y.kind ≠ .labelled → y.kind.isUnnamed = false →
    y.stripLabels supply = .ok (d, after) → e.duplications.contains d = true →
    ∃ label, Within (.labelled label y) m ∧
      ∀ p, Within p m → y ∈ p.operands → p = .labelled label y

/-- A part that is repeated is a part. -/
theorem Named.within (plain : Unlabelled e) (named : e.Named x) : Within x e := by
  obtain ⟨y, inside, same⟩ := duplications_within named.1
  obtain rfl := same_eq (fun z below => plain z (below.trans inside)) same
  exact inside

/-- What is listed of a dressed expression are the parts with a name. -/
theorem dressed_parts (plain : Unlabelled e) (separate : Separate names) :
    v ∈ (dress names e).labelledParts ↔
      ∃ y label, Within y e ∧ names y = some label ∧ v = .labelled label (bare names y) := by
  constructor
  · intro member
    obtain ⟨label, body, rfl, inside⟩ := labelled_parts_within member
    obtain ⟨y, within, own, rfl⟩ := labelled_within_dress plain inside
    exact ⟨y, label, within, own, rfl⟩
  · rintro ⟨y, label, within, own, rfl⟩
    refine within_labelled_parts (dress_consistent plain separate) ?_
    have inside : Within (dress names y) (dress names e) := dress_within within
    rwa [dress_eq, own] at inside

section

variable (formed : Formed e) (plain : Unlabelled e) (fresh : FreshNames e first last names)
  (dressed : Formed (dress names e))

include formed plain fresh dressed

theorem strip_part (inside : Within y e) (supply : Supply) :
    (dress names y).stripLabels supply = .ok (y, supply) :=
  strip_labels_dress (formed.within inside) (fun z below => plain z (below.trans inside))
    fresh.separate (dressed.within (dress_within inside))

theorem dressed_bijection : ∃ repeated : List Expr,
    List.Forall₂ (fun v d => ∀ supply, v.stripLabels supply = .ok (d, supply))
      (dress names e).labelledParts repeated ∧
    repeated.Nodup ∧
    ∀ d, d ∈ repeated ↔ e.duplications.contains d = true ∧ d.kind.isUnnamed = false := by
  have parts : ∀ v ∈ (dress names e).labelledParts,
      ∃ d, v = dress names d ∧ Within d e ∧ names d ≠ none := by
    intro v member
    obtain ⟨y, label, within, own, rfl⟩ := (dressed_parts plain fresh.separate).mp member
    exact ⟨y, by rw [dress_eq, own]; rfl, within, by rw [own]; nofun⟩
  obtain ⟨repeated, pairs⟩ := pairs_exist parts
  refine ⟨repeated, pairs.imp fun v d both supply => ?_, ?_, fun d => ⟨fun member => ?_, fun named => ?_⟩⟩
  · rw [both.1]
    exact strip_part formed plain fresh dressed both.2.1 supply
  · -- The listed parts are the repeated ones, dressed.
    have dresses : (dress names e).labelledParts = repeated.map (dress names) := by
      rw [← List.forall₂_eq_eq_eq, List.forall₂_map_right_iff]
      exact pairs.imp fun v d both => both.1
    have distinct : (dress names e).labelledParts.Nodup :=
      labelled_parts_distinct.imp fun differ same => differ (congrArg _ same)
    exact (dresses ▸ distinct).of_map
  · obtain ⟨v, _, _, within, some⟩ := pairs_member pairs member
    exact (fresh.named d within).mp some
  · have within : Within d e := Named.within plain named
    obtain ⟨label, own⟩ := Option.ne_none_iff_exists'.mp ((fresh.named d within).mpr named)
    have member : .labelled label (bare names d) ∈ (dress names e).labelledParts :=
      (dressed_parts plain fresh.separate).mpr ⟨d, label, within, own, rfl⟩
    obtain ⟨d', pair⟩ := partner_right pairs.length_eq member
    obtain ⟨shown, within', _⟩ := List.forall₂_zip pairs pair
    -- Both strip from one part.
    have same : dress names d = dress names d' := by rw [← shown, dress_eq, own]; rfl
    have left := strip_part formed plain fresh dressed within {}
    rw [same, strip_part formed plain fresh dressed within' {}] at left
    cases left
    exact (List.of_mem_zip pair).2

theorem dressed_bound {d : Expr} {supply after : Supply} (inside : Within y (dress names e))
    (kind : y.kind ≠ .labelled) (nameable : y.kind.isUnnamed = false)
    (strip : y.stripLabels supply = .ok (d, after)) (repeated : e.duplications.contains d = true) :
    ∃ label, Within (.labelled label y) (dress names e) ∧
      ∀ p, Within p (dress names e) → y ∈ p.operands → p = .labelled label y := by
  have strips {z : Expr} (within : Within z e) : stripped (bare names z) = .ok z :=
    stripped_bare (formed.within within) fun o below => plain o (below.trans within)
  obtain ⟨x, within, rfl⟩ := bare_within_dress kind inside
  -- It strips to the part that it was made of.
  obtain rfl : d = x := by
    have coherent := (dress_consistent plain fresh.separate).coherent
    obtain ⟨run, _⟩ := (strip_labels_ok (dressed.within inside) (coherent.within inside)
      ((dress_strippable formed plain).within inside)).mp strip
    exact Except.ok.inj (run.symm.trans (strips within))
  have named : e.Named d := ⟨repeated, bare_kind ▸ nameable⟩
  obtain ⟨label, own⟩ := Option.ne_none_iff_exists'.mp ((fresh.named d within).mpr named)
  have shown : dress names d = .labelled label (bare names d) := by rw [dress_eq, own]; rfl
  refine ⟨label, shown ▸ dress_within within, fun p inside operand => ?_⟩
  by_cases labelled : p.kind = .labelled
  · cases p with
    | terminal => cases operand
    | node op => cases op <;> cases labelled
    | labelled other body =>
        obtain rfl := List.mem_singleton.mp operand
        obtain ⟨z, within', own', same⟩ := labelled_within_dress plain inside
        obtain rfl : d = z := Except.ok.inj ((strips within).symm.trans (same ▸ strips within'))
        rw [Option.some.inj (own.symm.trans own')]
  · -- A node has the part as an operand only under its label.
    obtain ⟨z, within', rfl⟩ := bare_within_dress labelled inside
    obtain ⟨o, member, same⟩ := bare_operand operand
    have part : Within o e := (Within.operand member).trans within'
    have run : stripped (dress names o) = .ok o :=
      stripped_dress (formed.within part) fun z below => plain z (below.trans part)
    obtain rfl : d = o := Except.ok.inj ((strips within).symm.trans (same ▸ run))
    rw [same, shown] at kind
    exact absurd rfl kind

end

/-- Marking binds every repeated part of an expression without labels once. -/
theorem mark_duplications_binds_once {supply after : Supply} (made : Constructible e)
    (plain : Unlabelled e) (uniform : Uniform e)
    (run : e.markDuplications supply = .ok (m, after)) : BindsOnce e m supply.label after.label := by
  obtain ⟨_, names, fresh, rfl, dressed⟩ :=
    (mark_duplications_dressed made plain uniform supply).of_ok run
  have formed : Formed e := made.formed
  refine ⟨strip_part formed plain fresh dressed (.refl e), labelled_parts_distinct, ?_,
    dressed_bijection formed plain fresh dressed, ?_⟩
  · intro v member
    obtain ⟨y, label, _, own, rfl⟩ := (dressed_parts plain fresh.separate).mp member
    exact ⟨label, _, rfl, fresh.fresh y label own⟩
  · intro y d _ _
    exact dressed_bound formed plain fresh dressed

/-- A field times itself. -/
def flatSquare : Expr := .node .product [flat, flat] [] ∅

def flatSquareMarked : Expr :=
  .node .product [.labelled ⟨0⟩ flat, .labelled ⟨0⟩ flat] [] ∅

open Marking in
theorem flat_square_run :
    flatSquare.markDuplications {} = .ok (flatSquareMarked, { label := 1 }) := by
  have plain : Unlabelled flatSquare := by decide
  have repeated : flatSquare.duplications.contains flat = true :=
    (duplications_unlabelled plain).mpr ⟨mem_parts.mpr (.operand List.mem_cons_self), by cbv⟩
  have once {x : Expr} (never : ¬ 2 ≤ places x flatSquare) :
      flatSquare.duplications.contains x = false :=
    eq_false_of_ne_true fun known => never ((duplications_unlabelled plain).mp known).2
  let named : Expr := .labelled ⟨0⟩ flat
  let names : Names := ((∅ : Names).insert flat named).insert flat named
  let memo : Memo Expr := (∅ : Memo Expr).insert flat named
  have visit : transformIn (rules flatSquare.duplications) flat ∅ ∅ {} =
      .ok (((named, memo), names), { label := 1 }) :=
    visit_named flat {} (by rfl) (by decide) Std.HashMap.getElem?_empty rfl
      Std.HashMap.getElem?_empty rfl repeated (by decide) (by rfl)
  have known : memo[flat]? = some named := Std.HashMap.getElem?_insert_self
  have visit2 : transformIn (rules flatSquare.duplications) flatSquare ∅ ∅ {} =
      .ok (((flatSquareMarked, memo.insert flatSquare flatSquareMarked), names), { label := 1 }) :=
    visit_kept (by rfl) (by decide) Std.HashMap.getElem?_empty
      (visit_all_cons visit (visit_all_cons (visit_known known) rfl))
      (by simp [names, flat, flatSquare]) (by cbv) (once (by cbv)) (once (by cbv))
  show (transform (rules flatSquare.duplications) flatSquare ∅ {} >>= fun result => _) = _
  rw [transform_runs visit2]
  rfl

theorem flat_square_binds_once : BindsOnce flatSquare flatSquareMarked 0 1 := by
  have field : Constructible flat := .terminal _
  have made : Constructible flatSquare :=
    .assemble .product (by decide) (operands_pair field field) (by cbv)
  exact mark_duplications_binds_once made (by decide) (uniform_of_parts (by decide)) flat_square_run

/-- Where derivatives mix domains stripping need not give the expression back. -/
theorem mixed_not_bound_once : Constructible mixed ∧ Unlabelled mixed ∧
    mixed.markDuplications {} = .ok (mixedMarked, { index := 1, label := 1 }) ∧
    ∀ supply, mixedMarked.stripLabels supply ≠ .ok (mixed, supply) :=
  ⟨mixed_constructible, by decide, mixed_run, fun supply => mixed_marked_strip supply supply mixed⟩

end FormCalculus.Expr
