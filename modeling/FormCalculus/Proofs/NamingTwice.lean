import FormCalculus.Proofs.NamedOnce

/-!
Naming the repeated parts a second time. Under a label everything is repeated again and gets a new
label, but nothing except the old label holds it, and that takes the new one off.
-/
set_option autoImplicit false

namespace FormCalculus.Expr

variable {e m v x y : Expr} {names : Expr → Option Label} {first last : Nat}

/-- In `m` the only thing that has `x` as an operand is a label. -/
def UnderLabel (m x : Expr) : Prop :=
  ∃ label, Within (.labelled label x) m ∧ ∀ p, Within p m → x ∈ p.operands → p = .labelled label x

/-- Everything that is repeated in `m` and can be named is covered by its label. -/
structure FullyNamed (m : Expr) : Prop where
  consistent : Consistent m
  bodies : ∀ label b, Within (.labelled label b) m →
    b.kind ≠ .labelled ∧ b.kind ≠ .multiIndex ∧ UnderLabel m b
  repeated : ∀ y, Within y m → y.kind ≠ .labelled → y.kind.isUnnamed = false →
    m.duplications.contains y = true → UnderLabel m y

theorem UnderLabel.below (covered : UnderLabel m x) : x ≠ m := by
  obtain ⟨label, inside, _⟩ := covered
  rintro rfl
  exact not_within_operand (x := .labelled label x) List.mem_cons_self inside

/-! Naming changes nothing where the repeated parts are covered. -/

/-- The value of a part is the part, or the part under a label where it is covered. -/
def Held (m x v : Expr) : Prop :=
  v = x ∨ x.kind ≠ .labelled ∧ UnderLabel m x ∧ ∃ label, v = .labelled label x

/-- What has got a name has it around it as it was, and is covered. -/
def NamesCover (m : Expr) (names : Names) : Prop :=
  ∀ x v, Within x m → x.kind ≠ .labelled → names[x]? = some v →
    UnderLabel m x ∧ ∃ label, v = .labelled label x

theorem NamesCover.insert {given : Names} {label : Label} (consistent : Consistent m)
    (cover : NamesCover m given) (inside : Within x m) (covered : UnderLabel m x) :
    NamesCover m ((given.insert x (.labelled label x)).insert x (.labelled label x)) := by
  intro y v within plain found
  rw [Std.HashMap.getElem?_insert, Std.HashMap.getElem?_insert] at found
  by_cases same : (x == y) = true
  · rw [if_pos same] at found
    cases found
    obtain rfl := same_eq_within consistent inside within same
    exact ⟨covered, label, rfl⟩
  · rw [if_neg same, if_neg same] at found
    exact cover y v within plain found

theorem held_operands {values : List Expr} (inside : Within x m) (plain : x.kind ≠ .labelled)
    (below : List.Forall₂ (Held m) x.operands values) : values = x.operands := by
  -- Only labels hold what has got a new label.
  have equal : List.Forall₂ (fun o v => o = v) x.operands values := by
    refine pairs_imp below fun o member v held => ?_
    obtain rfl | ⟨_, ⟨label, _, only⟩, _⟩ := held
    · rfl
    · exact absurd (only x inside member ▸ rfl) plain
  rw [List.forall₂_eq_eq_eq] at equal
  exact equal.symm

theorem labelled_held {label : Label} {b : Expr} {given : Names} {supply : Supply}
    (full : FullyNamed m) (inside : Within (.labelled label b) m) (held : Held m b v)
    (cover : NamesCover m given) :
    Ends True (Marking.labelled (.labelled label b) [v] given supply) fun result =>
      result.1.1 = .labelled label b ∧ NamesCover m result.1.2 := by
  -- Around a covered body a label is put again, or kept.
  obtain ⟨plain, items, covered⟩ := full.bodies label b inside
  have within : Within b m := (Within.operand List.mem_cons_self).trans inside
  have again : Ends True (Marking.label label b b given supply) fun result =>
      result.1.1 = .labelled label b ∧ NamesCover m result.1.2 := by
    rw [Marking.label_ends, if_neg items]
    exact ⟨rfl, cover.insert full.consistent within covered⟩
  obtain rfl | ⟨_, _, other, rfl⟩ := held
  · refine Marking.labelled_ends (fun _ => again) ?_ ?_
    · intro _ _ same
      exact absurd (same ▸ rfl) plain
    · intro _ same
      exact absurd (same ▸ rfl) plain
  · refine Marking.labelled_ends (fun only => absurd (only _ _ rfl) plain) ?_ ?_
    · intro _ _ same _
      cases same
      exact again
    · intro _ same _
      cases same
      exact ⟨rfl, cover⟩

theorem fully_named_upkeep (full : FullyNamed m) :
    Upkeep (Marking.rules m.duplications) m True (fun (_ : Unit) => Held m)
      (fun _ given _ => NamesCover m given) where
  grows _ held := held
  alike _ left right same held := same_eq_within full.consistent left right same ▸ held
  rule {w given supply x values} inside below cover := by
    by_cases plain : x.kind = .labelled
    · rw [plain]
      refine ⟨_, Marking.rule_labelled m.duplications, ?_⟩
      cases x with
      | terminal data => cases data <;> cases plain
      | node op => cases op <;> cases plain
      | labelled label b =>
          obtain ⟨v, rfl, held⟩ := pairs_one below
          refine (labelled_held full inside held cover).mono ?_
          rintro result ⟨same, cover⟩
          exact ⟨(), le_refl _, .inl same, cover⟩
    · cases nameable : x.kind.isUnnamed with
      | true =>
          exact ⟨_, Marking.rule_unnamed m.duplications nameable, (), le_refl _, .inl rfl, cover⟩
      | false =>
          refine ⟨_, Marking.rule_node m.duplications nameable plain, Marking.node_ends.mpr ?_⟩
          cases found : given[x]? with
          | some named =>
              obtain ⟨covered, label⟩ := cover x named inside plain found
              exact ⟨(), le_refl _, .inr ⟨plain, covered, label⟩, cover⟩
          | none =>
              have kept : x.reuse values supply = .ok (x, supply) := by
                rw [held_operands inside plain below]
                unfold reuse reuseOr
                rw [if_pos (has_own_operands x)]
                rfl
              rw [kept]
              show if _ then _ else _
              split
              · rename_i repeated
                simp only [Bool.or_self, Bool.and_eq_true] at repeated
                have covered := full.repeated x inside plain nameable repeated.1.1
                have items : x.kind ≠ .multiIndex := by
                  intro kind
                  rw [kind] at nameable
                  cases nameable
                rw [Marking.label_ends, if_neg items]
                exact ⟨(), le_refl _, .inr ⟨plain, covered, _, rfl⟩,
                  cover.insert full.consistent inside covered⟩
              · exact ⟨(), le_refl _, .inl rfl, cover⟩

theorem FullyNamed.mark_duplications (full : FullyNamed m) (supply : Supply) :
    ∃ after, m.markDuplications supply = .ok (m, after) := by
  -- Nothing is changed where every repeated part has its label.
  have start : NamesCover m ∅ := fun x v _ _ found => by simp at found
  have ends : Ends True (transform (Marking.rules m.duplications) m ∅ supply) _ :=
    transform_ends (fully_named_upkeep full) (w := ()) start
  cases run : transform (Marking.rules m.duplications) m ∅ supply with
  | error err =>
      rw [run] at ends
      exact absurd trivial ends
  | ok result =>
      obtain ⟨_, _, held, _⟩ := ends.of_ok run
      have same : result.1.1 = m := by
        obtain same | ⟨_, covered, _⟩ := held
        · exact same
        · exact absurd rfl covered.below
      refine ⟨result.2, ?_⟩
      show (transform (Marking.rules m.duplications) m ∅ supply >>= fun result => _) = _
      rw [run, ← same]
      rfl

/-! Naming covers the repeated parts. -/

section

variable (formed : Formed e) (plain : Unlabelled e) (fresh : FreshNames e first last names)

include formed plain

theorem bare_injective (left : Within x e) (right : Within y e)
    (same : bare names x = bare names y) : x = y := by
  -- Dressing makes no parts equal that were not.
  have strips {z : Expr} (within : Within z e) : stripped (bare names z) = .ok z :=
    stripped_bare (formed.within within) fun o below => plain o (below.trans within)
  exact Except.ok.inj ((strips left).symm.trans (same ▸ strips right))

include fresh

theorem places_dress_le (part : Within x e) (inside : Within y e) :
    places (bare names x) (dress names y) ≤ places x y := by
  -- In a dressed expression a part is found at no more places than before.
  have arranged (op : Operator) (vs : List Expr) (z : Expr) :
      placesAll z (op.arrange vs) = placesAll z vs := by
    obtain same | ⟨_, a, b, rfl, same⟩ := arrange_reordered op vs
    · rw [same]
    · rw [same]
      simp only [places_all_cons]
      omega
  have root {z : Expr} (within : Within z e) :
      (bare names x == bare names z).toNat ≤ (x == z).toNat := by
    by_cases same : (bare names x == bare names z) = true
    · have consistent := dress_consistent plain fresh.separate
      have equal := same_eq_within consistent (bare_within.trans (dress_within part))
        (bare_within.trans (dress_within within)) same
      obtain rfl := bare_injective formed plain part within equal
      rw [same_refl, same_refl]
    · rw [Bool.eq_false_iff.mpr same]
      exact Nat.zero_le _
  have untag (z : Expr) : places (bare names x) (dress names z) = places (bare names x) (bare names z) := by
    rw [dress_eq]
    cases names z with
    | none => rfl
    | some label =>
        have other : (bare names x == .labelled label (bare names z)) = false := by
          rw [← Bool.not_eq_true]
          intro same
          have kind : (bare names x).kind = .labelled := same_kind same
          exact plain x part (bare_kind.symm.trans kind)
        have held : tagged (some label) (bare names z) = .labelled label (bare names z) := rfl
        rw [held, places_eq, other, operands, places_all_one]
        exact Nat.zero_add _
  induction y with
  | terminal data =>
      rw [untag, places_eq, places_eq]
      exact Nat.add_le_add (root inside) (Nat.le_refl _)
  | labelled label body => exact absurd rfl (plain _ inside)
  | node op operands shape free ih =>
      have below : placesAll (bare names x) (dressAll names operands) ≤ placesAll x operands := by
        have parts : ∀ o ∈ operands, places (bare names x) (dress names o) ≤ places x o :=
          fun o member => ih o member ((Within.operand member).trans inside)
        clear ih inside
        induction operands with
        | nil => exact Nat.le_refl _
        | cons o rest step =>
            obtain ⟨here, others⟩ := List.forall_mem_cons.mp parts
            rw [dressAll, places_all_cons, places_all_cons]
            exact Nat.add_le_add here (step others)
      rw [untag, places_eq, places_eq]
      refine Nat.add_le_add (root inside) ?_
      show placesAll _ (op.arrange (dressAll names operands)) ≤ placesAll x operands
      rw [arranged]
      exact below

theorem named_under_label (dressed : Formed (dress names e)) (inside : Within x e)
    (named : names x ≠ none) : UnderLabel (dress names e) (bare names x) := by
  -- What has got a name is covered by it.
  obtain ⟨repeated, nameable⟩ := (fresh.named x inside).mp named
  have within : Within (bare names x) (dress names e) := bare_within.trans (dress_within inside)
  have coherent := (dress_consistent plain fresh.separate).coherent
  have strip : (bare names x).stripLabels {} = .ok (x, {}) :=
    (strip_labels_ok (dressed.within within) (coherent.within within)
      ((dress_strippable formed plain).within within)).mpr
      ⟨stripped_bare (formed.within inside) fun o below => plain o (below.trans inside), rfl⟩
  have kind : (bare names x).kind = x.kind := bare_kind
  exact dressed_bound formed plain fresh dressed within (kind ▸ plain x inside)
    (kind ▸ nameable) strip repeated

theorem dress_fully_named (dressed : Formed (dress names e)) : FullyNamed (dress names e) := by
  have consistent : Consistent (dress names e) := dress_consistent plain fresh.separate
  refine ⟨consistent, fun label b inside => ?_, fun y inside kind nameable twice => ?_⟩
  · obtain ⟨x, within, own, rfl⟩ := labelled_within_dress plain inside
    have items : (bare names x).kind ≠ .multiIndex := by
      cases dressed.within inside with
      | labelled items => exact items
    have kind : (bare names x).kind = x.kind := bare_kind
    exact ⟨kind ▸ plain x within, items,
      named_under_label formed plain fresh dressed within (by rw [own]; nofun)⟩
  · obtain ⟨x, within, rfl⟩ := bare_within_dress kind inside
    have repeated : e.duplications.contains x = true := by
      rw [duplications_contains (consistent_of_unlabelled plain)]
      have fewer := places_dress_le formed plain fresh within (.refl e)
      have many := (duplications_contains consistent).mp twice
      omega
    exact named_under_label formed plain fresh dressed within
      ((fresh.named x within).mpr ⟨repeated, bare_kind ▸ nameable⟩)

end

/-- Every name given so far is a labelled expression. -/
def NamesLabelled (given : Names) : Prop := ∀ x v : Expr, given[x]? = some v → v.kind = .labelled

theorem label_names {label : Label} {before after : Expr} {given : Names} {supply : Supply}
    (labelled : NamesLabelled given) :
    Ends False (Marking.label label before after given supply) fun result =>
      result.1.1 = .labelled label after ∧ NamesLabelled result.1.2 := by
  rw [Marking.label_ends]
  split
  · exact id
  · refine ⟨rfl, fun x v found => ?_⟩
    rw [Std.HashMap.getElem?_insert, Std.HashMap.getElem?_insert] at found
    split at found
    · cases found
      rfl
    · split at found
      · cases found
        rfl
      · exact labelled x v found

/-- A list with a repeated entry that has no name. -/
def NamesEntry (e x : Expr) : Prop :=
  ∃ entries shape free, x = .node .listTensor entries shape free ∧
    ∃ o ∈ entries, o.kind ≠ .labelled ∧ e.Named o

/-- What is to be named gets a label, unless it becomes something that is not named. -/
def Renames (e x v : Expr) : Prop :=
  (x.kind ≠ .labelled → e.Named x → v.kind = .labelled ∨ v.kind.isUnnamed = true) ∧
    (NamesEntry e x → v ≠ x)

theorem reuse_renames {values : List Expr} {supply after : Supply} (entry : NamesEntry e x)
    (below : List.Forall₂ (Renames e) x.operands values)
    (run : x.reuse values supply = .ok (v, after)) : v ≠ x := by
  obtain ⟨entries, shape, free, rfl, o, member, plain, named⟩ := entry
  obtain ⟨w, pair⟩ := partner_right below.length_eq member
  have renamed : w.kind ≠ o.kind := by
    obtain label | other := (List.forall₂_zip below pair).1 plain named
    · rw [label]
      exact plain.symm
    · intro same
      rw [same, named.2] at other
      cases other
  rintro rfl
  obtain ⟨same, _⟩ | rebuilt := reuse_cases run
  · -- The entry would have kept its kind.
    have through : w.sameThrough o = true :=
      List.forall₂_zip (has_operands_pairs same).flip pair
    rw [same_through_node plain] at through
    exact renamed (same_kind through)
  · have built : Operator.listTensor.build values supply =
        .ok (.node .listTensor entries shape free, after) := by
      cases reconstruct_cases rebuilt with
      | node built => exact built
    obtain ⟨run, _⟩ := (Fresh.lift_ok _ _).mp built
    obtain ⟨dims, set, _, _, ⟨_, zero⟩ | node⟩ := list_tensor_cases run
    · cases zero
    · obtain ⟨_, rfl, _, _⟩ := Expr.node.inj node
      have own : List.Forall₂ (fun x y : Expr => x = y) entries entries :=
        List.forall₂_same.mpr fun _ _ => rfl
      obtain rfl := List.forall₂_zip own pair
      exact renamed rfl

theorem renames_upkeep (consistent : Consistent e) :
    Upkeep (Marking.rules e.duplications) e False (fun (_ : Unit) => Renames e)
      (fun _ given _ => NamesLabelled given) where
  grows _ renames := renames
  alike _ left right same renames := same_eq_within consistent left right same ▸ renames
  rule {w given supply x values} inside below labelled := by
    by_cases plain : x.kind = .labelled
    · rw [plain]
      refine ⟨_, Marking.rule_labelled e.duplications, ?_⟩
      cases x with
      | terminal data => cases data <;> cases plain
      | node op => cases op <;> cases plain
      | labelled label b =>
          obtain ⟨v, rfl, _⟩ := pairs_one below
          -- Nothing is asked of a labelled expression.
          have free {v : Expr} : Renames e (.labelled label b) v :=
            ⟨fun other => absurd rfl other, fun ⟨_, _, _, same, _⟩ => nomatch same⟩
          have relabels {after : Expr} :
              Ends False (Marking.label label b after given supply) fun result =>
                ∃ w', w ≤ w' ∧ Renames e (.labelled label b) result.1.1 ∧
                  NamesLabelled result.1.2 :=
            (label_names labelled).mono fun _ both => ⟨(), le_refl _, free, both.2⟩
          exact Marking.labelled_ends (fun _ => relabels) (fun _ _ _ _ => relabels)
            fun _ _ _ => ⟨(), le_refl _, free, labelled⟩
    · cases nameable : x.kind.isUnnamed with
      | true =>
          refine ⟨_, Marking.rule_unnamed e.duplications nameable, (), le_refl _,
            ⟨fun _ _ => .inr nameable, ?_⟩, labelled⟩
          rintro ⟨_, _, _, rfl, _⟩
          cases nameable
      | false =>
          refine ⟨_, Marking.rule_node e.duplications nameable plain, Marking.node_ends.mpr ?_⟩
          -- A label is a new kind of expression.
          have given_label {v : Expr} (kind : v.kind = .labelled) : Renames e x v :=
            ⟨fun _ _ => .inl kind, fun _ same => plain (same ▸ kind)⟩
          cases found : given[x]? with
          | some named => exact ⟨(), le_refl _, given_label (labelled x named found), labelled⟩
          | none =>
              cases run : x.reuse values supply with
              | error err => exact id
              | ok result =>
                  obtain ⟨v, after⟩ := result
                  show if _ then _ else _
                  split
                  · refine (label_names labelled).mono ?_
                    rintro _ ⟨same, labelled⟩
                    exact ⟨(), le_refl _, given_label (same ▸ rfl), labelled⟩
                  · rename_i other
                    refine ⟨(), le_refl _, ⟨fun _ named => ?_, fun entry =>
                      reuse_renames entry below run⟩, labelled⟩
                    by_cases kind : v.kind = .labelled
                    · exact .inl kind
                    · refine .inr (eq_true_of_ne_false fun nameable => other ?_)
                      simp [named.1, kind, nameable]

theorem mark_duplications_entry {supply after : Supply} (consistent : Consistent e)
    (entry : NamesEntry e e) : e.markDuplications supply ≠ .ok (e, after) := by
  -- A repeated entry of a list without a name gets one, so that the list changes.
  intro run
  have start : NamesLabelled ∅ := fun x v found => by simp at found
  obtain ⟨_, ran⟩ := run_state_ok run
  obtain ⟨_, _, ⟨_, changes⟩, _⟩ := (transform_ends (renames_upkeep consistent) (w := ()) start).of_ok ran
  exact changes entry rfl

/-- The curl of a gradient in space, multiplied with itself in two ways, after a field. -/
def squares : Expr :=
  .node .listTensor [flat, .node .inner [curlOfSum solid flat 3 [3], curlOfSum solid flat 3 [3]] [] ∅,
    .node .dot [curlOfSum solid flat 3 [3], curlOfSum solid flat 3 [3]] [] ∅] [3] ∅

def squaresField : Expr := .labelled ⟨0⟩ flat

def squaresSum : Expr := .node .sum [squaresField, .labelled ⟨1⟩ solid] [] ∅

def squaresGrad : Expr := .node .grad [.labelled ⟨2⟩ squaresSum] [2] ∅

def squaresCurl : Expr := .node .curl [.labelled ⟨3⟩ squaresGrad] [] ∅

def squaresProduct : Expr :=
  .node .product [.labelled ⟨4⟩ squaresCurl, .labelled ⟨4⟩ squaresCurl] [] ∅

/-- The field comes first in the sum then, the curl is a scalar, and both products are one. -/
def squaresMarked : Expr :=
  .node .listTensor [squaresField, squaresProduct, squaresProduct] [3] ∅

theorem squares_sum_dimension : (labelled ⟨2⟩ squaresSum).geometricDimension = .ok 2 := by
  simp [geometricDimension, distinctNodes, Distinct.start, Distinct.to_list_cons, Distinct.push,
    Distinct.to_list_nil, operands, solid, flat, Terminal.gdim?, squaresSum, squaresField]

theorem squares_constructible : Constructible squares := by
  have first : Constructible flat := .terminal _
  have second : Constructible solid := .terminal _
  have sum : Constructible (.node .sum [solid, flat] [] ∅) :=
    .assemble .sum (by decide) (operands_pair second first) (by cbv)
  have gradient : Constructible (.node .grad [.node .sum [solid, flat] [] ∅] [3] ∅) :=
    .assemble .grad (by decide) (List.forall_mem_singleton.mpr sum)
      (grad_runs solid_sum_dimension rfl)
  have curl : Constructible (curlOfSum solid flat 3 [3]) :=
    .assemble .curl (by decide) (List.forall_mem_singleton.mpr gradient) (by cbv)
  have inner : Operator.inner.build [curlOfSum solid flat 3 [3], curlOfSum solid flat 3 [3]] {} =
      .ok (.node .inner [curlOfSum solid flat 3 [3], curlOfSum solid flat 3 [3]] [] ∅, {}) := by cbv
  have dot : Operator.dot.build [curlOfSum solid flat 3 [3], curlOfSum solid flat 3 [3]] {} =
      .ok (.node .dot [curlOfSum solid flat 3 [3], curlOfSum solid flat 3 [3]] [] ∅, {}) := by cbv
  exact .assemble .listTensor (by decide) (List.forall_mem_cons.mpr ⟨first,
    operands_pair (.build (operands_pair curl curl) inner) (.build (operands_pair curl curl) dot)⟩)
    (by cbv)

theorem squares_unlabelled : Unlabelled squares := by decide

theorem squares_repeats {x : Expr} (inside : Within x (curlOfSum solid flat 3 [3])) :
    squares.duplications.contains x = true := by
  -- The parts of the curl are repeated, and the products and the whole are not.
  have consistent := consistent_of_unlabelled squares_unlabelled
  have part : Within (curlOfSum solid flat 3 [3]) squares :=
    .step (.tail _ List.mem_cons_self) (.operand List.mem_cons_self)
  have twice : 2 ≤ places (curlOfSum solid flat 3 [3]) squares := by cbv
  rw [duplications_contains consistent]
  exact (duplications_counted consistent).full _ part twice x inside

/-- A part is met no more often than its kind. -/
theorem places_le_kind (x e : Expr) :
    places x e ≤ (parts e).countP fun y => x.kind == y.kind :=
  List.countP_mono_left fun y _ same => by rw [same_kind same, beq_self_eq_true]

theorem squares_once {x : Expr} (rare : (parts squares).countP (fun y => x.kind == y.kind) ≤ 1) :
    squares.duplications.contains x = false := by
  refine eq_false_of_ne_true fun known => ?_
  have twice := (duplications_contains (consistent_of_unlabelled squares_unlabelled)).mp known
  have few := places_le_kind x squares
  omega

open Marking in
theorem squares_curl_visit {names : Names} {memo : Memo Expr}
    (names_eq : names = ((∅ : Names).insert flat squaresField).insert flat squaresField)
    (memo_eq : memo = (∅ : Memo Expr).insert flat squaresField) : ∃ (names' : Names) (memo' : Memo Expr),
    transformIn (rules squares.duplications) (curlOfSum solid flat 3 [3]) memo names { label := 1 } =
      .ok (((.labelled ⟨4⟩ squaresCurl, memo'), names'), { label := 5 }) ∧
    memo'[curlOfSum solid flat 3 [3]]? = some (.labelled ⟨4⟩ squaresCurl) ∧
    ∀ x : Expr, x.kind ∈ [.inner, .dot, .listTensor] → names'[x]? = none ∧ memo'[x]? = none := by
  -- Once the field has label 0, all parts of the curl get the next ones.
  subst names_eq memo_eq
  let sum := Expr.node .sum [solid, flat] [] ∅
  let gradient := Expr.node .grad [sum] [3] ∅
  let curl := curlOfSum solid flat 3 [3]
  let space : Expr := .labelled ⟨1⟩ solid
  have inCurl : Within curl curl := .refl _
  have inGradient : Within gradient curl := .operand List.mem_cons_self
  have inSum : Within sum curl := .step List.mem_cons_self (.operand List.mem_cons_self)
  have inSolid : Within solid curl := .trans (.operand List.mem_cons_self) inSum
  have reuseSum : sum.reuse [space, squaresField] { label := 2 } =
      .ok (squaresSum, { label := 2 }) := by cbv
  have reuseGrad : gradient.reuse [.labelled ⟨2⟩ squaresSum] { label := 3 } =
      .ok (squaresGrad, { label := 3 }) :=
    reuse_grad solid_sum_dimension rfl squares_sum_dimension rfl (by cbv)
  have reuseCurl : curl.reuse [.labelled ⟨3⟩ squaresGrad] { label := 4 } =
      .ok (squaresCurl, { label := 4 }) := by cbv
  let names1 : Names := ((∅ : Names).insert flat squaresField).insert flat squaresField
  let names2 := (names1.insert solid space).insert solid space
  let names3 := (names2.insert sum (.labelled ⟨2⟩ squaresSum)).insert squaresSum
    (.labelled ⟨2⟩ squaresSum)
  let names4 := (names3.insert gradient (.labelled ⟨3⟩ squaresGrad)).insert squaresGrad
    (.labelled ⟨3⟩ squaresGrad)
  let names5 := (names4.insert curl (.labelled ⟨4⟩ squaresCurl)).insert squaresCurl
    (.labelled ⟨4⟩ squaresCurl)
  let memo1 : Memo Expr := (∅ : Memo Expr).insert flat squaresField
  let memo2 := memo1.insert solid space
  let memo3 := memo2.insert sum (.labelled ⟨2⟩ squaresSum)
  let memo4 := memo3.insert gradient (.labelled ⟨3⟩ squaresGrad)
  let memo5 := memo4.insert curl (.labelled ⟨4⟩ squaresCurl)
  have visit2 : transformIn (rules squares.duplications) solid memo1 names1 { label := 1 } =
      .ok (((space, memo2), names2), { label := 2 }) :=
    visit_named solid { label := 1 } (by rfl) (by decide) (by simp [memo1, solid, flat]) rfl
      (by simp [names1, solid, flat]) rfl (squares_repeats inSolid) (by decide) (by rfl)
  have known : memo2[flat]? = some squaresField := by
    simp only [memo1, memo2, solid, flat, Std.HashMap.getElem?_insert, terminal_same]
    simp
  have visit3 : transformIn (rules squares.duplications) sum memo1 names1 { label := 1 } =
      .ok (((.labelled ⟨2⟩ squaresSum, memo3), names3), { label := 3 }) :=
    visit_named squaresSum { label := 2 } (by rfl) (by decide) (by simp [memo1, sum, flat])
      (visit_all_cons visit2 (visit_all_cons (visit_known known) rfl))
      (by simp [names1, names2, solid, flat, sum]) reuseSum (squares_repeats inSum) (by decide)
      (by rfl)
  have visit4 : transformIn (rules squares.duplications) gradient memo1 names1 { label := 1 } =
      .ok (((.labelled ⟨3⟩ squaresGrad, memo4), names4), { label := 4 }) :=
    visit_named squaresGrad { label := 3 } (by rfl) (by decide) (by simp [memo1, gradient, flat])
      (visit_all_cons visit3 rfl)
      (by simp [names1, names2, names3, solid, flat, sum, squaresSum, gradient]) reuseGrad
      (squares_repeats inGradient) (by decide) (by rfl)
  have visit5 : transformIn (rules squares.duplications) curl memo1 names1 { label := 1 } =
      .ok (((.labelled ⟨4⟩ squaresCurl, memo5), names5), { label := 5 }) :=
    visit_named squaresCurl { label := 4 } (by rfl) (by decide)
      (by simp [memo1, curl, curlOfSum, flat]) (visit_all_cons visit4 rfl)
      (by simp [names1, names2, names3, names4, solid, flat, sum, squaresSum, gradient, squaresGrad,
        curl, curlOfSum]) reuseCurl (squares_repeats inCurl) (by decide) (by rfl)
  refine ⟨names5, memo5, visit5, Std.HashMap.getElem?_insert_self, fun x kind => ?_⟩
  have kinds : ∀ y ∈ [flat, solid, sum, squaresSum, gradient, squaresGrad, curl, squaresCurl],
      y.kind ∉ [.inner, .dot, .listTensor] := by decide
  have apart : ∀ y ∈ [flat, solid, sum, squaresSum, gradient, squaresGrad, curl, squaresCurl],
      (y == x) = false := by
    intro y member
    refine eq_false_of_ne_true fun same => kinds y member ?_
    rw [same_kind same]
    exact kind
  simp only [List.forall_mem_cons] at apart
  simp [names1, names2, names3, names4, names5, memo1, memo2, memo3, memo4, memo5, apart]

open Marking in
theorem squares_run : squares.markDuplications {} = .ok (squaresMarked, { label := 5 }) := by
  let curl := curlOfSum solid flat 3 [3]
  let inner := Expr.node .inner [curl, curl] [] ∅
  let dot := Expr.node .dot [curl, curl] [] ∅
  let scalar : Expr := .labelled ⟨4⟩ squaresCurl
  have reuseInner : inner.reuse [scalar, scalar] { label := 5 } =
      .ok (squaresProduct, { label := 5 }) := by cbv
  have reuseDot : dot.reuse [scalar, scalar] { label := 5 } =
      .ok (squaresProduct, { label := 5 }) := by cbv
  have reuseSquares : squares.reuse [squaresField, squaresProduct, squaresProduct] { label := 5 } =
      .ok (squaresMarked, { label := 5 }) := by cbv
  have repeated : squares.duplications.contains flat = true := squares_repeats
    (.step List.mem_cons_self (.step List.mem_cons_self (.operand (.tail _ List.mem_cons_self))))
  have visit1 : transformIn (rules squares.duplications) flat ∅ ∅ {} = _ :=
    visit_named flat {} (by rfl) (by decide) Std.HashMap.getElem?_empty rfl
      Std.HashMap.getElem?_empty rfl repeated (by decide) (by rfl)
  obtain ⟨names, memo, visit2, known, new⟩ := squares_curl_visit rfl rfl
  have visit3 : transformIn (rules squares.duplications) inner _ _ { label := 1 } =
      .ok (((squaresProduct, memo.insert inner squaresProduct), names), { label := 5 }) :=
    visit_kept (by rfl) (by decide) (by simp [inner, flat])
      (visit_all_cons visit2 (visit_all_cons (visit_known known) rfl)) (new inner (by decide)).1
      reuseInner (squares_once (by decide)) (squares_once (by decide))
  -- Only its kind tells an expression from those met before.
  have apart {x y : Expr} (kinds : x.kind ≠ y.kind) : ¬ (x == y) = true := mt same_kind kinds
  have known' : (memo.insert inner squaresProduct)[curl]? = some scalar := by
    rw [Std.HashMap.getElem?_insert, if_neg (apart (by decide))]
    exact known
  have new' : (memo.insert inner squaresProduct)[dot]? = none := by
    rw [Std.HashMap.getElem?_insert, if_neg (apart (by decide))]
    exact (new dot (by decide)).2
  have visit4 : transformIn (rules squares.duplications) dot (memo.insert inner squaresProduct) names
      { label := 5 } = .ok (((squaresProduct, (memo.insert inner squaresProduct).insert dot
        squaresProduct), names), { label := 5 }) :=
    visit_kept (by rfl) (by decide) new'
      (visit_all_cons (visit_known known') (visit_all_cons (visit_known known') rfl))
      (new dot (by decide)).1 reuseDot (squares_once (by decide)) (squares_once (by decide))
  have visit5 : transformIn (rules squares.duplications) squares ∅ ∅ {} =
      .ok (((squaresMarked, ((memo.insert inner squaresProduct).insert dot squaresProduct).insert
        squares squaresMarked), names), { label := 5 }) :=
    visit_kept (by rfl) (by decide) Std.HashMap.getElem?_empty
      (visit_all_cons visit1 (visit_all_cons visit3 (visit_all_cons visit4 rfl)))
      (new squares (by decide)).1 reuseSquares (squares_once (by decide)) (squares_once (by decide))
  show (transform (rules squares.duplications) squares ∅ {} >>= fun result => _) = _
  rw [transform_runs visit5]
  rfl

end FormCalculus.Expr
