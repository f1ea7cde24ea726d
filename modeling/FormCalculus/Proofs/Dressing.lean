import FormCalculus.Proofs.Standing
import FormCalculus.Proofs.Stripping
import FormCalculus.Proofs.Walking

/-!
Expressions dressed with labels: every part that has a name gets it as its label, and the operands
of sums and products are sorted again. Stripping takes the labels off.
-/
set_option autoImplicit false

namespace FormCalculus.Expr

/-- The expression under a label, if there is one. -/
def tagged (label : Option Label) (e : Expr) : Expr :=
  match label with
  | some label => .labelled label e
  | none => e

mutual
/-- The expression with a label around every part that has a name. -/
def dress (names : Expr → Option Label) : Expr → Expr
  | .terminal data => tagged (names (.terminal data)) (.terminal data)
  | .node op operands shape free => tagged (names (.node op operands shape free))
      (.node op (op.arrange (dressAll names operands)) shape free)
  | .labelled label body => tagged (names (.labelled label body)) (.labelled label (dress names body))
def dressAll (names : Expr → Option Label) : List Expr → List Expr
  | [] => []
  | e :: rest => dress names e :: dressAll names rest
end

/-- The expression with the labels of its parts, without its own. -/
def bare (names : Expr → Option Label) : Expr → Expr
  | .terminal data => .terminal data
  | .node op operands shape free => .node op (op.arrange (dressAll names operands)) shape free
  | .labelled label body => .labelled label (dress names body)

variable {names names' : Expr → Option Label} {e x y v : Expr}

theorem dress_eq (names : Expr → Option Label) (x : Expr) :
    dress names x = tagged (names x) (bare names x) := by
  cases x <;> rfl

theorem dress_all_map (xs : List Expr) : dressAll names xs = xs.map (dress names) := by
  induction xs with
  | nil => rfl
  | cons x xs ih => rw [dressAll, List.map_cons, ih]

/-- Only the names of its parts matter. -/
theorem dress_congr (agree : ∀ y, Within y x → names y = names' y) :
    dress names x = dress names' x := by
  induction x with
  | terminal data => rw [dress_eq, dress_eq, agree _ (.refl _)]; rfl
  | labelled label body ih =>
      rw [dress_eq, dress_eq, agree _ (.refl _), bare, bare,
        ih fun y inside => agree y (.step List.mem_cons_self inside)]
  | node op operands shape free ih =>
      have below : dressAll names operands = dressAll names' operands := by
        rw [dress_all_map, dress_all_map]
        exact List.map_congr_left fun o member => ih o member fun y inside =>
          agree y (.step member inside)
      rw [dress_eq, dress_eq, agree _ (.refl _), bare, bare, below]

theorem bare_congr (agree : ∀ o ∈ x.operands, ∀ y, Within y o → names y = names' y) :
    bare names x = bare names' x := by
  cases x with
  | terminal data => rfl
  | labelled label body => rw [bare, bare, dress_congr (agree body List.mem_cons_self)]
  | node op operands shape free =>
      have below : dressAll names operands = dressAll names' operands := by
        rw [dress_all_map, dress_all_map]
        exact List.map_congr_left fun o member => dress_congr (agree o member)
      rw [bare, bare, below]

theorem mem_arrange {op : Operator} {vs : List Expr} {o : Expr} : o ∈ op.arrange vs ↔ o ∈ vs :=
  (arrange_reordered op vs).mem

/-! The parts of a dressed expression are its dressed parts, with or without their own labels. -/

theorem bare_operand {o : Expr} (member : o ∈ (bare names x).operands) :
    ∃ y ∈ x.operands, o = dress names y := by
  cases x with
  | terminal data => cases member
  | labelled label body => exact ⟨body, List.mem_cons_self, List.mem_singleton.mp member⟩
  | node op operands shape free =>
      have member : o ∈ dressAll names operands := mem_arrange.mp member
      rw [dress_all_map] at member
      obtain ⟨y, inside, same⟩ := List.mem_map.mp member
      exact ⟨y, inside, same.symm⟩

theorem operand_bare {o : Expr} (member : o ∈ x.operands) :
    dress names o ∈ (bare names x).operands := by
  cases x with
  | terminal data => cases member
  | labelled label body => exact List.mem_singleton.mpr (congrArg _ (List.mem_singleton.mp member))
  | node op operands shape free =>
      refine mem_arrange.mpr ?_
      rw [dress_all_map]
      exact List.mem_map_of_mem member

theorem bare_within : Within (bare names x) (dress names x) := by
  rw [dress_eq]
  cases names x with
  | none => exact .refl _
  | some label => exact .operand List.mem_cons_self

theorem dress_within (inside : Within y x) : Within (dress names y) (dress names x) := by
  induction inside with
  | refl => exact .refl _
  | step member _ ih => exact ih.trans ((Within.operand (operand_bare member)).trans bare_within)

/-- Below its own label a dressed expression has its dressed operands. -/
theorem within_dress_cases (inside : Within v (dress names x)) :
    v = dress names x ∨ v = bare names x ∨ ∃ o ∈ x.operands, Within v (dress names o) := by
  have under (inside : Within v (bare names x)) :
      v = bare names x ∨ ∃ o ∈ x.operands, Within v (dress names o) := by
    cases inside with
    | refl => exact .inl rfl
    | step member below =>
        obtain ⟨o, operand, rfl⟩ := bare_operand member
        exact .inr ⟨o, operand, below⟩
  cases inside with
  | refl => exact .inl rfl
  | step member below =>
      rw [dress_eq] at member
      cases own : names x with
      | none =>
          rw [own] at member
          exact .inr (under (.step member below))
      | some label =>
          rw [own] at member
          obtain rfl := List.mem_singleton.mp member
          exact .inr (under below)

theorem within_dress (inside : Within v (dress names x)) :
    ∃ y, Within y x ∧ (v = dress names y ∨ v = bare names y) := by
  -- What lies in a dressed operand is a dressed part by induction.
  have step {x : Expr} (below : ∀ o ∈ x.operands, Within v (dress names o) →
      ∃ y, Within y o ∧ (v = dress names y ∨ v = bare names y))
      (inside : Within v (dress names x)) :
      ∃ y, Within y x ∧ (v = dress names y ∨ v = bare names y) := by
    obtain same | same | ⟨o, member, inside⟩ := within_dress_cases inside
    · exact ⟨x, .refl x, .inl same⟩
    · exact ⟨x, .refl x, .inr same⟩
    · obtain ⟨y, within, rest⟩ := below o member inside
      exact ⟨y, .step member within, rest⟩
  induction x with
  | terminal data => exact step nofun inside
  | labelled label body ih =>
      exact step (fun o member => List.mem_singleton.mp member ▸ ih) inside
  | node op operands shape free ih => exact step ih inside

theorem bare_kind : (bare names x).kind = x.kind := by
  cases x <;> rfl

theorem bare_of_terminal {data : Terminal} (same : bare names x = .terminal data) :
    x = .terminal data := by
  cases x with
  | terminal => exact same
  | node | labelled => cases same

/-- A part without a label of its own is a bare one. -/
theorem bare_within_dress (kind : v.kind ≠ .labelled) (inside : Within v (dress names x)) :
    ∃ y, Within y x ∧ v = bare names y := by
  obtain ⟨y, within, same | same⟩ := within_dress inside
  · rw [dress_eq] at same
    cases own : names y with
    | none =>
        rw [own] at same
        exact ⟨y, within, same⟩
    | some label =>
        rw [own] at same
        exact absurd (congrArg Expr.kind same) kind
  · exact ⟨y, within, same⟩

/-- Dressing neither adds nor loses a terminal. -/
theorem terminal_within_dress {data : Terminal} :
    Within (.terminal data) (dress names x) ↔ Within (.terminal data) x := by
  constructor
  · intro inside
    obtain ⟨y, within, same⟩ := bare_within_dress (by cases data <;> nofun) inside
    exact bare_of_terminal same.symm ▸ within
  · exact fun inside => bare_within.trans (dress_within inside)

/-! A name is given to one expression. -/

/-- No two expressions have one name. -/
def Separate (names : Expr → Option Label) : Prop :=
  ∀ x y label, names x = some label → names y = some label → x = y

/-- A labelled part of a dressed expression without labels is a part under its name. -/
theorem labelled_within_dress {label : Label} {b : Expr} (plain : Unlabelled x)
    (inside : Within (labelled label b) (dress names x)) :
    ∃ y, Within y x ∧ names y = some label ∧ b = bare names y := by
  obtain ⟨y, within, same | same⟩ := within_dress inside
  · rw [dress_eq] at same
    cases own : names y with
    | none =>
        rw [own] at same
        have kind := congrArg Expr.kind same
        exact absurd (kind.trans bare_kind).symm (plain y within)
    | some other =>
        rw [own] at same
        cases same
        exact ⟨y, within, own, rfl⟩
  · have kind := congrArg Expr.kind same
    exact absurd (kind.trans bare_kind).symm (plain y within)

theorem dress_consistent (plain : Unlabelled x) (separate : Separate names) :
    Consistent (dress names x) := by
  intro label a b left right
  obtain ⟨y, _, own, rfl⟩ := labelled_within_dress plain left
  obtain ⟨z, _, own', rfl⟩ := labelled_within_dress plain right
  rw [separate y z label own own']

/-! A dressed expression stands for the expression. -/

theorem dress_stored (names : Expr → Option Label) (x : Expr) :
    (dress names x).shape = x.shape ∧ (dress names x).free = x.free := by
  have tagged_stored (label : Option Label) (v : Expr) :
      (tagged label v).shape = v.shape ∧ (tagged label v).free = v.free := by
    cases label <;> exact ⟨rfl, rfl⟩
  rw [dress_eq, (tagged_stored _ _).1, (tagged_stored _ _).2]
  induction x with
  | terminal | node => exact ⟨rfl, rfl⟩
  | labelled label body ih =>
      show (dress names body).shape = body.shape ∧ (dress names body).free = body.free
      rwa [dress_eq, (tagged_stored _ _).1, (tagged_stored _ _).2]

/-- Expressions of kinds that are not named have no name. -/
def Sparing (names : Expr → Option Label) : Prop :=
  ∀ x, x.kind.isUnnamed = true → names x = none

theorem dress_unnamed {data : Terminal} (sparing : Sparing names) (unnamed : data.kind.isUnnamed = true) :
    dress names (.terminal data) = .terminal data := by
  rw [dress_eq, sparing (.terminal data) unnamed]
  rfl

theorem bare_stands (typed : WellTyped x) (plain : x.kind ≠ .labelled) (sparing : Sparing names) :
    Stands x (bare names x) := by
  cases x with
  | terminal data => exact .refl _
  | labelled label body => exact absurd rfl plain
  | node op operands shape free =>
      have other : op.kind ≠ .multiIndex := by cases op <;> nofun
      refine ⟨rfl, rfl, rfl, rfl, fun kind => absurd kind other, id, .inl rfl,
        fun tensor ii shape' free' same => ?_⟩
      obtain ⟨rfl, pair, rfl, rfl⟩ := node.inj same
      obtain _ | ⟨types, _⟩ := typed
      cases types with
      | @indexed a items =>
          obtain ⟨_, second⟩ := List.cons.inj pair
          obtain rfl := List.singleton_inj.mp second
          have items : dress names (multiIndex items) = multiIndex items := dress_unnamed sparing rfl
          exact ⟨a, by rw [items]⟩

theorem dress_stands (typed : WellTyped x) (plain : x.kind ≠ .labelled) (sparing : Sparing names) :
    Stands x (dress names x) := by
  have below : Stands x (bare names x) := bare_stands typed plain sparing
  rw [dress_eq]
  cases own : names x with
  | none => exact below
  | some label =>
      refine below.label plain ?_
      cases unnamed : x.kind.isUnnamed with
      | false => rfl
      | true => exact nomatch own.symm.trans (sparing x unnamed)

/-! Formed expressions are arranged, so dressing without a label changes nothing. -/

theorem arranged {op : Operator} {operands : List Expr} {shape : Shape} {free : FreeIndices}
    (run : op.assemble operands = .ok (.node op operands shape free)) :
    op.arrange operands = operands := by
  obtain ⟨types, admits, lives⟩ := Operator.assembled run
  have same := run.symm.trans (Operator.assembles types admits lives)
  injection same with same
  injection same with _ same
  exact same.symm

theorem dress_unlabelled (plain : Unlabelled (dress names x)) :
    names x = none ∧ dress names x = bare names x := by
  rw [dress_eq] at plain ⊢
  cases own : names x with
  | none => exact ⟨rfl, rfl⟩
  | some label =>
      rw [own] at plain
      exact absurd rfl (plain _ (.refl _))

theorem bare_unlabelled (formed : Formed x) (plain : Unlabelled (bare names x)) :
    bare names x = x := by
  induction x with
  | terminal data => rfl
  | labelled label body => exact absurd rfl (plain _ (.refl _))
  | node op operands shape free ih =>
      obtain _ | ⟨run, _, below⟩ := formed
      have same : dressAll names operands = operands := by
        rw [dress_all_map]
        refine (List.map_congr_left fun o member => ?_).trans (List.map_id _)
        have under : Unlabelled (dress names o) :=
          plain.operand (operand_bare (x := .node op operands shape free) member)
        obtain ⟨_, same⟩ := dress_unlabelled under
        rw [same] at under ⊢
        exact ih o member (below o member) under
      exact congrArg (fun vs => node op vs shape free) ((congrArg op.arrange same).trans (arranged run))

/-! Stripping undresses. -/

theorem fold_apart {how : Constant.Operation} {a b : Expr} (unfolded : fold? how a b = none) :
    ¬ Clash a b := by
  rintro ⟨x, y, left, right, _⟩
  rcases fold_none_iff.mp unfolded with none | none
  · exact nomatch none.symm.trans left
  · exact nomatch none.symm.trans right

theorem stripped_tagged (label : Option Label) (x : Expr) : stripped (tagged label x) = stripped x := by
  cases label with
  | none => rfl
  | some label => rw [tagged, stripped]

/-- The operands of a dressed node strip to the operands of the node, which makes it again. -/
theorem stripped_operands {op : Operator} {xs : List Expr} {shape : Shape} {free : FreeIndices}
    (formed : Formed (.node op xs shape free)) (plain : Unlabelled (.node op xs shape free))
    (below : ∀ o ∈ xs, stripped (dress names o) = .ok o) :
    ∃ ts, strippedAll (op.arrange (dressAll names xs)) = .ok ts ∧ op.Spreads ts ∧
      op.assemble ts = .ok (.node op xs shape free) := by
  obtain _ | ⟨run, spreads, _⟩ := formed
  have all : strippedAll (dressAll names xs) = .ok xs := by
    rw [stripped_all_ok, dress_all_map, List.forall₂_map_left_iff, List.forall₂_same]
    exact below
  obtain ⟨ts, reordered, again⟩ := stripped_all_reordered (arrange_reordered op _) all
  refine ⟨ts, again, fun product o member => spreads product o (reordered.mem.mp member), ?_⟩
  refine assemble_reordered reordered (fun o member => plain.operand member) ?_ run
  -- Constants would have been folded.
  rintro commutes a b rfl
  obtain ⟨_, admits, _⟩ := Operator.assembled run
  rcases commutes with rfl | rfl
  · exact fold_apart admits.2.2
  · exact fold_apart admits.2.2.1

theorem stripped_bare (formed : Formed x) (plain : Unlabelled x) :
    stripped (bare names x) = .ok x := by
  induction x with
  | terminal data => rfl
  | labelled label body => exact absurd rfl (plain _ (.refl _))
  | node op operands shape free ih =>
      have below : ∀ o ∈ operands, stripped (dress names o) = .ok o := fun o member => by
        rw [dress_eq, stripped_tagged]
        exact ih o member (formed.operand member) (plain.operand member)
      obtain ⟨ts, all, _, run⟩ := stripped_operands formed plain below
      exact stripped_node.mpr ⟨ts, all, run⟩

theorem stripped_dress (formed : Formed x) (plain : Unlabelled x) :
    stripped (dress names x) = .ok x := by
  rw [dress_eq, stripped_tagged]
  exact stripped_bare formed plain

theorem dress_strippable (formed : Formed x) (plain : Unlabelled x) :
    Strippable (dress names x) := by
  intro op vs shape free ts inside all
  obtain ⟨y, within, same⟩ := bare_within_dress (by cases op <;> nofun) inside
  cases y with
  | terminal data => cases same
  | labelled label body => cases same
  | node op' xs shape' free' =>
      cases same
      have plain : Unlabelled (.node op xs shape free) := fun y inside => plain y (inside.trans within)
      have below : ∀ o ∈ xs, stripped (dress names o) = .ok o := fun o member =>
        stripped_dress ((formed.within within).operand member) (plain.operand member)
      obtain ⟨us, again, spreads, _⟩ := stripped_operands (formed.within within) plain below
      exact Except.ok.inj (all.symm.trans again) ▸ spreads

/-- The pass that removes labels undresses. -/
theorem strip_labels_dress {supply : Supply} (formed : Formed x) (plain : Unlabelled x)
    (separate : Separate names) (dressed : Formed (dress names x)) :
    (dress names x).stripLabels supply = .ok (x, supply) :=
  (strip_labels_ok dressed (dress_consistent plain separate).coherent
    (dress_strippable formed plain)).mpr ⟨stripped_dress formed plain, rfl⟩

end FormCalculus.Expr
