import FormCalculus.Proofs.Collecting
import FormCalculus.Proofs.Occurring
import FormCalculus.Proofs.VisitingOnce

/-!
The labelled parts are listed in the order of the walk that visits operands first: what the walk
meets and has no label met before.
-/
set_option autoImplicit false

namespace FormCalculus

open Expr

namespace Expr

/-- The labelled expressions that a walk visits, each after those in its body. -/
def labelledOrder (e : Expr) : List Expr := e.postOrder.filter fun v => v.kind = .labelled

theorem labelled_order_eq (e : Expr) :
    e.labelledOrder = e.operands.flatMap labelledOrder ++ if e.kind = .labelled then [e] else [] := by
  rw [labelledOrder, post_order_eq, List.filter_append, List.filter_flatMap, List.filter_singleton]
  congr 1
  by_cases labelled : e.kind = .labelled <;> simp [labelled]

theorem mem_labelled_order {v e : Expr} :
    v ∈ e.labelledOrder ↔ Within v e ∧ v.kind = .labelled := by
  -- In an operand, or the expression itself.
  have step {e : Expr} (below : ∀ o ∈ e.operands, v ∈ o.labelledOrder ↔ Within v o ∧ v.kind = .labelled) :
      v ∈ e.labelledOrder ↔ Within v e ∧ v.kind = .labelled := by
    rw [labelled_order_eq, List.mem_append, List.mem_flatMap]
    constructor
    · rintro (⟨o, member, inside⟩ | root)
      · obtain ⟨within, kind⟩ := (below o member).mp inside
        exact ⟨.step member within, kind⟩
      · split at root
        · obtain rfl := List.mem_singleton.mp root
          exact ⟨.refl v, ‹_›⟩
        · cases root
    · rintro ⟨inside, kind⟩
      cases inside with
      | refl => exact .inr (by simp [kind])
      | step member within => exact .inl ⟨_, member, (below _ member).mpr ⟨within, kind⟩⟩
  induction e with
  | terminal data => exact step nofun
  | node op operands shape free ih => exact step ih
  | labelled label body ih => exact step fun o member => List.mem_singleton.mp member ▸ ih

/-- Whether two expressions have one label. -/
def sameLabel (v w : Expr) : Bool := v.label? == w.label?

end Expr

namespace LabelledFound

variable {m x v : Expr} {s : LabelledFound} {opened : Expr → Prop}

/-- What has been noted has been found, except for what is still open, and with it the labelled
parts of its body before it. -/
structure Tracks (m : Expr) (opened : Expr → Prop) (s : LabelledFound) : Prop where
  closed : Closed m opened s
  opens : ∀ y, opened y → Within y m
  found : ∀ v ∈ s.found, ∃ label body, v = .labelled label body ∧ label ∈ s.labels ∧ Within v m
  listed : ∀ label ∈ s.labels,
    (∃ body, .labelled label body ∈ s.found) ∨ ∃ body, opened (.labelled label body)
  inner : ∀ outer label body rest, s.found = outer ++ .labelled label body :: rest →
    ∀ v, Within v body → v.kind = .labelled → v ∈ rest

theorem Tracks.noted (tracks : Tracks m opened s) (consistent : Consistent m) (inside : Within x m)
    (unopened : ∀ y, Within y x → ¬ opened y) (noted : s.Noted x) (part : Within v x)
    (kind : v.kind = .labelled) : v ∈ s.found := by
  -- All labelled parts of what has been noted are found.
  cases v with
  | terminal data => cases data <;> cases kind
  | node op => cases op <;> cases kind
  | labelled label body =>
      obtain ⟨other, member⟩ | ⟨other, still⟩ := tracks.listed label (noted label body part)
      · obtain ⟨_, _, same, _, within⟩ := tracks.found _ member
        cases same
        rwa [consistent label body other (part.trans inside) within]
      · have within := tracks.opens _ still
        rw [← consistent label body other (part.trans inside) within] at still
        exact absurd still (unopened _ part)

theorem Tracks.enter_node {op : Operator} {operands : List Expr} {shape : Shape}
    {free : FreeIndices} (tracks : Tracks m opened s) (consistent : Consistent m)
    (inside : Within (.node op operands shape free) m) :
    Tracks m (fun y => y = .node op operands shape free ∨ opened y)
      { s with visited := s.visited.insert (.node op operands shape free) } := by
  refine ⟨tracks.closed.enter_node consistent inside, ?_, tracks.found, ?_, tracks.inner⟩
  · rintro y (rfl | still)
    · exact inside
    · exact tracks.opens y still
  · exact fun label member => (tracks.listed label member).imp_right
      fun ⟨body, still⟩ => ⟨body, .inr still⟩

theorem Tracks.enter_label {label : Label} {body : Expr} (tracks : Tracks m opened s)
    (consistent : Consistent m) (inside : Within (.labelled label body) m) :
    Tracks m (fun y => y = .labelled label body ∨ opened y)
      { s with labels := label :: s.labels } := by
  refine ⟨tracks.closed.enter_label consistent inside, ?_, ?_, ?_, tracks.inner⟩
  · rintro y (rfl | still)
    · exact inside
    · exact tracks.opens y still
  · intro v member
    obtain ⟨other, b, rfl, noted, within⟩ := tracks.found v member
    exact ⟨other, b, rfl, List.mem_cons_of_mem _ noted, within⟩
  · intro other member
    obtain rfl | member := List.mem_cons.mp member
    · exact .inr ⟨body, .inl rfl⟩
    · exact (tracks.listed other member).imp_right fun ⟨b, still⟩ => ⟨b, .inr still⟩

theorem Tracks.leave_node {op : Operator} {operands : List Expr} {shape : Shape}
    {free : FreeIndices} (closed : Closed m opened s) (opens : ∀ y, opened y → Within y m)
    (last : Tracks m (fun y => y = .node op operands shape free ∨ opened y) s) :
    Tracks m opened s := by
  refine ⟨closed, opens, last.found, fun label member => ?_, last.inner⟩
  obtain found | ⟨body, same | still⟩ := last.listed label member
  · exact .inl found
  · cases same
  · exact .inr ⟨body, still⟩

theorem Tracks.leave_label {label : Label} {body : Expr}
    (closed : Closed m opened { s with found := .labelled label body :: s.found })
    (opens : ∀ y, opened y → Within y m)
    (last : Tracks m (fun y => y = .labelled label body ∨ opened y) s)
    (inside : Within (.labelled label body) m) (noted : label ∈ s.labels)
    (below : ∀ v, Within v body → v.kind = .labelled → v ∈ s.found) :
    Tracks m opened { s with found := .labelled label body :: s.found } := by
  refine ⟨closed, opens, List.forall_mem_cons.mpr ⟨⟨label, body, rfl, noted, inside⟩, last.found⟩,
    ?_, ?_⟩
  · intro other member
    obtain ⟨b, found⟩ | ⟨b, same | still⟩ := last.listed other member
    · exact .inl ⟨b, List.mem_cons_of_mem _ found⟩
    · exact .inl ⟨b, same ▸ List.mem_cons_self⟩
    · exact .inr ⟨b, still⟩
  · intro outer other b rest split v part kind
    cases outer with
    | nil =>
        cases split
        exact below v part kind
    | cons _ outer =>
        obtain ⟨_, split⟩ := List.cons.inj split
        exact last.inner outer other b rest split v part kind

theorem collect_new {label : Label} {body : Expr} (consistent : Consistent m)
    (inside : Within (.labelled label body) m) (new : label ∉ s.labels) (tracks : Tracks m opened s)
    (last : Tracks m (fun y => y = .labelled label body ∨ opened y)
      (collect body { s with labels := label :: s.labels })) :
    (collect body { s with labels := label :: s.labels }).found.any
      (sameLabel (.labelled label body)) = false := by
  -- Nothing that is found in the body of a new label has that label.
  rw [List.any_eq_false]
  intro w member same
  obtain ⟨other, b, rfl, _, within⟩ := last.found w member
  obtain rfl : label = other := by simpa [sameLabel, label?] using same
  obtain rfl := consistent label body b inside within
  obtain ⟨⟨found, split, _, parts⟩, _⟩ := collect_adds body { s with labels := label :: s.labels }
  rw [split] at member
  obtain here | before := List.mem_append.mp member
  · exact not_within_operand (x := .labelled label body) List.mem_cons_self (parts _ here).1
  · obtain ⟨_, _, same, noted, _⟩ := tracks.found _ before
    cases same
    exact new noted

open List in
theorem loop_found {found : List Expr} {seen rest : List Expr} (known : ∀ v ∈ seen, v ∈ found) :
    eraseDupsBy.loop sameLabel (seen ++ rest) found = eraseDupsBy.loop sameLabel rest found := by
  -- What has been found is dropped from the rest of the walk.
  induction seen with
  | nil => rfl
  | cons v seen ih =>
      obtain ⟨here, others⟩ := List.forall_mem_cons.mp known
      have again : found.any (sameLabel v) = true :=
        List.any_eq_true.mpr ⟨v, here, beq_self_eq_true _⟩
      rw [List.cons_append, eraseDupsBy.loop, again]
      exact ih others

/-- A visit to `x` finds what the walk over `x` meets first. -/
def Follows (m : Expr) (visit : LabelledFound → LabelledFound) (order : List Expr)
    (part : Expr → Prop) : Prop :=
  ∀ opened s, (∀ y, part y → ¬ opened y) → Tracks m opened s →
    Tracks m opened (visit s) ∧ ∀ rest, List.eraseDupsBy.loop sameLabel (order ++ rest) s.found =
      List.eraseDupsBy.loop sameLabel rest (visit s).found

theorem collect_all_follows {operands : List Expr}
    (visits : ∀ o ∈ operands, Follows m (collect o) o.labelledOrder (Within · o)) :
    Follows m (collectAll operands) (operands.flatMap labelledOrder)
      (fun y => ∃ o ∈ operands, Within y o) := by
  induction operands with
  | nil => exact fun _ _ _ tracks => ⟨tracks, fun _ => rfl⟩
  | cons o rest ih =>
      intro opened s unopened tracks
      obtain ⟨visit, others⟩ := List.forall_mem_cons.mp visits
      obtain ⟨tracks, first⟩ := visit opened s
        (fun y within => unopened y ⟨o, List.mem_cons_self, within⟩) tracks
      obtain ⟨tracks, second⟩ := ih others opened (collect o s)
        (fun y ⟨p, member, within⟩ => unopened y ⟨p, List.mem_cons_of_mem _ member, within⟩) tracks
      refine ⟨tracks, fun later => ?_⟩
      rw [collectAll, List.flatMap_cons, List.append_assoc, first, second]

theorem Tracks.nothing_new (tracks : Tracks m opened s) (consistent : Consistent m)
    (inside : Within x m) (unopened : ∀ y, Within y x → ¬ opened y) (entered : s.Entered x)
    (rest : List Expr) : List.eraseDupsBy.loop sameLabel (x.labelledOrder ++ rest) s.found =
      List.eraseDupsBy.loop sameLabel rest s.found := by
  -- All that is labelled in what has been entered before is found.
  refine loop_found fun v member => ?_
  obtain ⟨within, kind⟩ := mem_labelled_order.mp member
  have noted := tracks.closed x inside entered (unopened x (.refl x))
  exact tracks.noted consistent inside unopened noted within kind

theorem collect_follows (consistent : Consistent m) (inside : Within x m) :
    Follows m (collect x) x.labelledOrder (Within · x) := by
  -- A part that is entered is open while its operands are visited, and closed by its own lemma after.
  induction x with
  | terminal data =>
      intro opened s _ tracks
      refine ⟨tracks, fun rest => ?_⟩
      have none : (Expr.terminal data).kind ≠ .labelled := by
        intro same
        cases data <;> cases same
      rw [labelled_order_eq, if_neg none]
      rfl
  | node op operands shape free ih =>
      intro opened s unopened tracks
      have completes := collect_completes consistent inside opened s unopened tracks.closed
      rw [collect] at completes ⊢
      split at completes <;> rename_i known
      · rw [if_pos known]
        exact ⟨tracks, tracks.nothing_new consistent inside unopened known⟩
      · rw [if_neg known]
        have visits := collect_all_follows fun o member =>
          ih o member ((Within.operand member).trans inside)
        have entered := tracks.enter_node consistent inside
        obtain ⟨last, follows⟩ := visits _ _ (by
          rintro y ⟨o, member, within⟩
          exact unopened_below (x := .node op operands shape free) member unopened y within) entered
        refine ⟨.leave_node completes.1 tracks.opens last, fun rest => ?_⟩
        have none : (Expr.node op operands shape free).kind ≠ .labelled := by
          intro same
          cases op <;> cases same
        rw [labelled_order_eq, if_neg none, List.append_nil]
        exact follows rest
  | labelled label body ih =>
      intro opened s unopened tracks
      have completes := collect_completes consistent inside opened s unopened tracks.closed
      have adds := collect_adds body { s with labels := label :: s.labels }
      rw [collect] at completes ⊢
      split at completes <;> rename_i known
      · rw [if_pos known]
        have entered : label ∈ s.labels := by simpa using known
        exact ⟨tracks, tracks.nothing_new consistent inside unopened entered⟩
      · rw [if_neg known]
        have new : label ∉ s.labels := by simpa using known
        have within : Within body m := (Within.operand List.mem_cons_self).trans inside
        have entered := tracks.enter_label consistent inside
        have below := unopened_below (x := .labelled label body) List.mem_cons_self unopened
        have noted := (collect_completes consistent within _ _ below entered.closed).2
        obtain ⟨last, follows⟩ := ih within _ _ below entered
        refine ⟨.leave_label completes.1 tracks.opens last inside (adds.labels List.mem_cons_self)
          fun v part kind => last.noted consistent within below noted part kind, fun rest => ?_⟩
        have walk : (labelled label body).labelledOrder =
            body.labelledOrder ++ [.labelled label body] := by
          rw [labelled_order_eq]
          show [body].flatMap labelledOrder ++ [labelled label body] = _
          rw [List.flatMap_singleton]
        have fresh := collect_new consistent inside new tracks last
        rw [walk, List.append_assoc, follows]
        show List.eraseDupsBy.loop sameLabel (.labelled label body :: rest) _ = _
        rw [List.eraseDupsBy.loop, fresh]

end LabelledFound

namespace Expr

variable {e : Expr}

/-- The labelled parts are what the walk that visits operands first meets under a label that it has
not met. Every label is listed once, after the labels in its body. -/
theorem labelled_parts_in_order (agreeing : ∀ label a b, Within (labelled label a) e →
    Within (labelled label b) e → (a == b) = true) :
    e.labelledParts = (e.postOrder.filter fun v => v.kind = .labelled).eraseDupsBy
        (fun v w => v.label? == w.label?) ∧
      (∀ label body, Within (.labelled label body) e →
        (e.labelledParts.filterMap Expr.label?).count label = 1) ∧
      ∀ before label body after, e.labelledParts = before ++ .labelled label body :: after →
        ∀ v, Within v body → v.kind = .labelled → v ∈ before := by
  have consistent := consistent_of_agreeing agreeing
  have start : LabelledFound.Tracks e (fun _ => False) ⟨[], ∅, []⟩ := by
    refine ⟨fun y _ entered => ?_, nofun, nofun, nofun, fun outer _ _ _ split => ?_⟩
    · cases y with
      | terminal => cases entered
      | labelled => cases entered
      | node => simp [LabelledFound.Entered] at entered
    · cases outer <;> cases split
  obtain ⟨last, follows⟩ :=
    LabelledFound.collect_follows consistent (.refl e) _ _ (fun _ _ => id) start
  refine ⟨?_, fun label body inside => ?_, fun before label body after split v part kind => ?_⟩
  · have walk := follows []
    rw [List.append_nil] at walk
    exact walk.symm
  · have distinct : (e.labelledParts.filterMap Expr.label?).Nodup := by
      refine List.Pairwise.filterMap _ (fun v w differ l own l' own' same => differ ?_)
        labelled_parts_distinct
      rw [own, own', same]
    exact List.count_eq_one_of_mem distinct
      (List.mem_filterMap.mpr ⟨_, within_labelled_parts consistent inside, rfl⟩)
  · have found : (LabelledFound.collect e ⟨[], ∅, []⟩).found =
        after.reverse ++ .labelled label body :: before.reverse := by
      rw [← List.reverse_reverse (LabelledFound.collect e ⟨[], ∅, []⟩).found]
      show e.labelledParts.reverse = _
      rw [split]
      simp
    exact List.mem_reverse.mp (last.inner _ label body _ found v part kind)

def walkedField (number : Nat) : Expr := .terminal (.coefficient ⟨number, ⟨[], 2, none⟩⟩)

def innerName : Expr := .labelled ⟨0⟩ (walkedField 0)

def outerName : Expr := .labelled ⟨1⟩ (.node .product [walkedField 1, innerName] [] ∅)

/-- A label in the body of another, which occurs twice. -/
def nestedNames : Expr :=
  .node .sum [.node .product [walkedField 2, outerName] [] ∅, outerName] [] ∅

theorem nested_names_in_order :
    (∀ label a b, Within (labelled label a) nestedNames → Within (labelled label b) nestedNames →
      (a == b) = true) ∧
    nestedNames.labelledParts = [innerName, outerName] ∧
    (nestedNames.labelledParts.filterMap Expr.label?).count ⟨0⟩ = 1 ∧
    ∀ before label body after, nestedNames.labelledParts = before ++ .labelled label body :: after →
      ∀ v, Within v body → v.kind = .labelled → v ∈ before := by
  have bodies : ∀ x ∈ parts nestedNames, ∀ label b, x = .labelled label b →
      [walkedField 0, .node .product [walkedField 1, innerName] [] ∅][label.number]? = some b := by
    simp +contextual [nestedNames, outerName, innerName, walkedField, parts, partsAll]
  have agreeing := agreeing_of_bodies bodies
  obtain ⟨walk, once, inner⟩ := labelled_parts_in_order agreeing
  have part : Within innerName nestedNames :=
    .step (.tail _ List.mem_cons_self) (.step List.mem_cons_self (.operand (.tail _ List.mem_cons_self)))
  have met : (nestedNames.postOrder.filter fun v => v.kind = .labelled) =
      [innerName, outerName, innerName, outerName] := by
    simp [post_order_eq, nestedNames, outerName, innerName, walkedField, operands, kind,
      Operator.kind, Terminal.kind]
  rw [met] at walk
  exact ⟨agreeing, walk, once ⟨0⟩ (walkedField 0) part, inner⟩

end Expr

end FormCalculus
