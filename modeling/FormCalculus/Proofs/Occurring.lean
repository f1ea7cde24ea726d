import FormCalculus.Proofs.Walking

/-!
The repeated subexpressions are those that occur at two or more places of the expression written
out as a tree.
-/
set_option autoImplicit false

namespace FormCalculus

open Expr

namespace Expr

mutual
/-- The subexpressions of an expression written out as a tree, each as often as it occurs. -/
def parts : Expr → List Expr
  | .terminal data => [.terminal data]
  | .node op operands shape free => .node op operands shape free :: partsAll operands
  | .labelled label body => .labelled label body :: parts body
def partsAll : List Expr → List Expr
  | [] => []
  | e :: rest => parts e ++ partsAll rest
end

/-- At how many places of `e`, written out as a tree, `x` occurs. -/
def places (x e : Expr) : Nat := (parts e).countP (x == ·)

def placesAll (x : Expr) (operands : List Expr) : Nat := (partsAll operands).countP (x == ·)

variable {e m x y : Expr} {operands : List Expr}

theorem parts_cons (e : Expr) : parts e = e :: partsAll e.operands := by
  cases e <;> simp [parts, partsAll, Expr.operands]

theorem mem_parts_all : x ∈ partsAll operands ↔ ∃ o ∈ operands, x ∈ parts o := by
  induction operands with
  | nil => simp [partsAll]
  | cons o rest ih => simp [partsAll, ih]

theorem mem_parts : x ∈ parts e ↔ Within x e := by
  -- At the root, or in an operand.
  have step {e : Expr} (below : ∀ o ∈ e.operands, x ∈ parts o ↔ Within x o) :
      x ∈ parts e ↔ Within x e := by
    rw [parts_cons, List.mem_cons, mem_parts_all]
    constructor
    · rintro (rfl | ⟨o, member, inside⟩)
      · exact .refl x
      · exact .step member ((below o member).mp inside)
    · intro inside
      cases inside with
      | refl => exact .inl rfl
      | step member inside => exact .inr ⟨_, member, (below _ member).mpr inside⟩
  induction e with
  | terminal data => exact step nofun
  | node op operands shape free ih => exact step ih
  | labelled label body ih => exact step fun o member => List.mem_singleton.mp member ▸ ih

instance {P : Expr → Prop} [DecidablePred P] (e : Expr) : Decidable (∀ x, Within x e → P x) :=
  decidable_of_iff (∀ x ∈ parts e, P x) (forall_congr' fun _ => by rw [mem_parts])

instance (e : Expr) : Decidable (Unlabelled e) :=
  inferInstanceAs (Decidable (∀ x, Within x e → x.kind ≠ .labelled))

/-- Labels alike wrap one body where a list has the body of each. -/
theorem agreeing_of_bodies {bodies : List Expr} (known : ∀ x ∈ parts e, ∀ label body,
    x = .labelled label body → bodies[label.number]? = some body) (label : Label) (a b : Expr)
    (left : Within (.labelled label a) e) (right : Within (.labelled label b) e) :
    (a == b) = true := by
  have first := known _ (mem_parts.mpr left) label a rfl
  obtain rfl := Option.some.inj (first.symm.trans (known _ (mem_parts.mpr right) label b rfl))
  exact same_refl a

theorem places_eq (x e : Expr) : places x e = (x == e).toNat + placesAll x e.operands := by
  rw [places, parts_cons, List.countP_cons, placesAll, Nat.add_comm]
  cases x == e <;> rfl

theorem places_all_cons (x o : Expr) (rest : List Expr) :
    placesAll x (o :: rest) = places x o + placesAll x rest := by
  rw [placesAll, partsAll, List.countP_append]
  rfl

theorem places_all_one (x o : Expr) : placesAll x [o] = places x o := places_all_cons x o []

theorem parts_all_append (left right : List Expr) :
    partsAll (left ++ right) = partsAll left ++ partsAll right := by
  induction left with
  | nil => rfl
  | cons e rest ih => simp [partsAll, ih]

/-- What is left of the walk is the trees of all pending subexpressions, one after the other. -/
theorem PreOrder.to_list_parts (walk : PreOrder) : walk.toList = partsAll walk.pending := by
  induction walk using PreOrder.toList.induct with
  | case1 walk ended =>
      obtain ⟨_ | ⟨e, rest⟩⟩ := walk
      · rw [PreOrder.toList]
        rfl
      · cases ended
  | case2 walk e rest step ih =>
      obtain ⟨_ | ⟨_, pending⟩⟩ := walk
      · cases step
      · cases step
        rw [PreOrder.toList]
        show e :: PreOrder.toList ⟨e.operands ++ pending⟩ = _
        rw [ih, parts_all_append, partsAll, parts_cons, List.cons_append]

theorem pre_order_parts (e : Expr) : e.preOrder = parts e := by
  rw [preOrder, PreOrder.to_list_parts]
  exact List.append_nil (parts e)

theorem places_pre_order (x e : Expr) : places x e = e.preOrder.countP (x == ·) := by
  rw [places, pre_order_parts]

theorem places_pos : 1 ≤ places x e ↔ ∃ y, Within y e ∧ (x == y) = true := by
  simp only [places, Nat.one_le_iff_ne_zero, ← Nat.pos_iff_ne_zero, List.countP_pos_iff, mem_parts]

/-- Equal expressions occur at the same places. -/
theorem places_congr (same : (x == y) = true) : places x e = places y e := by
  refine List.countP_congr fun z _ => ?_
  exact ⟨same_trans (same_symm same), same_trans same⟩

end Expr

namespace Occurrences

variable {m x y : Expr} {found : Occurrences} {opened : Expr → Prop} {times : Expr → Nat}

/-- Every part of `m` has been met as many times as `times` says. What has been met has been
entered to its end, except for what is still open. -/
structure Counted (m : Expr) (opened : Expr → Prop) (times : Expr → Nat) (found : Occurrences) :
    Prop where
  seen : ∀ y, Within y m → (found.seen.contains y = true ↔ 1 ≤ times y)
  repeated : ∀ y, Within y m → (found.repeated.contains y = true ↔ 2 ≤ times y)
  closed : ∀ y, Within y m → 1 ≤ times y → ¬ opened y → ∀ z, Within z y → 1 ≤ times z
  full : ∀ y, Within y m → 2 ≤ times y → ∀ z, Within z y → 2 ≤ times z

theorem occurs_iff (consistent : Consistent m) (inside : Within x m) (part : Within y m) :
    1 ≤ places y x ↔ Within y x := by
  rw [places_pos]
  constructor
  · rintro ⟨z, within, same⟩
    obtain rfl := same_eq_within consistent part (within.trans inside) same
    exact within
  · exact fun within => ⟨y, within, same_refl y⟩

theorem mark_repeated_seen : (found.markRepeated x).seen = found.seen := by
  unfold markRepeated
  split <;> rfl

/-- Meeting `x` again notes its parts as repeated. -/
theorem mark_repeated_iff (consistent : Consistent m) (inside : Within x m) (part : Within y m)
    (counted : Counted m opened times found) :
    (found.markRepeated x).repeated.contains y = true ↔ 2 ≤ times y ∨ Within y x := by
  unfold markRepeated
  split
  · rename_i known
    have twice := (counted.repeated x inside).mp known
    rw [counted.repeated y part]
    exact ⟨.inl, fun either => either.elim id (counted.full x inside twice y)⟩
  · rw [Std.HashSet.contains_insertMany_list, Bool.or_eq_true, List.contains_iff_exists_mem_beq,
      counted.repeated y part]
    refine or_congr_right ⟨?_, fun within => ?_⟩
    · rintro ⟨z, member, same⟩
      have within := distinct_within member
      obtain rfl := same_eq_within consistent part (within.trans inside) same
      exact within
    · exact ⟨y, within_distinct (consistent.within inside) within, same_refl y⟩

theorem counted_again (consistent : Consistent m) (inside : Within x m)
    (counted : Counted m opened times found) (known : 1 ≤ times x) (unopened : ¬ opened x) :
    Counted m opened (fun y => times y + places y x) (found.markRepeated x) := by
  -- It has been entered to its end before, so that each of its parts is met again.
  have parts := counted.closed x inside known unopened
  have occurs {y : Expr} (part : Within y m) := occurs_iff (y := y) consistent inside part
  have met {y : Expr} (part : Within y m) : 1 ≤ times y + places y x ↔ 1 ≤ times y := by
    refine ⟨fun some => ?_, fun some => by omega⟩
    by_cases within : Within y x
    · exact parts y within
    · have := mt (occurs part).mp within
      omega
  have twice {y : Expr} (part : Within y m) :
      2 ≤ times y + places y x ↔ 2 ≤ times y ∨ Within y x := by
    rw [← occurs part]
    have known : 1 ≤ places y x → 1 ≤ times y := fun some => parts y ((occurs part).mp some)
    omega
  refine ⟨fun y part => ?_, fun y part => ?_, fun y part some unopened z within => ?_,
    fun y part two z within => ?_⟩
  · rw [mark_repeated_seen, counted.seen y part, met part]
  · rw [mark_repeated_iff consistent inside part counted, twice part]
  · have := counted.closed y part ((met part).mp some) unopened z within
    omega
  · rw [twice (within.trans part)]
    exact ((twice part).mp two).imp (fun two => counted.full y part two z within) within.trans

/-- Meeting `x` for the first time opens it. -/
theorem counted_new (consistent : Consistent m) (inside : Within x m)
    (counted : Counted m opened times found) (new : times x = 0) :
    Counted m (fun y => y = x ∨ opened y) (fun y => times y + (y == x).toNat)
      { found with seen := found.seen.insert x } := by
  -- Only the place of `x` is counted here. Its parts are not met before it is left.
  have here {y : Expr} (part : Within y m) (same : (y == x) = true) : y = x :=
    same_eq_within consistent part inside same
  have two {y : Expr} (part : Within y m) : 2 ≤ times y + (y == x).toNat ↔ 2 ≤ times y := by
    cases same : y == x with
    | false => simp
    | true =>
        obtain rfl := here part same
        simp [new]
  refine ⟨fun y part => ?_, fun y part => ?_, fun y part some unopened z within => ?_,
    fun y part some z within => ?_⟩
  · rw [Std.HashSet.contains_insert, Bool.or_eq_true, counted.seen y part]
    cases same : y == x with
    | false =>
        have other : (x == y) = false := by
          cases back : x == y with
          | false => rfl
          | true => exact (same_symm back).symm.trans same
        simp [other]
    | true => simp [same_symm same]
  · rw [counted.repeated y part, two part]
  · obtain ⟨other, unopened⟩ := not_or.mp unopened
    have apart : (y == x) = false := by
      cases same : y == x with
      | false => rfl
      | true => exact absurd (here part same) other
    have some : 1 ≤ times y := by simpa [apart] using some
    have := counted.closed y part some unopened z within
    omega
  · rw [two (within.trans part)]
    exact counted.full y part ((two part).mp some) z within

/-- Once its parts have been met, `x` need not be open. -/
theorem Counted.leave (counted : Counted m (fun y => y = x ∨ opened y) times found)
    (parts : ∀ z, Within z x → 1 ≤ times z) : Counted m opened times found where
  seen := counted.seen
  repeated := counted.repeated
  full := counted.full
  closed y part some unopened := by
    by_cases same : y = x
    · exact same ▸ parts
    · exact counted.closed y part some (not_or.mpr ⟨same, unopened⟩)

/-- A visit to `x` counts its places and leaves nothing open that was not. -/
def Counts (m : Expr) (visit : Occurrences → Occurrences) (occurs : Expr → Nat)
    (part : Expr → Prop) : Prop :=
  ∀ opened times found, (∀ y, part y → ¬ opened y) → Counted m opened times found →
    Counted m opened (fun y => times y + occurs y) (visit found)

theorem visit_all_counts {operands : List Expr}
    (visits : ∀ o ∈ operands, Counts m (visit o) (places · o) (Within · o)) :
    Counts m (visitAll operands) (placesAll · operands) (fun y => ∃ o ∈ operands, Within y o) := by
  induction operands with
  | nil => exact fun _ _ _ _ counted => counted
  | cons o rest ih =>
      intro opened times found unopened counted
      obtain ⟨here, others⟩ := List.forall_mem_cons.mp visits
      have first := here opened times found
        (fun y within => unopened y ⟨o, List.mem_cons_self, within⟩) counted
      have all := ih others opened _ _ (fun y ⟨p, member, within⟩ =>
        unopened y ⟨p, List.mem_cons_of_mem _ member, within⟩) first
      simpa only [visitAll, places_all_cons, Nat.add_assoc] using all

theorem visit_counts (consistent : Consistent m) (inside : Within x m) :
    Counts m (visit x) (places · x) (Within · x) := by
  -- Whatever `x` is, its operands are entered the first time only.
  have meets {x : Expr} {inner : Occurrences → Occurrences} (inside : Within x m)
      (below : Counts m inner (placesAll · x.operands) (fun y => ∃ o ∈ x.operands, Within y o)) :
      Counts m (fun found => found.meet x inner) (places · x) (Within · x) := by
    intro opened times found unopened counted
    unfold meet
    simp only
    split
    · rename_i known
      exact counted_again consistent inside counted ((counted.seen x inside).mp known)
        (unopened x (.refl x))
    · rename_i new
      have none : times x = 0 := by
        have := mt (counted.seen x inside).mpr new
        omega
      have entered := counted_new consistent inside counted none
      have all := below _ _ _ (fun y ⟨o, member, within⟩ => ?_) entered
      · simp only [Nat.add_assoc, ← places_eq] at all
        refine all.leave fun z within => ?_
        have := (occurs_iff consistent inside (within.trans inside)).mpr within
        omega
      · rintro (rfl | opened)
        · exact not_within_operand member within
        · exact unopened y (.step member within) opened
  induction x with
  | terminal data => exact meets inside fun _ _ _ _ counted => counted
  | node op operands shape free ih =>
      exact meets inside (visit_all_counts fun o member =>
        ih o member ((Within.operand member).trans inside))
  | labelled label body ih =>
      refine meets inside fun opened times found unopened counted => ?_
      have body := ih ((Within.operand List.mem_cons_self).trans inside) opened times found
        (fun y within => unopened y ⟨_, List.mem_cons_self, within⟩) counted
      simpa only [operands, places_all_one] using body

end Occurrences

namespace Expr

variable {e x : Expr}

theorem duplications_counted (consistent : Consistent e) :
    Occurrences.Counted e (fun _ => False) (places · e) (Occurrences.visit e ⟨∅, ∅⟩) := by
  have start : Occurrences.Counted e (fun _ => False) (fun _ => 0) ⟨∅, ∅⟩ := by
    refine ⟨?_, ?_, ?_, ?_⟩ <;> intros <;> simp_all
  have counted := Occurrences.visit_counts consistent (.refl e) _ _ _ (fun _ _ => id) start
  simpa only [Nat.zero_add] using counted

/-- The repeated subexpressions are those that occur at two places or more. -/
theorem duplications_contains (consistent : Consistent e) :
    e.duplications.contains x = true ↔ 2 ≤ places x e := by
  have parts {y : Expr} (inside : Within y e) :
      e.duplications.contains y = true ↔ 2 ≤ places y e :=
    (duplications_counted consistent).repeated y inside
  constructor
  · intro known
    obtain ⟨y, inside, same⟩ := duplications_within known
    rw [← places_congr same, ← parts inside, Std.HashSet.contains_congr same]
    exact known
  · intro twice
    obtain ⟨y, inside, same⟩ := places_pos.mp (Nat.le_of_succ_le twice)
    rw [Std.HashSet.contains_congr same, parts inside, ← places_congr same]
    exact twice

theorem places_root (consistent : Consistent e) : places e e = 1 := by
  -- A part equal to the whole would be the whole, which is no part of an operand.
  have none : placesAll e e.operands = 0 := by
    rw [placesAll, List.countP_eq_zero]
    intro y member same
    obtain ⟨o, operand, part⟩ := mem_parts_all.mp member
    have inside : Within y o := mem_parts.mp part
    obtain rfl := same_eq_within consistent (.refl e) (.step operand inside) same
    exact not_within_operand operand inside
  rw [places_eq, same_refl, none]
  rfl

/-- What occurs twice in the walk over the tree is noted, and nothing else: never the expression
itself, and with each subexpression its operands. -/
theorem duplications_exact (agreeing : ∀ label a b, Within (labelled label a) e →
    Within (labelled label b) e → (a == b) = true) :
    (∀ x, e.duplications.contains x = true ↔ 2 ≤ e.preOrder.countP (x == ·)) ∧
      e.duplications.contains e = false ∧
      ∀ x ∈ e.duplications.toList, ∀ o ∈ x.operands, e.duplications.contains o = true := by
  have consistent := consistent_of_agreeing agreeing
  refine ⟨fun x => ?_, ?_, fun x member o operand => ?_⟩
  · rw [duplications_contains consistent, places_pre_order]
  · rw [Bool.eq_false_iff, Ne, duplications_contains consistent, places_root consistent]
    decide
  · have part : Within x e := mem_duplications_within member
    have known : e.duplications.contains x = true := by
      rw [← Std.HashSet.contains_toList, List.contains_iff_exists_mem_beq]
      exact ⟨x, member, same_refl x⟩
    have twice : 2 ≤ places x e := (duplications_contains consistent).mp known
    exact (duplications_contains consistent).mpr
      ((duplications_counted consistent).full x part twice o (.operand operand))

section Sample

def repeatedField : Expr := .terminal (.coefficient ⟨0, ⟨[], 2, none⟩⟩)

/-- The field under a label, multiplied by itself. -/
def squaredName : Expr :=
  .node .product [.labelled ⟨0⟩ repeatedField, .labelled ⟨0⟩ repeatedField] [] ∅

/-- The label and the field below it occur twice, the product once. -/
theorem squared_name_duplications :
    (∀ label a b, Within (labelled label a) squaredName →
      Within (labelled label b) squaredName → (a == b) = true) ∧
    squaredName.duplications.contains (.labelled ⟨0⟩ repeatedField) = true ∧
    squaredName.duplications.contains repeatedField = true ∧
    squaredName.duplications.contains squaredName = false := by
  have agreeing : ∀ label a b, Within (labelled label a) squaredName →
      Within (labelled label b) squaredName → (a == b) = true := by
    have only {label : Label} {body : Expr} (inside : Within (labelled label body) squaredName) :
        body = repeatedField := by
      have member := mem_parts.mpr inside
      simp [parts, partsAll, squaredName, repeatedField] at member
      exact member.2
    intro label a b left right
    rw [only left, only right]
    exact same_refl _
  obtain ⟨repeated, root, -⟩ := duplications_exact agreeing
  have twice : squaredName.duplications.contains (.labelled ⟨0⟩ repeatedField) = true := by
    rw [repeated, ← places_pre_order]
    cbv
  have below : squaredName.duplications.contains repeatedField = true := by
    rw [repeated, ← places_pre_order]
    cbv
  exact ⟨agreeing, twice, below, root⟩

end Sample

/-- Without labels they are the very parts that the tree has twice. -/
theorem duplications_unlabelled (plain : Unlabelled e) :
    e.duplications.contains x = true ↔ x ∈ parts e ∧ 2 ≤ places x e := by
  have consistent : Consistent e := fun label a _ left => absurd rfl (plain (.labelled label a) left)
  rw [duplications_contains consistent]
  refine ⟨fun twice => ⟨?_, twice⟩, fun both => both.2⟩
  obtain ⟨y, inside, same⟩ := places_pos.mp (Nat.le_of_succ_le twice)
  have part : Unlabelled y := fun z below => plain z (below.trans inside)
  rw [mem_parts, ← same_eq part (same_symm same)]
  exact inside

end Expr

end FormCalculus
