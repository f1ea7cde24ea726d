import FormCalculus.Proofs.ExpandingAssembled

/-!
Expanding an expression gives what expanding it without its labels gives. A label hides its body from
the constructors, so stripping makes the nodes above it again and simplifies where expansion would have
done so later; what of that shows in the end is named.
-/
set_option autoImplicit false

namespace FormCalculus

open FormCalculus.Expr

/-- Folding looks at sums, products and quotients only. -/
theorem Operator.confluent_other {op : Operator} {a b u v : Expr}
    (other : op ∉ [.sum, .product, .division]) : op.Confluent a b u v := by
  simp only [List.mem_cons, List.not_mem_nil, or_false, not_or] at other
  obtain ⟨sum, product, division⟩ := other
  exact ⟨fun either => absurd either (by simp [sum, product]), fun same => absurd same product,
    fun same => absurd same product, fun same => absurd same division⟩

namespace Expr

variable {e o r s t x : Expr} {scope : Scope}

/-- Stripping it changes nothing that expansion looks at. -/
structure Transparent (e : Expr) : Prop where
  -- Gradients are handed out as they stand, labels and free indices included.
  grads : ∀ x, Within x e → x.kind = .grad → Unlabelled x
  closed : GradsClosed e
  -- The dimension of an index that is derived along comes from the first terminal on a domain.
  domain : ∀ f items shape free i t m n,
    Within (.node .spatialDerivative [f, multiIndex items] shape free) e → .free i ∈ items →
      stripped f = .ok t → f.geometricDimension = .ok m → t.geometricDimension = .ok n → m = n
  -- Two simplifications return an expression with other free indices than the node.
  indices : ∀ op operands shape free ts, Within (.node op operands shape free) e →
    strippedAll operands = .ok ts →
      ¬ op.DropsIndices ts ∧ ¬ op.BaresIndices ts ∧ ¬ op.Captures ts
  -- Constants that come out of expansion meet in another order, or without a unit that was dropped.
  folds : ∀ op a b shape free scope s t u v, Within (.node op [a, b] shape free) e →
    stripped a = .ok s → stripped b = .ok t → Placed (.node op [a, b] shape free) scope →
      Expands a scope u → Expands b scope v → op.Confluent s t u v

/-- What strips to a zero can be expanded itself: no part that cannot is lost with a factor zero. -/
def Undropped (e : Expr) : Prop :=
  ∀ x t scope, Within x e → stripped x = .ok t → t.isZero = true → Placed x scope →
    ∃ r, Expands x scope r

theorem Undropped.operand (undropped : Undropped e) (member : o ∈ e.operands) : Undropped o :=
  fun x t scope inside => undropped x t scope (.step member inside)

theorem Transparent.within (transparent : Transparent e) (inside : Within x e) : Transparent x where
  grads := fun y below => transparent.grads y (below.trans inside)
  closed := fun f shape free below => transparent.closed f shape free (below.trans inside)
  domain := fun f items shape free i t m n below =>
    transparent.domain f items shape free i t m n (below.trans inside)
  indices := fun op operands shape free ts below =>
    transparent.indices op operands shape free ts (below.trans inside)
  folds := fun op a b shape free scope s t u v below =>
    transparent.folds op a b shape free scope s t u v (below.trans inside)

theorem Transparent.operand (transparent : Transparent e) (member : o ∈ e.operands) : Transparent o :=
  transparent.within (.operand member)

/-- Only these operators can show that a label was there. -/
theorem transparent_of_kinds (others : ∀ x, Within x e →
    x.kind ∉ [.grad, .spatialDerivative, .power, .componentTensor, .sum, .product, .division]) :
    Transparent e where
  grads := fun x inside kind => absurd (others x inside) (by simp [kind])
  closed := fun f shape free inside => absurd (others _ inside) (by simp [kind, Operator.kind])
  domain := fun f items shape free i t m n inside =>
    absurd (others _ inside) (by simp [kind, Operator.kind])
  indices := fun op operands shape free ts inside _ => by
    have other := others _ inside
    cases op <;> first | exact ⟨id, id, id⟩ | simp [kind, Operator.kind] at other
  folds := fun op a b shape free scope s t u v inside _ _ _ _ _ => by
    have other := others _ inside
    refine Operator.confluent_other fun among => ?_
    simp only [List.mem_cons, List.not_mem_nil, or_false] at among
    rcases among with rfl | rfl | rfl <;> simp [kind, Operator.kind] at other

theorem Transparent.orderly (transparent : Transparent e) (formed : Formed e) : Orderly e :=
  ⟨formed, transparent.grads, transparent.closed⟩

theorem stripped_gradient {operands : List Expr} {shape : Shape} {free : FreeIndices}
    (formed : Formed (.node .grad operands shape free))
    (transparent : Transparent (.node .grad operands shape free))
    (run : stripped (.node .grad operands shape free) = .ok t) : t = .node .grad operands shape free :=
  (Except.ok.inj ((stripped_plain formed (transparent.grads _ (.refl _) rfl)).symm.trans run)).symm

/-- What a node other than a gradient is stripped to, and from which operands. -/
structure StrippedNode (op : Operator) (xs : List Expr) (shape : Shape) (free : FreeIndices)
    (ts : List Expr) (t : Expr) : Prop where
  types : op.Types xs shape free
  typed : ∀ o ∈ xs, WellTyped o
  all : strippedAll xs = .ok ts
  fills : List.Forall₂ Fills xs ts
  spreads : op.Spreads ts
  orderly : ∀ o ∈ ts, Orderly o
  run : op.assemble ts = .ok t

theorem node_stripped {op : Operator} {xs : List Expr} {shape : Shape} {free : FreeIndices}
    (formed : Formed (.node op xs shape free)) (run : stripped (.node op xs shape free) = .ok t)
    (below : ∀ o ∈ xs, ∀ t, stripped o = .ok t → Fills o t ∧ Orderly t) :
    ∃ ts, StrippedNode op xs shape free ts t := by
  obtain ⟨ts, all, made⟩ := stripped_node.mp run
  have pairs := stripped_all_ok.mp all
  have fills : List.Forall₂ Fills xs ts :=
    pairs_imp pairs fun o member t run => (below o member t run).1
  obtain _ | ⟨types, typed⟩ := formed.well_typed
  obtain _ | ⟨_, spreads, _⟩ := formed
  refine ⟨ts, types, typed, all, fills, fun product v member => ?_, fun t member => ?_, made⟩
  · obtain ⟨o, inside, filled⟩ := pairs_member fills member
    rw [filled.shape]
    exact spreads product o inside
  · obtain ⟨o, inside, run⟩ := pairs_member pairs member
    exact (below o inside t run).2

/-- Stripping leaves the types of all parts as they are. -/
theorem stripped_fills (formed : Formed e) (transparent : Transparent e) (run : stripped e = .ok t) :
    Fills e t ∧ Orderly t := by
  induction e generalizing t with
  | terminal data =>
      cases run
      exact ⟨⟨rfl, rfl, fun _ => rfl⟩, orderly_terminal data⟩
  | labelled label body ih =>
      obtain ⟨fills, orderly⟩ := ih (formed.operand List.mem_cons_self)
        (transparent.operand List.mem_cons_self) (by rwa [stripped] at run)
      exact ⟨⟨fills.shape, fills.free, by simp [Expr.kind]⟩, orderly⟩
  | node op xs shape free ih =>
      by_cases gradient : op = .grad
      · subst gradient
        obtain rfl := stripped_gradient formed transparent run
        exact ⟨⟨rfl, rfl, fun _ => rfl⟩, transparent.orderly formed⟩
      obtain ⟨ts, node⟩ := node_stripped formed run fun o member t run =>
        ih o member (formed.operand member) (transparent.operand member) run
      obtain _ | ⟨stored, _, _⟩ := formed
      obtain ⟨types, _, lives⟩ := Operator.assembled stored
      obtain ⟨drops, bares, _⟩ := transparent.indices op xs shape free ts (.refl _) node.all
      have kept : t.shape = shape ∧ t.free = free := by
        refine (Operator.assemble_filled types lives node.fills ?_ (fun v member =>
          (node.orderly v member).typed) node.run).mpr ⟨drops, bares⟩
        rintro (same | ⟨rfl, f, items, i, rfl, listed⟩) x v pair m n first second
        · exact absurd same gradient
        · obtain ⟨t, ii, rfl, run, _⟩ := pairs_two (stripped_all_ok.mp node.all)
          obtain ⟨_, _, same, _, fills⟩ := pairs_two node.fills
          cases same
          simp only [List.zip_cons_cons, List.zip_nil_right, List.mem_cons, Prod.mk.injEq,
            List.not_mem_nil, or_false] at pair
          rcases pair with ⟨rfl, rfl⟩ | ⟨rfl, rfl⟩
          · exact transparent.domain _ _ _ _ i _ m n (.refl _) listed run first second
          · rw [fills.multi_index] at second
            exact Except.ok.inj (first.symm.trans second)
      refine ⟨⟨kept.1, kept.2, ?_⟩, orderly_assembled gradient node.spreads node.orderly
        (stripped_all_unlabelled node.all) node.run⟩
      cases op <;> simp [Expr.kind, Operator.kind]

theorem transparent_node {op : Operator} {xs : List Expr} {shape : Shape} {free : FreeIndices}
    (formed : Formed (.node op xs shape free)) (transparent : Transparent (.node op xs shape free))
    (run : stripped (.node op xs shape free) = .ok t) : ∃ ts, StrippedNode op xs shape free ts t :=
  node_stripped formed run fun _ member _ run =>
    stripped_fills (formed.operand member) (transparent.operand member) run

theorem Placed.filled (placed : Placed e scope) (fills : Fills e t) : Placed t scope :=
  placed.same fills.shape fills.free

theorem expands_unique (orderly : Orderly e) (placed : Placed e scope) (left : Expands e scope r)
    (right : Expands e scope s) : r = s :=
  Except.ok.inj ((expands_runs orderly placed left).symm.trans (expands_runs orderly placed right))

section Node

variable {op : Operator} {xs ts : List Expr} {shape : Shape} {free : FreeIndices}

theorem StrippedNode.parallel (node : StrippedNode op xs shape free ts t) : Parallel op xs ts := by
  refine ⟨node.fills.imp fun _ _ fills => fills.free, fun along => ?_⟩
  obtain ⟨types, _, _, fills, _⟩ := node
  cases types with
  | indexed | indexSum | componentTensor | spatialDerivative =>
      obtain ⟨_, _, rfl, _, items⟩ := pairs_two fills
      rw [items.multi_index]
      rfl
  | _ => simp at along

/-- The operands of a node that is placed are placed where it visits them, stripped or not. -/
theorem StrippedNode.visits (node : StrippedNode op xs shape free ts t)
    (placed : Placed (.node op xs shape free) scope) :
    (∀ visits, op.Visits scope xs visits → ∀ v ∈ visits, Placed v.1 v.2) ∧
      ∀ visits, op.Visits scope ts visits → ∀ v ∈ visits, Placed v.1 v.2 := by
  have before : ∀ visits, op.Visits scope xs visits → ∀ v ∈ visits, Placed v.1 v.2 :=
    fun visits visited => visits_placed node.types node.typed placed visited
  refine ⟨before, fun visits visited v member => ?_⟩
  obtain ⟨visits', visited', pairs⟩ := visits_parallel node.parallel.symm visited
  obtain ⟨v', pair⟩ := partner_right pairs.length_eq member
  obtain ⟨same, inside⟩ := List.forall₂_zip pairs pair
  have fills : Fills v'.1 v.1 := List.forall₂_zip node.fills.flip inside
  exact same ▸ (before visits' visited' v' (List.of_mem_zip pair).2).filled fills

/-- A stripped node expands to what its operator makes of the stripped operands; what it makes of a
zero may go unnoticed. -/
theorem StrippedNode.expands (node : StrippedNode op xs shape free ts t)
    (transparent : Transparent (.node op xs shape free)) (other : op ≠ .grad)
    (fills : Fills (.node op xs shape free) t) (placed : Placed (.node op xs shape free) scope)
    (back : op.isPointwise = true → op ≠ .spatialDerivative → ∀ o ∈ xs, ∀ t ∈ ts,
      stripped o = .ok t → ∀ v, Expands t scope v → Expands o scope v) :
    (op.Makes ts scope r → Expands t scope r) ∧
      (t.isZero = false → Expands t scope r → op.Makes ts scope r) := by
  obtain ⟨drops, _, captures⟩ := transparent.indices op xs shape free ts (.refl _) node.all
  refine assembled_expands node.types node.fills other node.spreads node.orderly
    (stripped_all_unlabelled node.all) (fun pointwise along o member => ?_) ⟨drops, captures⟩ ?_
    (placed.filled fills) ⟨fills.shape, fills.free⟩ node.run
  · exact (node.visits placed).2 _ (.pointwise pointwise along) (o, scope) (List.mem_map_of_mem member)
  · rintro a b rfl u v left right
    by_cases among : op ∈ [.sum, .product, .division]
    · have pointwise : op.isPointwise = true ∧ op ≠ .spatialDerivative := by
        simp only [List.mem_cons, List.not_mem_nil, or_false] at among
        rcases among with rfl | rfl | rfl <;> exact ⟨rfl, by simp⟩
      have pairs := stripped_all_ok.mp node.all
      obtain ⟨a', b', rfl, first, second⟩ := pairs_two pairs.flip
      refine transparent.folds op a' b' shape free scope a b u v (.refl _) first second placed ?_ ?_
      · exact back pointwise.1 pointwise.2 a' (by simp) a (by simp) first u left
      · exact back pointwise.1 pointwise.2 b' (by simp) b (by simp) second v right
    · exact Operator.confluent_other among

end Node

/-- Whatever an expression expands to, it does so without its labels. -/
theorem expands_stripped (formed : Formed e) (transparent : Transparent e) (run : stripped e = .ok t)
    (placed : Placed e scope) (expands : Expands e scope r) : Expands t scope r := by
  induction e generalizing t scope r with
  | terminal data =>
      cases run
      exact expands
  | labelled label body ih =>
      cases expands with
      | labelled expands =>
          exact ih (formed.operand List.mem_cons_self) (transparent.operand List.mem_cons_self)
            (by rwa [stripped] at run) (placed.same rfl rfl) expands
  | node op xs shape free ih =>
      by_cases gradient : op = .grad
      · subst gradient
        obtain rfl := stripped_gradient formed transparent run
        exact expands
      have fills := (stripped_fills formed transparent run).1
      obtain ⟨ts, node⟩ := transparent_node formed transparent run
      have each : ∀ o ∈ xs, ∀ t, stripped o = .ok t → ∀ inner v, Placed o inner →
          Expands o inner v → Expands t inner v := fun o member t run inner v placed expands =>
        ih o member (formed.operand member) (transparent.operand member) run placed expands
      have makes := (expands_node (transparent.orderly formed) gradient).mp expands
      have places := (node.visits placed).1
      refine (node.expands transparent gradient fills placed ?_).1
        (makes_parallel node.parallel places (fun o t pair => each o (List.of_mem_zip pair).1 t
          (List.forall₂_zip (stripped_all_ok.mp node.all) pair)) makes)
      -- An operand that expands at all expands to the same as without its labels.
      intro pointwise along o member t member' run v found
      obtain ⟨results, runs, _⟩ := (makes_pointwise pointwise along).mp makes
      obtain ⟨u, pair⟩ := partner_right runs.length_eq member
      have expands := List.forall₂_zip runs pair
      have here : Placed o scope :=
        places _ (.pointwise pointwise along) (o, scope) (List.mem_map_of_mem member)
      have fills := (stripped_fills (formed.operand member) (transparent.operand member) run).1
      rwa [expands_unique (node.orderly t member') (here.filled fills) found
        (each o member t run scope u here expands)]

/-- What it expands to without its labels, an expression expands to, unless simplification hides a part
that cannot be expanded. -/
theorem stripped_expands (formed : Formed e) (transparent : Transparent e) (undropped : Undropped e)
    (run : stripped e = .ok t) (placed : Placed e scope) (expands : Expands t scope r) :
    Expands e scope r := by
  induction e generalizing t scope r with
  | terminal data =>
      cases run
      exact expands
  | labelled label body ih =>
      exact .labelled (ih (formed.operand List.mem_cons_self) (transparent.operand List.mem_cons_self)
        (undropped.operand List.mem_cons_self) (by rwa [stripped] at run) (placed.same rfl rfl) expands)
  | node op xs shape free ih =>
      by_cases gradient : op = .grad
      · subst gradient
        obtain rfl := stripped_gradient formed transparent run
        exact expands
      obtain ⟨fills, orderly⟩ := stripped_fills formed transparent run
      -- A zero says nothing of the operands; any other result was made of theirs.
      cases isZero : t.isZero with
      | true =>
          obtain ⟨v, found⟩ := undropped _ t scope (.refl _) run isZero placed
          have same := expands_stripped formed transparent run placed found
          rwa [expands_unique orderly (placed.filled fills) expands same]
      | false =>
          obtain ⟨ts, node⟩ := transparent_node formed transparent run
          have each : ∀ o ∈ xs, ∀ t, stripped o = .ok t → ∀ inner v, Placed o inner →
              Expands t inner v → Expands o inner v := fun o member t run inner v placed expands =>
            ih o member (formed.operand member) (transparent.operand member)
              (undropped.operand member) run placed expands
          have places := node.visits placed
          have makes : op.Makes ts scope r := by
            refine (node.expands transparent gradient fills placed ?_).2 isZero expands
            exact fun pointwise along o member t _ run v => each o member t run scope v
              (places.1 _ (.pointwise pointwise along) (o, scope) (List.mem_map_of_mem member))
          refine (expands_node (transparent.orderly formed) gradient).mpr
            (makes_parallel node.parallel.symm places.2 (fun t o pair inner v placed expands => ?_) makes)
          have fills := List.forall₂_zip node.fills.flip pair
          exact each o (List.of_mem_zip pair).2 t (List.forall₂_zip (stripped_all_ok.mp node.all).flip pair)
            inner v (placed.same fills.shape.symm fills.free.symm) expands

/-- A table is the same over entries that are found where the first ones were. -/
theorem tabulate_imp {entry entry' : Component → Except TransformError Expr} {shape : Shape}
    {position : Component} (imp : ∀ component v, component.Lies shape →
      entry (position ++ component) = .ok v → entry' (position ++ component) = .ok v)
    (run : tabulate entry shape position = .ok r) : tabulate entry' shape position = .ok r := by
  induction shape generalizing position r with
  | nil =>
      rw [tabulate] at run ⊢
      simpa using imp [] r .nil (by simpa using run)
  | cons dim shape ih =>
      simp only [tabulate, except_bind_ok, except_map_error_ok] at run ⊢
      obtain ⟨entries, runs, list⟩ := run
      refine ⟨entries, ?_, list⟩
      refine mapM_of_pairs (pairs_imp (mapM_ok runs) fun next inside v run => ih ?_ run)
      intro component v lies found
      have below : Component.Lies (next :: component) (dim :: shape) :=
        .cons (List.mem_range.mp inside) lies
      simpa using imp (next :: component) v below (by simpa using found)

/-- A sum over an index of dimension zero is in it. -/
def HasEmptySum (e : Expr) : Prop :=
  ∃ summand i shape free, Within (.node .indexSum [summand, multiIndex [.free i]] shape free) e ∧
    summand.free.dim? i = some 0

theorem HasEmptySum.operand (empty : HasEmptySum o) (member : o ∈ e.operands) : HasEmptySum e := by
  obtain ⟨summand, i, shape, free, inside, none⟩ := empty
  exact ⟨summand, i, shape, free, .step member inside, none⟩

/-- The index is free in it or among its subscripts. -/
def Mentions (i : Index) (e : Expr) : Prop :=
  e.free.contains i = true ∨ ∃ items, e = multiIndex items ∧ .free i ∈ items

theorem mentions_operand {op : Operator} {xs : List Expr} {shape : Shape} {free : FreeIndices} {i : Index}
    (types : op.Types xs shape free) (mentions : Mentions i (.node op xs shape free)) :
    ∃ o ∈ xs, Mentions i o := by
  rcases mentions with known | ⟨_, same, _⟩
  · obtain ⟨d, found⟩ := FreeIndices.contains_iff.mp known
    rcases types_free_only types i d found with ⟨o, member, found⟩ | ⟨items, member, listed⟩
    · exact ⟨o, member, .inl (FreeIndices.contains_iff.mpr ⟨d, found⟩)⟩
    · exact ⟨_, member, .inr ⟨items, rfl, listed⟩⟩
  · cases same

theorem mentions_node {op : Operator} {xs : List Expr} {shape : Shape} {free : FreeIndices} {i : Index}
    (mentions : Mentions i (.node op xs shape free)) : free.contains i = true := by
  rcases mentions with known | ⟨_, same, _⟩
  · exact known
  · cases same

/-- Without empty sums all indices that are free in it have positions where it expands. -/
theorem expands_assigned (expands : Expands e scope r) (orderly : Orderly e)
    (nonempty : ¬ HasEmptySum e) {i : Index} (mentions : Mentions i e) :
    ∃ p, scope.position? i = some p := by
  induction expands with
  | zero _ assigned =>
      rcases mentions with known | ⟨_, same, _⟩
      · exact unassigned_none assigned (FreeIndices.mem_indices_iff.mpr known)
      · cases same
  | @multiIndex items scope assigned =>
      rcases mentions with known | ⟨_, same, listed⟩
      · cases known
      · cases same
        exact unassigned_none assigned (List.mem_filterMap.mpr ⟨.free i, listed, rfl⟩)
  | @terminal data _ _ notZero notItems =>
      rcases mentions with known | ⟨_, same, _⟩
      · cases data <;> first | exact absurd rfl notZero | cases known
      · exact absurd (congrArg Expr.kind same) notItems
  | labelled _ ih =>
      refine ih (orderly.operand List.mem_cons_self)
        (fun empty => nonempty (empty.operand List.mem_cons_self)) ?_
      rcases mentions with known | ⟨_, same, _⟩
      · exact .inl known
      · cases same
  | @conditional test _ _ _ _ _ _ _ _ _ _ _ _ _ first second third =>
      obtain _ | ⟨types, _⟩ := orderly.typed
      have each {o : Expr} (member : o ∈ [_, _, _]) := And.intro (orderly.operand member)
        fun empty : HasEmptySum o => nonempty (empty.operand member)
      obtain ⟨o, member, inner⟩ := mentions_operand types mentions
      have below := each member
      simp only [List.mem_cons, List.not_mem_nil, or_false] at member
      rcases member with rfl | rfl | rfl
      · exact first below.1 below.2 inner
      · exact second below.1 below.2 inner
      · exact third below.1 below.2 inner
  | @indexSum summand _ j dim shape free scope terms found length _ _ ih =>
      cases dim with
      | zero => exact absurd ⟨summand, j, shape, free, .refl _, found⟩ nonempty
      | succ dim =>
          obtain _ | ⟨types, _⟩ := orderly.typed
          cases types with
          | indexSum =>
              obtain ⟨d, kept⟩ := FreeIndices.contains_iff.mp (mentions_node mentions)
              obtain ⟨other, inner⟩ := (FreeIndices.erase_dim _ _ _ _).mp kept
              obtain ⟨term, pair⟩ := partner_right length (x := 0) (by simp)
              obtain ⟨p, stands⟩ := ih 0 term pair (orderly.operand List.mem_cons_self)
                (fun empty => nonempty (empty.operand List.mem_cons_self))
                (.inl (FreeIndices.contains_iff.mpr ⟨d, inner⟩))
              exact ⟨p, (bind_position other).symm.trans stands⟩
  | @indexed tensor r items shape free scope assigned _ ih =>
      obtain _ | ⟨types, _⟩ := orderly.typed
      obtain ⟨o, member, inner⟩ := mentions_operand types mentions
      rcases List.mem_pair.mp member with rfl | rfl
      · exact ih (orderly.operand List.mem_cons_self)
          (fun empty => nonempty (empty.operand List.mem_cons_self)) inner
      · rcases inner with known | ⟨_, same, listed⟩
        · cases known
        · cases same
          exact unassigned_none assigned (List.mem_filterMap.mpr ⟨.free i, listed, rfl⟩)
  | @componentTensor e _ indices shape free scope length _ ih =>
      obtain _ | ⟨types, _⟩ := orderly.typed
      obtain ⟨_, _, binds⟩ := component_tensor_types types
      obtain ⟨d, kept⟩ := FreeIndices.contains_iff.mp (mentions_node mentions)
      obtain ⟨absent, inner⟩ := (binds.dims i d).mp kept
      obtain ⟨p, stands⟩ := ih (orderly.operand List.mem_cons_self)
        (fun empty => nonempty (empty.operand List.mem_cons_self))
        (.inl (FreeIndices.contains_iff.mpr ⟨d, inner⟩))
      refine ⟨p, (bind_all_position fun binding member same => absent ?_).symm.trans stands⟩
      exact same ▸ (List.of_mem_zip member).1
  | @listTensor entries entry _ _ _ _ _ _ _ found _ ih =>
      have member := List.mem_of_getElem? found
      obtain _ | ⟨types, _⟩ := orderly.typed
      cases types with
      | listTensor _ same =>
          refine ih (orderly.operand member) (fun empty => nonempty (empty.operand member)) (.inl ?_)
          rw [(same entry member).2]
          exact mentions_node mentions
  | grad kept =>
      have none := gradient_closed orderly.typed orderly.closed kept
      rw [none] at mentions
      cases mentions_node mentions
  | pointwise _ length _ _ ih =>
      obtain _ | ⟨types, _⟩ := orderly.typed
      obtain ⟨o, member, inner⟩ := mentions_operand types mentions
      obtain ⟨v, pair⟩ := partner_right length member
      exact ih o v pair (orderly.operand member) (fun empty => nonempty (empty.operand member)) inner

/-- What an operator makes of expressions without empty sums has none, unless it sums over such an
index itself. -/
theorem assembled_empty_sum {op : Operator} {ts : List Expr} (other : op ≠ .indexSum)
    (run : op.assemble ts = .ok t) (empty : HasEmptySum t) : ∃ o ∈ ts, HasEmptySum o := by
  obtain ⟨summand, i, shape, free, inside, none⟩ := empty
  have built : Built (· ≠ .indexSum) (· ∈ ts) t :=
    Built.assembled op other (by simp) (fun _ member => .given member) run
  obtain ⟨o, member, inside⟩ := built_nodes built inside (by simp)
  exact ⟨o, member, summand, i, shape, free, inside, none⟩

/-- Stripping adds no empty sums. -/
theorem stripped_empty_sum (formed : Formed e) (transparent : Transparent e) (run : stripped e = .ok t)
    (empty : HasEmptySum t) : HasEmptySum e := by
  induction e generalizing t with
  | terminal data =>
      cases run
      exact empty
  | labelled label body ih =>
      exact (ih (formed.operand List.mem_cons_self) (transparent.operand List.mem_cons_self)
        (by rwa [stripped] at run) empty).operand List.mem_cons_self
  | node op xs shape free ih =>
      by_cases gradient : op = .grad
      · subst gradient
        obtain rfl := stripped_gradient formed transparent run
        exact empty
      obtain ⟨ts, node⟩ := transparent_node formed transparent run
      have below : (∃ o ∈ ts, HasEmptySum o) → HasEmptySum (.node op xs shape free) := by
        rintro ⟨t, member, empty⟩
        obtain ⟨o, inside, run⟩ := pairs_member (stripped_all_ok.mp node.all) member
        exact (ih o inside (formed.operand inside) (transparent.operand inside) run empty).operand inside
      by_cases sum : op = .indexSum
      · subst sum
        obtain ⟨types, _, _, fills, _, _, made⟩ := node
        cases types with
        | @indexSum summand i =>
            obtain ⟨v, ii, rfl, filled, items⟩ := pairs_two fills
            obtain rfl := items.multi_index
            have built : v.indexSum i = .ok t := made
            obtain ⟨u, j, axes, set, inside, none⟩ := empty
            obtain ⟨_, _, ⟨_, rfl⟩ | rfl⟩ := index_sum_cases built
            · cases inside with
              | step member => cases member
            · cases inside with
              | refl => exact ⟨summand, i, _, _, .refl _, filled.free ▸ none⟩
              | step member inside =>
                  exact below ⟨_, member, u, j, axes, set, inside, none⟩
      · exact below (assembled_empty_sum sum node.run empty)

/-- Where it is expanded from the start an expression is placed, or has no expansion. -/
theorem expand_in_placed {component : Component} (orderly : Orderly e)
    (closes : e.free = ∅ ∨ ¬ HasEmptySum e) (lies : component.Lies e.shape)
    (expands : Expands e ⟨component, []⟩ r) : Placed e ⟨component, []⟩ := by
  refine ⟨lies, fun i d known => ?_⟩
  rcases closes with closed | nonempty
  · rw [closed] at known
    cases known
  · obtain ⟨p, stands⟩ := expands_assigned expands orderly nonempty
      (.inl (FreeIndices.contains_iff.mpr ⟨d, known⟩))
    cases stands

theorem transparent_strippable (formed : Formed e) (transparent : Transparent e) : Strippable e := by
  intro op xs shape free ts inside all product v member
  obtain ⟨o, inside', run⟩ := pairs_member (stripped_all_ok.mp all) member
  obtain _ | ⟨_, spreads, below⟩ := formed.within inside
  have fills := (stripped_fills (below o inside') ((transparent.within inside).operand inside') run).1
  rw [fills.shape]
  exact spreads product o inside'

/-- Expanding an expression and expanding it without its labels gives the same. What the labels hide may
be lost with a part that vanishes, and then the converse may fail. -/
theorem expand_stripped {supply after : Supply} (made : Constructible e) (consistent : Consistent e)
    (transparent : Transparent e) (summed : e.free = ∅ ∨ ¬ HasEmptySum e)
    (strip : e.stripLabels supply = .ok (s, after)) :
    (∀ r, e.expand = .ok r → s.expand = .ok r) ∧
      (Undropped e → ∀ r, e.expand = .ok r ↔ s.expand = .ok r) := by
  have formed := made.formed
  obtain ⟨run, _⟩ := (strip_labels_ok formed consistent.coherent
    (transparent_strippable formed transparent)).mp strip
  obtain ⟨fills, orderly⟩ := stripped_fills formed transparent run
  have summed' : s.free = ∅ ∨ ¬ HasEmptySum s := by
    rw [fills.free]
    exact summed.imp_right fun nonempty empty => nonempty (stripped_empty_sum formed transparent run empty)
  have forth (r : Expr) (expanded : e.expand = .ok r) : s.expand = .ok r := by
    unfold expand at expanded ⊢
    rw [fills.shape]
    refine tabulate_imp (fun component v lies found => ?_) expanded
    have expands := expand_in_expands formed.well_typed found
    have placed := expand_in_placed (transparent.orderly formed) summed lies expands
    exact expands_runs orderly (placed.filled fills) (expands_stripped formed transparent run placed expands)
  refine ⟨forth, fun undropped r => ⟨forth r, fun expanded => ?_⟩⟩
  unfold expand at expanded ⊢
  rw [fills.shape] at expanded
  refine tabulate_imp (fun component v lies found => ?_) expanded
  have expands := expand_in_expands orderly.typed found
  have there := expand_in_placed orderly summed' (fills.shape.symm ▸ lies) expands
  have placed : Placed e ⟨component, []⟩ := there.same fills.shape.symm fills.free.symm
  exact expands_runs (transparent.orderly formed) placed
    (stripped_expands formed transparent undropped run placed expands)

section Sample

theorem Consistent.along {op : Operator} {items : List IndexItem} {shape : Shape} {free : FreeIndices}
    (consistent : Consistent e) : Consistent (.node op [e, multiIndex items] shape free) := by
  refine consistent.of_labels fun label body inside => ?_
  cases inside with
  | step member below =>
      rcases List.mem_pair.mp member with rfl | rfl
      · exact below
      · cases below with
        | step member => cases member

/-- The sum of a scalar over an index. -/
def sampleTotal (e : Expr) : Expr := .node .indexSum [e, multiIndex [.free sampleIndex]] [] ∅

/-- The components of a field add up to the same under a name as without. -/
theorem expand_stripped_components :
    ∃ r, (sampleTotal sampleAt).expand = .ok r ∧
      (sampleTotal (.labelled ⟨0⟩ sampleAt)).expand = .ok r := by
  have strip : (sampleTotal (.labelled ⟨0⟩ sampleAt)).stripLabels {} = .ok (sampleTotal sampleAt, {}) := by
    cbv
  have total : (sampleTotal sampleAt).expand =
      .ok (.node .sum [samplePart 0, samplePart 1] [] ∅) := by cbv
  have component : Constructible sampleAt := component_at_constructible 0
  have summed : Operator.assemble .indexSum [.labelled ⟨0⟩ sampleAt, multiIndex [.free sampleIndex]] =
      .ok (sampleTotal (.labelled ⟨0⟩ sampleAt)) := by cbv
  have made : Constructible (sampleTotal (.labelled ⟨0⟩ sampleAt)) :=
    .assemble .indexSum (by decide) (operands_pair (.labelled component rfl) (.terminal _)) summed
  have plain : Unlabelled sampleAt := fun x inside =>
    (by decide : ∀ x ∈ parts sampleAt, x.kind ≠ .labelled) x (mem_parts.mpr inside)
  have consistent : Consistent (sampleTotal (.labelled ⟨0⟩ sampleAt)) := (consistent_label plain).along
  have transparent : Transparent (sampleTotal (.labelled ⟨0⟩ sampleAt)) :=
    transparent_of_kinds fun x inside => (by decide : ∀ x ∈ parts (sampleTotal (.labelled ⟨0⟩ sampleAt)),
      x.kind ∉ [.grad, .spatialDerivative, .power, .componentTensor, .sum, .product, .division])
        x (mem_parts.mpr inside)
  have undropped : Undropped (sampleTotal (.labelled ⟨0⟩ sampleAt)) := by
    intro x t scope inside run isZero
    have kept : (parts (sampleTotal (.labelled ⟨0⟩ sampleAt))).all
        (fun x => (stripped x).toOption.all (!·.isZero)) = true := by cbv
    have nonzero := List.all_eq_true.mp kept x (mem_parts.mpr inside)
    simp [run, Except.toOption, isZero] at nonzero
  have same := (expand_stripped made consistent transparent (.inl rfl) strip).2 undropped
  exact ⟨_, total, (same _).mpr total⟩

/-- A product with a zero that has a name. -/
def sampleVanishing : Expr :=
  .node .product [.node .determinant [.terminal (.coefficient ⟨0, .tensor [2, 2] 2⟩)] [] ∅,
    .labelled ⟨0⟩ zero] [] ∅

/-- The determinant is refused, and lost once the name is gone. -/
example : sampleVanishing.expand = .error (.unsupported .compoundsLowered
      (.node .determinant [.terminal (.coefficient ⟨0, .tensor [2, 2] 2⟩)] [] ∅)) ∧
    sampleVanishing.stripLabels {} = .ok (zero, {}) ∧ zero.expand = .ok zero :=
  ⟨by cbv, by cbv, by cbv⟩

def sampleFunction : Expr := .terminal (.coefficient ⟨0, .scalar 2⟩)

/-- The first partial derivative of a function. -/
def sampleSlope (f : Expr) : Expr :=
  .node .indexed [.node .grad [f] [2] ∅, multiIndex [.fixed 0]] [] ∅

/-- The gradient of a function with a name is refused, the one of the function is not. -/
theorem labelled_gradient_refused :
    Constructible (sampleSlope (.labelled ⟨0⟩ sampleFunction)) ∧
    Consistent (sampleSlope (.labelled ⟨0⟩ sampleFunction)) ∧
    (sampleSlope (.labelled ⟨0⟩ sampleFunction)).stripLabels {} = .ok (sampleSlope sampleFunction, {}) ∧
    (sampleSlope sampleFunction).expand = .ok (sampleSlope sampleFunction) ∧
    ∀ r, (sampleSlope (.labelled ⟨0⟩ sampleFunction)).expand ≠ .ok r := by
  have strip : (sampleSlope (.labelled ⟨0⟩ sampleFunction)).stripLabels {} =
      .ok (sampleSlope sampleFunction, {}) := by cbv
  have kept : (sampleSlope sampleFunction).expand = .ok (sampleSlope sampleFunction) := by cbv
  have refused : (sampleSlope (.labelled ⟨0⟩ sampleFunction)).expand =
      .error (.unsupported .derivativesExpanded (.node .grad [.labelled ⟨0⟩ sampleFunction] [2] ∅)) := by cbv
  have gradient : Operator.assemble .grad [.labelled ⟨0⟩ sampleFunction] =
      .ok (.node .grad [.labelled ⟨0⟩ sampleFunction] [2] ∅) := by cbv
  have slope : Operator.assemble .indexed
      [.node .grad [.labelled ⟨0⟩ sampleFunction] [2] ∅, multiIndex [.fixed 0]] =
        .ok (sampleSlope (.labelled ⟨0⟩ sampleFunction)) := by cbv
  have field : Constructible sampleFunction := .terminal _
  have named : Constructible (.labelled ⟨0⟩ sampleFunction) := .labelled field rfl
  have made : Constructible (sampleSlope (.labelled ⟨0⟩ sampleFunction)) :=
    .assemble .indexed (by decide) (operands_pair (.assemble .grad (by decide)
      (List.forall_mem_singleton.mpr named) gradient) (.terminal _)) slope
  have body : Unlabelled sampleFunction := unlabelled_terminal _
  have inner : Consistent (.node .grad [.labelled ⟨0⟩ sampleFunction] [2] ∅) :=
    (consistent_label body).over rfl (by simp [Expr.kind, Operator.kind])
  have consistent : Consistent (sampleSlope (.labelled ⟨0⟩ sampleFunction)) := inner.along
  exact ⟨made, consistent, strip, kept, fun r run => by simp [refused] at run⟩

end Sample

end Expr

end FormCalculus
